import LazyLisp.CommandLine

/-!
# The program

Reads the command line and the environment, and passes what the library answers to the standard
streams. The interactive loop reads and answers line by line.
-/

namespace LazyLisp.Program

/-- Writes a text to each stream that gets one. -/
def put (w : Written) : IO Unit := do
  (← IO.getStdout).putStr w.out
  (← IO.getStdout).flush
  (← IO.getStderr).putStr w.err

/-- Reads bytes up to a newline, or to the end of the input; `none` if the input has ended. -/
partial def readLine (input : IO.FS.Stream) (read : ByteArray) : IO (Option ByteArray) := do
  let next ← input.read 1
  if next.isEmpty then return if read.isEmpty then none else some read
  if next.get! 0 = 10 then return some read
  readLine input (read ++ next)

/-- Answers lines until the loop ends. -/
partial def loop (s : Session) : IO UInt32 := do
  put (.onOut Repl.prompt)
  let bytes? ← readLine (← IO.getStdin) ByteArray.empty
  let read := match bytes? with
    | some bytes => CommandLine.readOfBytes bytes.toList
    | none => .ended
  let (written, next) := Repl.respond s read
  put written
  match next with
  | .goOn s => loop s
  | .exit code => return code

/-- The bytes of a file, or why there are none. -/
def readFile (path : String) : IO (Except FileError (List UInt8)) := do
  try
    return .ok (← IO.FS.readBinFile path).toList
  catch e =>
    match e with
    | .noFileOrDirectory .. => return .error .missing
    | .inappropriateType _ _ "not a directory" => return .error .notDirectory
    | .inappropriateType .. => return .error .directory
    | .invalidArgument _ _ "name too long" => return .error .nameTooLong
    | e => return .error (.other e.toString)

/-- Does what the command line asks for and gives the exit code. -/
def run (args : List String) : IO UInt32 := do
  match CommandLine.parse? args (← IO.getEnv CommandLine.environmentVariable) with
  | none =>
    put (.onErr CommandLine.usage)
    return CommandLine.usageCode
  | some i =>
    match i.command with
    | .repl => loop (Session.new i.limit)
    | .eval source =>
      let (written, code) := CommandLine.finished ((Session.new i.limit).run source)
      put written
      return code
    | .run path =>
      let (written, code) := CommandLine.runScript i.limit (← readFile path)
      put written
      return code

end LazyLisp.Program

def main (args : List String) : IO UInt32 := LazyLisp.Program.run args
