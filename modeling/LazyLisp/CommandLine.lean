import LazyLisp.Files
import LazyLisp.Reader.Atom
import LazyLisp.Repl

/-!
# The command line

`[--max-depth N] (eval SOURCE | run PATH | repl)`, where nothing stands for `repl`. The option may
also follow the command, where it counts before one in front of it, and either counts before the
environment's value. An argument that starts with `-` is an option unless it is `-` alone or follows
`--`.
-/

namespace LazyLisp.CommandLine

/-- What to do. -/
inductive Command where
  | eval (source : String)
  | run (path : String)
  | repl
  deriving DecidableEq, Repr

/-- A well-formed command line. -/
structure Invocation where
  command : Command
  limit : Nat
  deriving DecidableEq, Repr

/-- A depth: a natural number that fits 64 bits, in decimal digits after an optional plus sign. -/
def depth? (text : String) : Option Nat := do
  let digits := match text.toList with
    | '+' :: digits => digits
    | digits => digits
  let n ← Reader.natural? digits
  if n < UInt64.size then some n else none

/-- The arguments of one level, in front of or behind the command name: the words that are no
options, and the depth if the option was given. -/
structure Level where
  words : List String := []
  depth : Option Nat := none

namespace Level

/-- Adds the option; it is given at most once on a level. -/
def setDepth? (l : Level) (text : String) : Option Level := do
  guard l.depth.isNone
  return { l with depth := some (← depth? text) }

/-- Adds an argument that is no option. -/
def addWord (l : Level) (word : String) : Level := { l with words := l.words ++ [word] }

end Level

/-- What an argument is, before `--`. -/
inductive Argument where
  | word (text : String)
  /-- The option, with its value still to come. -/
  | option
  /-- The option together with its value. -/
  | optionWith (value : String)
  /-- Everything after this is a word. -/
  | separator
  | unknown
  deriving DecidableEq, Repr

/-- The one option there is. -/
def optionName : String := "--max-depth"

/-- Classifies an argument. -/
def Argument.ofText (text : String) : Argument :=
  if text = "--" then .separator
  else if text = optionName then .option
  else
    let chars := text.toList
    let start := (optionName ++ "=").toList
    if start.isPrefixOf chars then .optionWith (String.ofList (chars.drop start.length))
    else if chars.head? = some '-' && chars.length > 1 then .unknown
    else .word text

/-- Reads arguments up to the first word, if `stopAtWord`, and all of them otherwise. Gives the
level and the arguments left. -/
def readLevel (stopAtWord : Bool) (l : Level) : List String → Option (Level × List String)
  | [] => some (l, [])
  | text :: rest =>
    match Argument.ofText text, rest with
    | .word w, rest =>
      if stopAtWord then some (l, w :: rest) else readLevel stopAtWord (l.addWord w) rest
    | .optionWith value, rest => (l.setDepth? value).bind fun l => readLevel stopAtWord l rest
    | .option, value :: rest => (l.setDepth? value).bind fun l => readLevel stopAtWord l rest
    | .separator, rest => some ({ l with words := l.words ++ rest }, [])
    | .option, [] | .unknown, _ => none

/-- The command that a name and its words give. A source may be empty, a path may not. -/
def command? : String → List String → Option Command
  | "eval", [source] => some (.eval source)
  | "run", [path] => if path.isEmpty then none else some (.run path)
  | "repl", [] => some .repl
  | _, _ => none

/-- The depth for the options of the levels and the environment's value. Every level without the
option turns to the environment, whose value must then be well formed; of the options given, the
later one counts. -/
def limit? (levels : List Level) (environment : Option String) : Option Nat := do
  let fallback ←
    match environment with
    | some text => if levels.any (·.depth.isNone) then depth? text else some defaultLimit
    | none => some defaultLimit
  return (levels.reverse.findSome? (·.depth)).getD fallback

/-- Reads a command line, with the value of the environment variable if it is set. -/
def parse? (args : List String) (environment : Option String) : Option Invocation := do
  let (outer, rest) ← readLevel true {} args
  match rest with
  | [] =>
    guard outer.words.isEmpty
    return ⟨.repl, ← limit? [outer] environment⟩
  | name :: rest =>
    let (inner, _) ← readLevel false {} rest
    return ⟨← command? name inner.words, ← limit? [outer, inner] environment⟩

/-- What is written for a program that was run, and the exit code. -/
def finished (result : Session.Outcome Value) : Written × UInt32 :=
  let shown := Written.lines result.2.shown
  match result.1 with
  | .ok _ => (shown, 0)
  | .error d => (shown ++ .report d, 1)

/-- What is written for a script, given its bytes or why there are none. -/
def runScript (limit : Nat) : Except FileError (List UInt8) → Written × UInt32
  | .ok bytes => finished ((Session.new limit).runBytes bytes)
  | .error e => (.ioError e.message, 1)

/-! ## The standard input

The interactive loop reads it line by line, and what the loop asks with goes to the standard output
before every read.
-/

/-- What a read gives for a line: the text of its bytes up to the newline, less one carriage return
at the end. -/
def readOfBytes (bytes : List UInt8) : Repl.Read :=
  let bytes := if bytes.getLast? = some 13 then bytes.dropLast else bytes
  match Utf8.decode bytes with
  | .ok line => .line line
  | .error _ => .failed "stream did not contain valid UTF-8"

/-- The lines of an input, without their newlines. What follows the last newline is a line only if
it is not empty. -/
def splitLines (bytes : List UInt8) : List (List UInt8) :=
  let pieces := bytes.splitOn 10
  if pieces.getLast? = some [] then pieces.dropLast else pieces

/-- What reads from an input give, one after the other. -/
def reads (input : List UInt8) : List Repl.Read := (splitLines input).map readOfBytes ++ [.ended]

/-- What the interactive loop writes for an input, what it asks with included, and its exit code. -/
def interact (s : Session) (input : List UInt8) : Written × UInt32 :=
  let (texts, code) := Repl.transcript s (reads input)
  -- the reads come to an end, so there is a code
  (texts.foldl (· ++ .onOut Repl.prompt ++ ·) {}, code.getD 0)

/-! ## Carrying out a command -/

/-- What an invocation writes and its exit code, given the working directory and the bytes of the
input. -/
def execute (i : Invocation) (directory : Directory) (input : List UInt8) : Written × UInt32 :=
  match i.command with
  | .eval source => finished ((Session.new i.limit).run source)
  | .run path => runScript i.limit (directory.read path)
  | .repl => interact (Session.new i.limit) input

/-- The name of the environment variable that sets the depth. -/
def environmentVariable : String := "QUILL_MAX_DEPTH"

/-- The exit code of a command line that is not well formed. -/
def usageCode : UInt32 := 2

/-- What is written for such a command line. -/
def usage : String := "usage: [--max-depth N] (eval SOURCE | run PATH | repl)\n"

end LazyLisp.CommandLine
