import LazyLisp.Session
import LazyLisp.Text.Blank

/-!
# The interactive loop

Lines are evaluated one by one in a single session. How they are read is left to whoever runs the
loop: `Repl.respond` says what the loop does after one read, and `Repl.transcript` what it writes
for any sequence of reads.
-/

namespace LazyLisp

/-- What a program writes to its two outputs. -/
structure Written where
  out : String := ""
  err : String := ""
  deriving DecidableEq, Repr

namespace Written

/-- What is written by one after the other. -/
def append (a b : Written) : Written := ⟨a.out ++ b.out, a.err ++ b.err⟩

instance : Append Written := ⟨append⟩

/-- A text on the standard output. -/
def onOut (s : String) : Written := { out := s }

/-- A text on the error output. -/
def onErr (s : String) : Written := { err := s }

/-- The texts, each on a line of its own. -/
def lines (texts : List String) : Written := .onOut (String.join (texts.map (· ++ "\n")))

/-- A report on a line of its own. -/
def report (d : Diagnostic) : Written := .onErr (d.text ++ "\n")

/-- The message that an input or a file could not be read. -/
def ioError (message : String) : Written := .onErr ("I/O error: " ++ message ++ "\n")

end Written

namespace Repl

/-- What the loop asks for a line with. -/
def prompt : String := "quill> "

/-- What a read gives. -/
inductive Read where
  | line (text : String)
  /-- The user breaks off. -/
  | interrupted
  /-- There is no more input. -/
  | ended
  /-- The input could not be read, for this reason. -/
  | failed (message : String)
  deriving DecidableEq, Repr

/-- What a line asks for. -/
inductive Command where
  | quit
  | reset
  | skip
  | eval (source : String)
  deriving DecidableEq, Repr

/-- Blanks at the ends of a line do not count. -/
def Command.ofLine (line : String) : Command :=
  match Text.trim line with
  | ":quit" | ":exit" => .quit
  | ":reset" => .reset
  | "" => .skip
  | source => .eval source

/-- Evaluates a source and gives what is written for it: the values it shows, then its own value
unless that is void, or the report of its failure. -/
def evaluate (s : Session) (source : String) : Written × Session :=
  let before := s.memory.output.size
  let (result, s) := s.evalSource source
  let shown := Written.lines (s.shownAfter before)
  match result with
  | .ok v => (if v.isVoid then shown else shown ++ .lines [v.display], s)
  | .error d => (shown ++ .report d, s)

/-- How the loop goes on. -/
inductive Next where
  | goOn (s : Session)
  | exit (code : UInt32)

/-- What is written after a read, and how the loop goes on. -/
def respond (s : Session) : Read → Written × Next
  | .line text =>
    match Command.ofLine text with
    | .quit => ({}, .exit 0)
    | .reset => ({}, .goOn s.reset)
    | .skip => ({}, .goOn s)
    | .eval source =>
      let (written, s) := evaluate s source
      (written, .goOn s)
  | .interrupted | .ended => ({}, .exit 0)
  | .failed message => (.ioError message, .exit 1)

/-- What the loop writes after each of the reads that it makes, and its exit code; `none` if it
would read on. -/
def transcript (s : Session) : List Read → List Written × Option UInt32
  | [] => ([], none)
  | read :: reads =>
    match respond s read with
    | (written, .exit code) => ([written], some code)
    | (written, .goOn s) =>
      let (rest, code) := transcript s reads
      (written :: rest, code)

end Repl

end LazyLisp
