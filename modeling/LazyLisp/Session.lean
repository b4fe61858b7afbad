import LazyLisp.Eval.Step
import LazyLisp.Reader.Program
import LazyLisp.Text.Utf8

/-!
# Sessions

A session evaluates sources one after the other in a global frame and keeps their definitions. A
reset abandons the global frame and the source tree for new ones; frames and values from before it
remain in memory, for closures that a caller still holds. The new tree has a number of its own, so
a report about older code finds no place in newer text.
-/

namespace LazyLisp

/-- The depth allowed where nothing else is asked for. -/
def defaultLimit : Nat := 10000

/-- The state between two sources. -/
structure Session where
  limit : Nat := defaultLimit
  memory : Memory := {}
  global : FrameId := 0
  tree : SourceTree := {}
  /-- The number of the tree after the next reset. -/
  nextTree : UInt32 := 1

/-- What a call on a session gives: a result or a report, and the session after it. -/
abbrev Session.Outcome (α : Type) := Except Diagnostic α × Session

/-- The bindings of a new root frame: every builtin under its name, and the truth values. -/
def rootBindings : List (String × Binding) :=
  Builtin.all.map (fun b => (b.name, .value (.builtin b))) ++
    [("#t", .value (.bool true)), ("#f", .value (.bool false))]

theorem value_of_mem_rootBindings {entry : String × Binding} (h : entry ∈ rootBindings) :
    (∃ b, entry.2 = .value (.builtin b)) ∨ ∃ b, entry.2 = .value (.bool b) := by
  simp only [rootBindings, List.mem_append, List.mem_map, List.mem_cons] at h
  rcases h with ⟨b, -, rfl⟩ | rfl | rfl | nothing
  · exact .inl ⟨b, rfl⟩
  · exact .inr ⟨true, rfl⟩
  · exact .inr ⟨false, rfl⟩
  · cases nothing

/-- Binds everything that a root frame binds in the frame `env`. -/
def EvalM.install (env : FrameId) : EvalM Unit :=
  rootBindings.forM fun (name, b) => EvalM.define env name b

namespace Session

/-- What stays fixed while a source is evaluated. -/
def context (s : Session) : Context := { limit := s.limit, tree := s.tree }

/-- Runs a computation on the memory of a session. -/
def perform {α : Type} (s : Session) (act : EvalM α) : Outcome α :=
  let ⟨limit, memory, global, tree, nextTree⟩ := s
  match act.run memory with
  | .ok a memory => (.ok a, ⟨limit, memory, global, tree, nextTree⟩)
  | .error d memory => (.error d, ⟨limit, memory, global, tree, nextTree⟩)

theorem perform_eq {α : Type} (s : Session) (act : EvalM α) :
    s.perform act =
      match act s.memory with
      | .ok a memory => (.ok a, { s with memory })
      | .error d memory => (.error d, { s with memory }) := rfl

/-- A session with a new root frame and an empty source tree. -/
def new (limit : Nat) : Session :=
  { limit, memory := { store := ({} : Store).push { bindings := rootBindings } } }

/-- Starts over from the builtins. The values shown so far remain. -/
def reset (s : Session) : Session :=
  let ⟨limit, memory, _, _, nextTree⟩ := s
  let ⟨store, closures, output, _⟩ := memory
  let global := store.size
  { limit, global
    memory := ⟨store.push { bindings := rootBindings }, closures, output, 0⟩
    tree := { id := nextTree }
    nextTree := nextTree + 1 }

/-- Reads a source into the session's tree. -/
def read (s : Session) (source : String) : Outcome Value :=
  let ⟨limit, memory, global, tree, nextTree⟩ := s
  match (Reader.readProgram source).run tree with
  | .ok program tree => (.ok program, ⟨limit, memory, global, tree, nextTree⟩)
  | .error d tree => (.error d, ⟨limit, memory, global, tree, nextTree⟩)

theorem read_eq (s : Session) (source : String) :
    s.read source =
      match Reader.readProgram source s.tree with
      | .ok program tree => (.ok program, { s with tree })
      | .error d tree => (.error d, { s with tree }) := rfl

/-- Evaluates an expression in a frame. -/
def eval (s : Session) (e : Value) (env : FrameId) : Outcome Value :=
  s.perform (LazyLisp.eval s.context s.limit e env)

/-- Evaluates the forms of a program in a frame. -/
def evalProgram (s : Session) (program : Value) (env : FrameId) : Outcome Value :=
  s.perform (LazyLisp.evalProgram s.context s.limit program env)

/-- Calls a function with evaluated arguments. -/
def apply (s : Session) (f : Value) (args : List Value) : Outcome Value :=
  s.perform (Eval.apply (LazyLisp.eval s.context s.limit) f args)

/-- Shows a value. -/
def emit (s : Session) (v : Value) : Session :=
  let ⟨limit, memory, global, tree, nextTree⟩ := s
  ⟨limit, memory.emit v, global, tree, nextTree⟩

/-- Forgets the values shown. -/
def clear (s : Session) : Session := { s with memory := { s.memory with output := #[] } }

/-- Evaluates a source in the global frame. -/
def evalSource (s : Session) (source : String) : Outcome Value :=
  match s.read source with
  | (.error d, s) => (.error d, s)
  | (.ok program, s) => s.evalProgram program s.global

theorem evalSource_eq (s : Session) (source : String) :
    s.evalSource source =
      match Reader.readProgram source s.tree with
      | .ok program tree => { s with tree }.evalProgram program s.global
      | .error d tree => (.error d, { s with tree }) := by
  unfold evalSource
  rw [read_eq]
  cases Reader.readProgram source s.tree <;> rfl

/-- Starts over, evaluates a source and shows its value. -/
def run (s : Session) (source : String) : Outcome Value :=
  match s.reset.evalSource source with
  | (.error d, s) => (.error d, s)
  | (.ok v, s) => (.ok v, s.emit v)

/-- Like `run`, for bytes. Bytes that are no text leave the session as it is. -/
def runBytes (s : Session) (bytes : List UInt8) : Outcome Value :=
  match Utf8.decode bytes with
  | .error d => (.error d, s)
  | .ok source => s.run source

/-- The texts of the values shown after the first `count`. -/
def shownAfter (s : Session) (count : Nat) : List String :=
  (s.memory.output.toList.drop count).map Value.display

/-- The texts of the values shown. -/
def shown (s : Session) : List String := s.shownAfter 0

end Session

end LazyLisp
