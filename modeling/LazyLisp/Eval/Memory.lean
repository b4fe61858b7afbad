import LazyLisp.Builtin.Call
import LazyLisp.Scope

/-!
# Memory

What an evaluation reads and changes: the frames, the count of closures made, the values shown so
far and the count of evaluations under way. A computation in `EvalM` that fails leaves the memory as
it was when it failed; nothing is rolled back.
-/

namespace LazyLisp

/-- The state of an evaluation. -/
structure Memory where
  store : Store := {}
  /-- The number that the next closure is made under. -/
  closures : Nat := 0
  /-- The values shown, oldest first. -/
  output : Array Value := #[]
  /-- The number of evaluations under way, each inside the one before. -/
  depth : Nat := 0
  deriving Inhabited

/-- Adds a value to those shown. -/
def Memory.emit (m : Memory) (v : Value) : Memory := { m with output := m.output.push v }

/-- Computations that change the memory and may fail with a report. -/
abbrev EvalM := EStateM Diagnostic Memory

namespace EvalM

/-- Fails; the report has no place yet. -/
def raise {α : Type} (f : Fault) : EvalM α := throw f.diagnostic

/-- A result that needs no memory, or its fault. -/
def ofExcept {α : Type} : Except Fault α → EvalM α
  | .ok a => pure a
  | .error f => raise f

/-- Runs a computation as one more evaluation inside those under way, unless `limit` of them are. It
counts until it ends, with a result or with a failure. -/
def nested {α : Type} (limit : Nat) (act : EvalM α) : EvalM α := fun m =>
  if limit ≤ m.depth then raise (.depth limit) m
  else
    match act { m with depth := m.depth + 1 } with
    | .ok a m => .ok a { m with depth := m.depth - 1 }
    | .error d m => .error d { m with depth := m.depth - 1 }

theorem nested_of_full {α : Type} {limit : Nat} {m : Memory} (h : limit ≤ m.depth)
    (act : EvalM α) : nested limit act m = raise (.depth limit) m := by
  simp [nested, h]

theorem nested_of_ok {α : Type} {limit : Nat} {m m' : Memory} (h : m.depth < limit) {act : EvalM α}
    {a : α} (ended : act { m with depth := m.depth + 1 } = .ok a m') :
    nested limit act m = .ok a { m' with depth := m'.depth - 1 } := by
  simp [nested, Nat.not_le.2 h, ended]

/-- Adds a frame and gives its id. -/
def newFrame (f : Frame) : EvalM FrameId := do
  let id := (← get).store.size
  modify fun m => { m with store := m.store.push f }
  return id

/-- Binds `name` in the frame `env`. -/
def define (env : FrameId) (name : String) (b : Binding) : EvalM Unit :=
  modify fun m => { m with store := m.store.define env name b }

/-- The nearest binding of `name` from `env` outward, not evaluated, and the frame that holds it. -/
def lookup (env : FrameId) (name : String) : EvalM (Binding × FrameId) := do
  match (← get).store.lookup? env name with
  | some found => return found
  | none => raise (.unbound name)

/-- Gives the nearest binding of `name` a new value; never makes a binding. -/
def assign (env : FrameId) (name : String) (v : Value) : EvalM Unit := do
  match (← get).store.owner? env name with
  | some owner => define owner name (.value v)
  | none => raise (.unbound name)

/-- Settles the binding of `name` in the frame `owner` after its expression gave `v`: a deferred
binding takes the value, while a value that was put there in the meantime stays. The result is what
the name now stands for. -/
def force (owner : FrameId) (name : String) (v : Value) : EvalM Value := do
  match (← get).store.binding? owner name with
  | some (.value current) => return current
  | some (.deferred _) =>
    define owner name (.value v)
    return v
  | none => return v

/-- A new function, the same as no other. -/
def newClosure (params : List String) (body : List Value) (env : FrameId) : EvalM Value :=
  modifyGet fun m => (.closure m.closures params body env, { m with closures := m.closures + 1 })

/-- Shows a value. -/
def emit (v : Value) : EvalM Unit := modify fun m => m.emit v

/-- Calls a builtin. A call that fails shows nothing. -/
def callBuiltin (b : Builtin) (args : List Value) : EvalM Value := do
  let v ← ofExcept (b.result args)
  (b.shows args).forM emit
  return v

end EvalM

/-- What evaluation asks of the computations that it is made of. `EvalM` does just this; other
instances may also record what is asked of them. -/
class Effects (M : Type → Type) where
  /-- Fails; the report has no place yet. -/
  raise {α : Type} (f : Fault) : M α
  /-- Changes the report if the computation fails. -/
  reporting {α : Type} (change : Diagnostic → Diagnostic) (act : M α) : M α
  /-- Runs a computation as one more evaluation inside those under way, unless `limit` of them
  are. -/
  nested {α : Type} (limit : Nat) (act : M α) : M α
  /-- The nearest binding of `name` from `env` outward, and the frame that holds it. -/
  lookup (env : FrameId) (name : String) : M (Binding × FrameId)
  /-- Settles the binding of `name` in the frame `owner` after its expression `e` gave `v`. -/
  settle (owner : FrameId) (name : String) (e v : Value) : M Value
  /-- Binds `name` in the frame `env` to the expression `e`, not evaluated. -/
  define (env : FrameId) (name : String) (e : Value) : M Unit
  /-- Gives the nearest binding of `name` a new value. -/
  assign (env : FrameId) (name : String) (v : Value) : M Unit
  /-- Adds a frame and gives its id. -/
  newFrame (f : Frame) : M FrameId
  /-- A new function, the same as no other. -/
  newClosure (params : List String) (body : List Value) (env : FrameId) : M Value
  /-- Calls a builtin. -/
  callBuiltin (b : Builtin) (args : List Value) : M Value

instance : Effects EvalM where
  raise := EvalM.raise
  reporting := EStateM.adaptExcept
  nested := EvalM.nested
  lookup := EvalM.lookup
  settle owner name _ v := EvalM.force owner name v
  define env name e := EvalM.define env name (.deferred e)
  assign := EvalM.assign
  newFrame := EvalM.newFrame
  newClosure := EvalM.newClosure
  callBuiltin := EvalM.callBuiltin

end LazyLisp
