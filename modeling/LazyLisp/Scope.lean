import LazyLisp.Value.Basic

/-!
# Scopes

A frame binds names and may lie inside a parent frame. A binding holds a value, or an expression
that is evaluated in the binding's own frame when it is first looked up. Frames live in a store and
refer to each other by position; a frame's parent is older than the frame, so its position is
smaller.

`Store.owner?` walks outward from a frame to the nearest one that binds a name; looking up and
assigning both go to that frame. It is where a recursion of their own, from frame to parent, would
take each of them (`Store.Recursion`).
-/

namespace LazyLisp

/-- What a name stands for in a frame. -/
inductive Binding where
  /-- An evaluated value, returned as it is. -/
  | value (v : Value)
  /-- An expression yet to be evaluated in the frame that holds it. -/
  | deferred (e : Value)
  deriving Inhabited

/-- One scope: the scope around it and the names it binds, each once, in the order of their first
definition. -/
structure Frame where
  parent : Option FrameId := none
  bindings : List (String × Binding) := []
  deriving Inhabited

namespace Frame

/-- What the frame binds `name` to. -/
def get? (f : Frame) (name : String) : Option Binding := f.bindings.lookup name

/-- Whether the frame itself binds `name`. -/
def contains (f : Frame) (name : String) : Bool := (f.get? name).isSome

/-- The bindings with `name` bound to `b`, in its old place if it has one. -/
def setIn (name : String) (b : Binding) : List (String × Binding) → List (String × Binding)
  | [] => [(name, b)]
  | (n, old) :: rest => if n = name then (name, b) :: rest else (n, old) :: setIn name b rest

/-- Binds `name`, in place of what it was bound to. -/
def set (f : Frame) (name : String) (b : Binding) : Frame :=
  { f with bindings := setIn name b f.bindings }

/-- Binds `name` unless it is bound already. -/
def setNew (f : Frame) (name : String) (b : Binding) : Frame :=
  if f.contains name then f else f.set name b

theorem lookup_setIn (name other : String) (b : Binding) (l : List (String × Binding)) :
    (setIn name b l).lookup other = if other = name then some b else l.lookup other := by
  induction l with
  | nil => by_cases h : other = name <;> simp [setIn, List.lookup_cons, h, beq_eq_false_iff_ne.2]
  | cons entry rest ih =>
    obtain ⟨n, old⟩ := entry
    by_cases hn : n = name
    · subst hn
      by_cases h : other = n <;> simp [setIn, List.lookup_cons, h, beq_eq_false_iff_ne.2]
    · by_cases h : other = n
      · subst h
        simp [setIn, hn]
      · simp [setIn, hn, List.lookup_cons, h, ih, beq_eq_false_iff_ne.2]

@[simp] theorem get?_set (f : Frame) (name other : String) (b : Binding) :
    (f.set name b).get? other = if other = name then some b else f.get? other :=
  lookup_setIn name other b f.bindings

@[simp] theorem parent_set (f : Frame) (name : String) (b : Binding) :
    (f.set name b).parent = f.parent := rfl

end Frame

/-- Every frame made so far, oldest first. -/
structure Store where
  frames : Array Frame := #[]
  deriving Inhabited

namespace Store

/-- The number of frames made, which is the id of the next one. -/
def size (s : Store) : Nat := s.frames.size

/-- The frame of an id. -/
def get? (s : Store) (id : FrameId) : Option Frame := s.frames[id]?

/-- Adds a frame. Its id is the old `size`. -/
def push (s : Store) (f : Frame) : Store := ⟨s.frames.push f⟩

/-- Changes one frame. -/
def modify (s : Store) (id : FrameId) (change : Frame → Frame) : Store :=
  ⟨s.frames.modify id change⟩

/-- What the frame `id` itself binds `name` to. -/
def binding? (s : Store) (id : FrameId) (name : String) : Option Binding :=
  (s.get? id).bind fun f => f.get? name

/-- Binds `name` in the frame `id` itself. -/
def define (s : Store) (id : FrameId) (name : String) (b : Binding) : Store :=
  s.modify id fun f => f.set name b

/-- The nearest frame that binds `name`, from `id` outward and at most `steps` frames away. -/
def ownerWithin (s : Store) (name : String) : (steps : Nat) → FrameId → Option FrameId
  | 0, _ => none
  | steps + 1, id =>
    match s.get? id with
    | none => none
    | some f =>
      if f.contains name then some id
      else
        match f.parent with
        | none => none
        | some p => s.ownerWithin name steps p

/-- The nearest frame that binds `name`, from `id` outward. A walk that meets no frame twice passes
at most `size` frames, which bounds it. -/
def owner? (s : Store) (id : FrameId) (name : String) : Option FrameId :=
  s.ownerWithin name s.size id

/-- The nearest binding of `name`, from `id` outward, and the frame that holds it. -/
def lookup? (s : Store) (id : FrameId) (name : String) : Option (Binding × FrameId) := do
  let owner ← s.owner? id name
  return (← s.binding? owner name, owner)

@[simp] theorem get?_push_fresh (s : Store) (f : Frame) : (s.push f).get? s.size = some f := by
  simp [push, get?, size]

theorem get?_push_old (s : Store) (f : Frame) {id : FrameId} (h : id < s.size) :
    (s.push f).get? id = s.get? id := by
  simp only [push, get?, size] at *
  rw [Array.getElem?_push_lt h, Array.getElem?_eq_getElem h]

theorem get?_push (s : Store) (f : Frame) (id : FrameId) :
    (s.push f).get? id = if id = s.size then some f else s.get? id :=
  Array.getElem?_push

@[simp] theorem size_push (s : Store) (f : Frame) : (s.push f).size = s.size + 1 := by
  simp [push, size]

@[simp] theorem size_modify (s : Store) (id : FrameId) (change : Frame → Frame) :
    (s.modify id change).size = s.size := by
  simp [modify, size]

@[simp] theorem get?_modify (s : Store) (id other : FrameId) (change : Frame → Frame) :
    (s.modify id change).get? other =
      if id = other then (s.get? other).map change else s.get? other := by
  simp [modify, get?, Array.getElem?_modify]

end Store

end LazyLisp
