import LazyLisp.Span

/-!
# Source trees

Every list read from a source leaves a node: where it stands, the symbol at its head and the list
around it. Values refer to their node by a `NodeId`; a node is found only in the tree that bears the
id's tree number, so references to an abandoned tree resolve to nothing. Nodes serve reports alone.
-/

namespace LazyLisp

/-- A node's tree number and its position in that tree, which may be any natural number (see
`SourceTree.push`). -/
structure NodeId where
  tree : UInt32
  index : Nat
  deriving DecidableEq, Repr

/-- A list of the source. A list that was never closed keeps the span of its parenthesis. -/
structure Node where
  span : Span
  parent : Option NodeId
  head : Option String := none
  deriving DecidableEq, Repr

/-- The line that names a list in a report; a list not headed by a symbol shows dots. -/
def Node.note (n : Node) : String := "within (" ++ n.head.getD "..." ++ " ...) at " ++ n.span.text

/-- The lists read so far under one tree number, in the order of their opening parentheses. -/
structure SourceTree where
  id : UInt32 := 0
  nodes : Array Node := #[]
  deriving DecidableEq, Repr

namespace SourceTree

/-- The number of lists read. -/
def size (t : SourceTree) : Nat := t.nodes.size

/-- The id that the next list will get. -/
def nextId (t : SourceTree) : NodeId := ⟨t.id, t.size⟩

/-- Adds a list that opens at `span` inside `parent`.

A tree is meant to hold at most `2 ^ 32` lists, as many as positions of 32 bits can tell apart: the
list that opens after those would be refused, with a reading error at `span` that there are `too
many lists in one program`. The check is left out here. The tree takes every list, and what is said
of trees and of reading is meant for programs within the limit. -/
def push (t : SourceTree) (span : Span) (parent : Option NodeId) : SourceTree :=
  { t with nodes := t.nodes.push { span, parent } }

/-- The node of `id`, if this tree recorded it. -/
def get? (t : SourceTree) (id : NodeId) : Option Node :=
  if id.tree = t.id then t.nodes[id.index]? else none

/-- The list around `id`. -/
def parent? (t : SourceTree) (id : NodeId) : Option NodeId := (t.get? id).bind Node.parent

/-- Records where the list of `id` ends and the symbol at its head. -/
def close (t : SourceTree) (id : NodeId) (stop : Nat) (head : Option String) : SourceTree :=
  if id.tree = t.id then
    { t with
      nodes := t.nodes.modify id.index fun n => { n with span := { n.span with stop }, head } }
  else t

@[simp] theorem size_push (t : SourceTree) (span : Span) (parent : Option NodeId) :
    (t.push span parent).size = t.size + 1 := by
  simp [push, size]

theorem nodes_push (t : SourceTree) (span : Span) (parent : Option NodeId) (k : Nat) :
    (t.push span parent).nodes[k]? =
      if k = t.size then some { span, parent } else t.nodes[k]? :=
  Array.getElem?_push

@[simp] theorem id_close (t : SourceTree) (id : NodeId) (stop : Nat) (head : Option String) :
    (t.close id stop head).id = t.id := by
  unfold close
  split <;> rfl

@[simp] theorem size_close (t : SourceTree) (id : NodeId) (stop : Nat) (head : Option String) :
    (t.close id stop head).size = t.size := by
  unfold close
  split <;> simp [size]

theorem nodes_close (t : SourceTree) (i stop : Nat) (head : Option String) (k : Nat) :
    (t.close ⟨t.id, i⟩ stop head).nodes[k]? =
      if i = k then (t.nodes[k]?).map fun n => { n with span := { n.span with stop }, head }
      else t.nodes[k]? := by
  simp [close, Array.getElem?_modify]

/-- The notes for `id` and the lists around it, at most `steps` of them. A list without a parent is
a whole program and gets none. -/
def notesFrom (t : SourceTree) : (steps : Nat) → NodeId → List String
  | 0, _ => []
  | steps + 1, id =>
    match t.get? id with
    | none => []
    | some n =>
      match n.parent with
      | none => []
      | some p => n.note :: t.notesFrom steps p

/-- One note for `id` and for each list around it, innermost first, without the program itself. A
walk that meets no node twice passes at most `size` nodes, which bounds it. -/
def traceback (t : SourceTree) (id : NodeId) : List String := t.notesFrom t.size id

end SourceTree

end LazyLisp
