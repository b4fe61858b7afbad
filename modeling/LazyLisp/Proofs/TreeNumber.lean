import LazyLisp.Eval.Step

/-!
# Source trees under another number

A source read twice, into trees of different numbers, leaves the same nodes up to those numbers.
Moving a tree and all ids in it by `k` numbers commutes with everything that reading does to a
tree, and a report is placed in the moved tree exactly as in the one it came from. Numbers wrap
around, but moving them by `k` stays one to one.
-/

namespace LazyLisp

/-- The same position in the tree `k` numbers further on. -/
def NodeId.moved (k : UInt32) (id : NodeId) : NodeId := { id with tree := id.tree + k }

/-- The same list, inside the same one `k` trees further on. -/
def Node.moved (k : UInt32) (n : Node) : Node := { n with parent := n.parent.map (.moved k) }

/-- The same nodes, `k` numbers further on. -/
def SourceTree.moved (k : UInt32) (t : SourceTree) : SourceTree where
  id := t.id + k
  nodes := t.nodes.map (.moved k)

namespace SourceTree

variable (k : UInt32) (t : SourceTree)

@[simp] theorem size_moved : (t.moved k).size = t.size := by
  simp [moved, size]

theorem nextId_moved : (t.moved k).nextId = t.nextId.moved k := by
  rw [nextId, nextId, size_moved]
  rfl

theorem push_moved (span : Span) (parent : Option NodeId) :
    (t.moved k).push span (parent.map (.moved k)) = (t.push span parent).moved k := by
  simp [moved, push, Node.moved]

theorem moved_tree_eq_iff (id : NodeId) : (id.moved k).tree = (t.moved k).id ↔ id.tree = t.id :=
  UInt32.add_left_inj k

theorem close_moved (id : NodeId) (stop : Nat) (head : Option String) :
    (t.moved k).close (id.moved k) stop head = (t.close id stop head).moved k := by
  unfold close
  simp only [moved_tree_eq_iff]
  split
  · have nodes : (t.moved k).nodes.modify (id.moved k).index
        (fun n => { n with span := { n.span with stop }, head }) =
      (t.nodes.modify id.index fun n => { n with span := { n.span with stop }, head }).map
        (.moved k) := by
      apply Array.ext_getElem?
      intro i
      simp only [moved, NodeId.moved, Array.getElem?_modify, Array.getElem?_map]
      split
      · cases t.nodes[i]? <;> rfl
      · rfl
    simp only [nodes]
    rfl
  · rfl

theorem get?_moved (id : NodeId) : (t.moved k).get? (id.moved k) = (t.get? id).map (.moved k) := by
  unfold get?
  simp only [moved_tree_eq_iff]
  split
  · simp [moved, NodeId.moved]
  · rfl

theorem notesFrom_moved (steps : Nat) (id : NodeId) :
    (t.moved k).notesFrom steps (id.moved k) = t.notesFrom steps id := by
  induction steps generalizing id with
  | zero => rfl
  | succ steps ih =>
    simp only [notesFrom, get?_moved]
    cases t.get? id with
    | none => rfl
    | some n =>
      obtain ⟨span, parent, head⟩ := n
      cases parent with
      | none => rfl
      | some p => simp only [Option.map_some, Node.moved, ih p, Node.note]

theorem traceback_moved (id : NodeId) :
    (t.moved k).traceback (id.moved k) = t.traceback id := by
  simp [traceback, notesFrom_moved]

end SourceTree

/-- A report about moved code is placed in the moved tree as it was in the old one. -/
theorem Context.annotate_moved (k : UInt32) (c : Context) (origin : Option NodeId)
    (d : Diagnostic) :
    { c with tree := c.tree.moved k }.annotate (origin.map (.moved k)) d = c.annotate origin d := by
  unfold Context.annotate
  cases d.span with
  | some span => rfl
  | none =>
    cases origin with
    | none => rfl
    | some id =>
      simp only [Option.map_some, Option.bind_some, SourceTree.get?_moved]
      cases c.tree.get? id with
      | none => rfl
      | some n => simp [SourceTree.traceback_moved, Node.moved]

end LazyLisp
