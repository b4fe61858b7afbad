import LazyLisp.Proofs.StaleNodes

/-!
# Tracebacks that end

A traceback goes from a list to the list around it until there is none. Nothing about the walk
itself bounds it. It ends because the list around a list was there before it, so that indices fall
on the way outward; `SourceTree.traceback` relies on this when it takes no more steps than there are
nodes, and `Outward` is the walk without that bound.

A list can be pushed inside any node whose id is at hand, be it that of another tree. If the other
tree has another number, the id is unknown here and the walk ends there. But nothing keeps two trees
from having the same number. Then the id names a node of this tree, perhaps the very one that is
being pushed, and the walk may go round for ever. So what is proved is about trees into which no
list is pushed inside an id that has the tree's number but came from another tree.
-/

namespace LazyLisp

/-! ## The walk outward -/

namespace SourceTree

/-- The walk from `id` outward, as far as it goes, ends and gives these notes: it stops at an id
that the tree does not know, and at a list with no list around it. -/
inductive Outward (t : SourceTree) : NodeId → List String → Prop
  | unknown {id : NodeId} : t.get? id = none → Outward t id []
  | program {id : NodeId} {n : Node} : t.get? id = some n → n.parent = none → Outward t id []
  | inside {id p : NodeId} {n : Node} {notes : List String} :
    t.get? id = some n → n.parent = some p → Outward t p notes → Outward t id (n.note :: notes)

/-- The id that is reached from `id` by so many steps outward. -/
def ancestor? (t : SourceTree) : (steps : Nat) → NodeId → Option NodeId
  | 0, id => some id
  | steps + 1, id => (t.parent? id).bind (t.ancestor? steps)

/-- A list around a list is an earlier one, unless it is of a tree with another number. -/
def Falling (t : SourceTree) : Prop :=
  ∀ (k : Nat) (n : Node) (p : NodeId), t.nodes[k]? = some n → n.parent = some p → p.tree = t.id →
    p.index < k

variable {t : SourceTree} {id p : NodeId}

theorem ancestor?_add (i j : Nat) (id : NodeId) :
    t.ancestor? (i + j) id = (t.ancestor? i id).bind (t.ancestor? j) := by
  induction i generalizing id with
  | zero => simp [ancestor?]
  | succ i ih =>
    rw [Nat.succ_add, ancestor?, ancestor?, Option.bind_assoc]
    exact Option.bind_congr fun p _ => ih p

/-- A walk goes on only from a node of the tree. -/
theorem tree_of_ancestor? {steps : Nat} (walked : t.ancestor? (steps + 1) id = some p) :
    id.tree = t.id := by
  obtain ⟨_, step, -⟩ := Option.bind_eq_some_iff.1 walked
  obtain ⟨n, found, -⟩ := Option.bind_eq_some_iff.1 step
  exact (get?_eq_some_iff.1 found).1

/-- A list that lies in itself is met at every step. -/
theorem ancestor?_of_parent?_self (round : t.parent? id = some id) (steps : Nat) :
    t.ancestor? steps id = some id := by
  induction steps with
  | zero => rfl
  | succ steps ih => rw [ancestor?, round, Option.bind_some, ih]

/-- The walk from a list that lies in itself does not end. -/
theorem not_outward_of_parent?_self (round : t.parent? id = some id) (notes : List String) :
    ¬ t.Outward id notes := by
  intro h
  induction h with
  | unknown absent => simp [parent?, absent] at round
  | program found outermost => simp [parent?, found, outermost] at round
  | @inside id p n notes found around _ ih =>
    obtain rfl : p = id := by simpa [parent?, found, around] using round
    exact ih round

/-! ## Indices fall on the way outward -/

namespace Falling

theorem index_lt (h : t.Falling) (step : t.parent? id = some p) (own : p.tree = t.id) :
    p.index < id.index := by
  obtain ⟨n, found, around⟩ := Option.bind_eq_some_iff.1 step
  exact h id.index n p (get?_eq_some_iff.1 found).2 around own

/-- Any number of steps lead to an earlier node, or out of the tree. -/
theorem index_ancestor?_lt (h : t.Falling) {steps : Nat}
    (walked : t.ancestor? (steps + 1) id = some p) (own : p.tree = t.id) : p.index < id.index := by
  induction steps generalizing id with
  | zero =>
    obtain ⟨q, step, here⟩ := Option.bind_eq_some_iff.1 walked
    obtain rfl := Option.some.inj here
    exact h.index_lt step own
  | succ steps ih =>
    obtain ⟨q, step, rest⟩ := Option.bind_eq_some_iff.1 walked
    have first : q.index < id.index := h.index_lt step (tree_of_ancestor? rest)
    have further : p.index < q.index := ih rest
    omega

/-- No id is met again. -/
theorem ancestor?_ne (h : t.Falling) {i j : Nat} (lt : i < j) {a : NodeId}
    (met : t.ancestor? i id = some a) : t.ancestor? j id ≠ some a := by
  intro again
  obtain ⟨steps, rfl⟩ : ∃ steps, j = i + (steps + 1) := ⟨j - i - 1, by omega⟩
  rw [ancestor?_add, met, Option.bind_some] at again
  have falls : a.index < a.index := h.index_ancestor?_lt again (tree_of_ancestor? again)
  omega

/-- The walk ends, and passes no more nodes than the index of the first one allows. -/
theorem exists_outward (h : t.Falling) (id : NodeId) :
    ∃ notes, t.Outward id notes ∧ notes.length ≤ id.index + 1 ∧ notes.length ≤ t.size := by
  -- the list around `id` has a smaller index, or it is not in the tree
  induction k : id.index using Nat.strongRecOn generalizing id with
  | ind k ih =>
    subst k
    cases found : t.get? id with
    | none => exact ⟨[], .unknown found, by simp, by simp⟩
    | some n =>
      have present := index_lt_of_get? found
      cases around : n.parent with
      | none => exact ⟨[], .program found around, by simp, by simp⟩
      | some p =>
        by_cases own : p.tree = t.id
        · have earlier := h _ n p (get?_eq_some_iff.1 found).2 around own
          obtain ⟨notes, walk, short, -⟩ := ih p.index earlier p rfl
          refine ⟨n.note :: notes, .inside found around walk, ?_, ?_⟩
          · rw [List.length_cons]
            omega
          · rw [List.length_cons]
            omega
        · have absent : t.get? p = none := if_neg own
          have one : [n.note].length = 1 := rfl
          exact ⟨[n.note], .inside found around (.unknown absent), by omega, by omega⟩

end Falling

/-- So many steps are enough to come to the end of a walk. -/
theorem Outward.notesFrom_eq {notes : List String} (h : t.Outward id notes) {steps : Nat}
    (enough : notes.length ≤ steps) : t.notesFrom steps id = notes := by
  induction h generalizing steps with
  | unknown absent => cases steps <;> simp [notesFrom, absent]
  | program found outermost => cases steps <;> simp [notesFrom, found, outermost]
  | inside found around _ ih =>
    rw [List.length_cons] at enough
    obtain ⟨steps, rfl⟩ : ∃ k, steps = k + 1 := ⟨steps - 1, by omega⟩
    simp [notesFrom, found, around, ih (Nat.le_of_succ_le_succ enough)]

/-! ## What keeps indices falling -/

theorem falling_new (number : UInt32) : Falling { id := number } := by
  intro k n p found
  simp at found

theorem Falling.push (h : t.Falling) (span : Span) {parent : Option NodeId}
    (earlier : ∀ p ∈ parent, p.tree = t.id → p.index < t.size) :
    (t.push span parent).Falling := by
  intro k n p found around own
  rw [nodes_push] at found
  split at found
  · next last =>
    obtain rfl := Option.some.inj found
    rw [last]
    exact earlier p around own
  · exact h k n p found around own

theorem Falling.treeAfter (h : t.Falling) (source : String) :
    (Reader.treeAfter t source).Falling := by
  intro k n p found around own
  rw [(t.extends_treeAfter source).id] at own
  rcases Reader.parent_treeAfter found around with old | new
  · exact h k n p old around own
  · exact new.2

end SourceTree

/-! ## Trees side by side -/

/-- The ids of the lists of a source, if it can be read into the tree. -/
def Reader.idsOf (t : SourceTree) (source : String) : List NodeId :=
  match readProgram source t with
  | .ok program _ => program.origins.filterMap id
  | .error _ _ => []

theorem Reader.index_lt_of_mem_idsOf {t : SourceTree} {source : String} {p : NodeId}
    (member : p ∈ idsOf t source) : p.index < (treeAfter t source).size := by
  unfold idsOf at member
  cases read : readProgram source t with
  | error d t' => simp [read] at member
  | ok program t' =>
    have after : treeAfter t source = t' := by rw [treeAfter, read]
    have grown : t.size ≤ t'.size := after ▸ (t.extends_treeAfter source).size
    simp only [read, (accepted_of_readProgram read).origins, List.filterMap_map, List.mem_filterMap,
      Function.comp_apply, Option.some.injEq, id_eq] at member
    obtain ⟨k, inside, rfl⟩ := member
    have range := List.mem_range'_1.1 inside
    rw [after]
    show k < t'.size
    omega

/-- Trees, and the ids that they returned so far, each with the position of its tree. -/
structure Forest where
  trees : List SourceTree := []
  returned : List (Nat × NodeId) := []

namespace Forest

/-- The tree at position `k` has become `t` and has returned these ids. -/
def put (f : Forest) (k : Nat) (t : SourceTree) (ids : List NodeId) : Forest :=
  ⟨f.trees.set k t, ids.map (k, ·) ++ f.returned⟩

/-- What can be made from nothing: trees with any numbers are created, lists are pushed, sources are
read, and trees are asked for the list around a list. A list is pushed into the tree at `k` inside
the node `p` only if `mayHold f k p`. -/
inductive Made (mayHold : Forest → Nat → NodeId → Prop) : Forest → Prop
  | empty : Made mayHold {}
  | create {f : Forest} (number : UInt32) :
    Made mayHold f → Made mayHold { f with trees := f.trees ++ [{ id := number }] }
  | push {f : Forest} {k : Nat} {t : SourceTree} (span : Span) (parent : Option NodeId) :
    Made mayHold f → f.trees[k]? = some t → (∀ p ∈ parent, mayHold f k p) →
      Made mayHold (f.put k (t.push span parent) [t.nextId])
  | read {f : Forest} {k : Nat} {t : SourceTree} (source : String) :
    Made mayHold f → f.trees[k]? = some t →
      Made mayHold (f.put k (Reader.treeAfter t source) (Reader.idsOf t source))
  | ask {f : Forest} {k : Nat} {t : SourceTree} {id p : NodeId} :
    Made mayHold f → f.trees[k]? = some t → t.parent? id = some p → Made mayHold (f.put k t [p])

/-- Some tree returned the id. -/
def Returned (f : Forest) (_ : Nat) (p : NodeId) : Prop := ∃ i, (i, p) ∈ f.returned

/-- Some tree returned the id. If it bears the number of the tree at `k` and is to hold a list of
that tree, that tree did. -/
def ReturnedThere (k : Nat) (f : Forest) (j : Nat) (p : NodeId) : Prop :=
  f.Returned j p ∧ (j = k → (f.trees[k]?).map SourceTree.id = some p.tree → (k, p) ∈ f.returned)

/-- The later tree continues the earlier one, indices fall in it, and the ids are known in it unless
they are of a tree with another number. -/
structure Continued (t t' : SourceTree) (ids : List NodeId) : Prop where
  id : t'.id = t.id
  size : t.size ≤ t'.size
  falling : t'.Falling
  known : ∀ p ∈ ids, p.tree = t.id → p.index < t'.size

/-- Indices fall in the tree at `k`, and it knows the ids that it returned. -/
structure Sound (k : Nat) (f : Forest) : Prop where
  placed : ∀ i p, (i, p) ∈ f.returned → i < f.trees.length
  falling : ∀ t, f.trees[k]? = some t → t.Falling
  known : ∀ t p, f.trees[k]? = some t → (k, p) ∈ f.returned → p.tree = t.id → p.index < t.size

variable {f : Forest} {j k : Nat} {t t' : SourceTree} {ids : List NodeId}

@[simp] theorem length_trees_put : (f.put j t' ids).trees.length = f.trees.length :=
  List.length_set

theorem trees_put (present : j < f.trees.length) :
    (f.put j t' ids).trees[k]? = if j = k then some t' else f.trees[k]? := by
  show (f.trees.set j t')[k]? = _
  rw [List.getElem?_set, if_pos present]

theorem mem_returned_put {i : Nat} {p : NodeId} :
    (i, p) ∈ (f.put j t' ids).returned ↔ i = j ∧ p ∈ ids ∨ (i, p) ∈ f.returned := by
  simp [put, and_comm, eq_comm]

theorem continued_push (h : t.Falling) (span : Span) {parent : Option NodeId}
    (earlier : ∀ p ∈ parent, p.tree = t.id → p.index < t.size) :
    Continued t (t.push span parent) [t.nextId] where
  id := rfl
  size := by simp
  falling := h.push span earlier
  known := by simp [SourceTree.nextId]

theorem continued_read (h : t.Falling) (source : String) :
    Continued t (Reader.treeAfter t source) (Reader.idsOf t source) where
  id := (t.extends_treeAfter source).id
  size := (t.extends_treeAfter source).size
  falling := h.treeAfter source
  known := fun _ member _ => Reader.index_lt_of_mem_idsOf member

theorem continued_ask (h : t.Falling) {id p : NodeId} (step : t.parent? id = some p) :
    Continued t t [p] where
  id := rfl
  size := Nat.le_refl _
  falling := h
  known := by
    intro q member own
    obtain rfl := List.mem_singleton.1 member
    obtain ⟨n, found, -⟩ := Option.bind_eq_some_iff.1 step
    have falls := h.index_lt step own
    have present := SourceTree.index_lt_of_get? found
    omega

namespace Sound

theorem create (h : Sound k f) (number : UInt32) :
    Sound k { f with trees := f.trees ++ [{ id := number }] } where
  placed := by
    intro i p member
    have lt := h.placed i p member
    rw [List.length_append]
    omega
  falling := by
    intro t here
    rcases Nat.lt_or_ge k f.trees.length with old | new
    · exact h.falling t ((List.getElem?_append_left old).symm.trans here)
    · rw [List.getElem?_append_right new] at here
      obtain rfl := List.mem_singleton.1 (List.mem_of_getElem? here)
      exact SourceTree.falling_new number
  known := by
    intro t p here member own
    have old := h.placed k p member
    exact h.known t p ((List.getElem?_append_left old).symm.trans here) member own

/-- What is done to a tree leaves the others alone. -/
theorem put (h : Sound k f) (there : f.trees[j]? = some t)
    (continued : j = k → Continued t t' ids) : Sound k (f.put j t' ids) := by
  have present : j < f.trees.length := (List.getElem?_eq_some_iff.1 there).1
  refine ⟨?_, ?_, ?_⟩
  · intro i p member
    rw [length_trees_put]
    rcases mem_returned_put.1 member with ⟨rfl, -⟩ | old
    · exact present
    · exact h.placed i p old
  · intro u here
    rw [trees_put present] at here
    split at here
    · next same =>
      obtain rfl := Option.some.inj here
      exact (continued same).falling
    · exact h.falling u here
  · intro u p here member own
    rw [trees_put present] at here
    split at here
    · next same =>
      obtain rfl := Option.some.inj here
      have later := continued same
      rw [later.id] at own
      subst same
      rcases mem_returned_put.1 member with ⟨-, new⟩ | old
      · exact later.known p new own
      · exact Nat.lt_of_lt_of_le (h.known t p there old own) later.size
    · next other =>
      rcases mem_returned_put.1 member with ⟨same, -⟩ | old
      · exact absurd same.symm other
      · exact h.known u p here old own

end Sound

theorem Made.sound (h : Made (ReturnedThere k) f) : Sound k f := by
  induction h with
  | empty => exact ⟨nofun, nofun, nofun⟩
  | create number _ ih => exact ih.create number
  | @push f j t span parent _ there holds ih =>
    refine ih.put there ?_
    rintro rfl
    refine continued_push (ih.falling t there) span ?_
    intro p inside own
    have asked : (f.trees[j]?).map SourceTree.id = some p.tree := by rw [there, own]; rfl
    exact ih.known t p there ((holds p inside).2 rfl asked) own
  | @read f j t source _ there ih =>
    refine ih.put there ?_
    rintro rfl
    exact continued_read (ih.falling t there) source
  | @ask f j t id p _ there step ih =>
    refine ih.put there ?_
    rintro rfl
    exact continued_ask (ih.falling t there) step

/-- **Tracebacks end.** Trees with any numbers are created, sources are read into them, and lists
are pushed into them, inside no list or inside any node whose id one of the trees returned. Take a
tree into which no list was pushed inside an id that has the tree's number but came from another
tree. Going outward in it from any id, no id is met twice. So the walk ends, and a traceback is all
that the walk gives, with no more notes than the tree has nodes. -/
theorem tracebacks_end {k : Nat} {f : Forest} (made : Made (ReturnedThere k) f) {t : SourceTree}
    (here : f.trees[k]? = some t) (id : NodeId) :
    (∀ i j a, i < j → t.ancestor? i id = some a → t.ancestor? j id ≠ some a) ∧
      ∃ notes, t.Outward id notes ∧ notes.length ≤ t.size ∧ t.traceback id = notes := by
  have falling := made.sound.falling t here
  obtain ⟨notes, walk, -, short⟩ := falling.exists_outward id
  exact ⟨fun i j a lt met => falling.ancestor?_ne lt met, notes, walk, short,
    walk.notesFrom_eq short⟩

/-- The second of two trees with the number 0 holds a list that lies in a node of the third tree,
which has the number 5, and another list inside that one. -/
theorem tracebacks_end_foreign :
    let t : SourceTree := ⟨0, #[⟨⟨0, 9⟩, some ⟨5, 0⟩, none⟩, ⟨⟨1, 8⟩, some ⟨0, 0⟩, none⟩]⟩
    let f : Forest :=
      ⟨[⟨0, #[⟨⟨0, 4⟩, none, none⟩]⟩, t, ⟨5, #[⟨⟨0, 7⟩, none, none⟩]⟩],
        [(1, ⟨0, 1⟩), (1, ⟨0, 0⟩), (2, ⟨5, 0⟩), (0, ⟨0, 0⟩)]⟩
    Made (ReturnedThere 1) f ∧ f.trees[1]? = some t ∧
      (∀ i j a, i < j → t.ancestor? i ⟨0, 1⟩ = some a → t.ancestor? j ⟨0, 1⟩ ≠ some a) ∧
      ∃ notes, t.Outward ⟨0, 1⟩ notes ∧ notes.length ≤ t.size ∧ t.traceback ⟨0, 1⟩ = notes := by
  intro t f
  have three : Made (ReturnedThere 1) ⟨[{ id := 0 }, { id := 0 }, { id := 5 }], []⟩ :=
    .create 5 (.create 0 (.create 0 .empty))
  have roots := (three.push (k := 0) ⟨0, 4⟩ none rfl nofun).push (k := 2) ⟨0, 7⟩ none rfl nofun
  have foreign := roots.push (k := 1) ⟨0, 9⟩ (some ⟨5, 0⟩) rfl (by
    rintro p ⟨⟩
    exact ⟨⟨2, by decide⟩, fun _ own => absurd own (by decide)⟩)
  have made : Made (ReturnedThere 1) f := foreign.push (k := 1) ⟨1, 8⟩ (some ⟨0, 0⟩) rfl (by
    rintro p ⟨⟩
    exact ⟨⟨1, by decide⟩, fun _ _ => by decide⟩)
  exact ⟨made, rfl, tracebacks_end made rfl ⟨0, 1⟩⟩

/-- Of two trees with the same number, the first one returns an id, and the first list of the second
tree is pushed inside it. The id names that list itself, so the walk outward meets it at every step
and does not end. -/
theorem shared_number_goes_round :
    let t : SourceTree := ⟨0, #[⟨⟨3, 5⟩, some ⟨0, 0⟩, none⟩]⟩
    let f : Forest := ⟨[⟨0, #[⟨⟨0, 9⟩, none, none⟩]⟩, t], [(1, ⟨0, 0⟩), (0, ⟨0, 0⟩)]⟩
    Made Returned f ∧ f.trees[1]? = some t ∧ (∀ steps, t.ancestor? steps ⟨0, 0⟩ = some ⟨0, 0⟩) ∧
      ∀ notes, ¬ t.Outward ⟨0, 0⟩ notes := by
  intro t f
  have two : Made Returned ⟨[{ id := 0 }, { id := 0 }], []⟩ := .create 0 (.create 0 .empty)
  have root := two.push (k := 0) ⟨0, 9⟩ none rfl nofun
  have made : Made Returned f := root.push (k := 1) ⟨3, 5⟩ (some ⟨0, 0⟩) rfl (by
    rintro p ⟨⟩
    exact ⟨0, by decide⟩)
  have round : t.parent? ⟨0, 0⟩ = some ⟨0, 0⟩ := rfl
  exact ⟨made, rfl, SourceTree.ancestor?_of_parent?_self round,
    SourceTree.not_outward_of_parent?_self round⟩

end Forest

end LazyLisp
