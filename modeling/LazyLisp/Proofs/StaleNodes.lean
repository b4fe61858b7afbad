import LazyLisp.Proofs.Calls
import LazyLisp.Proofs.Confinement
import LazyLisp.Proofs.Provenance

/-!
# A node is never taken for another

Lists outlive the tree that describes them: a reset starts a new tree, whose indices begin again
from zero, while functions made before it may still be called. What tells the trees apart is their
number. As long as the numbers do not repeat, the origin of a list leads in the session's current
tree to nothing, or to the node that the list got when it was read.

The invariant of a session counts the resets: the current tree has the number of the last one, a
tree that a source was read into has the number of an earlier one or is continued by the current
tree, and everything that frames and returned values hold was computed from the sources.
-/

namespace LazyLisp

/-! ## Trees that grow -/

/-- The later tree has all nodes of the earlier one, and its number. -/
structure SourceTree.Extends (t t' : SourceTree) : Prop where
  id : t'.id = t.id
  size : t.size ≤ t'.size
  nodes : ∀ k < t.size, t'.nodes[k]? = t.nodes[k]?

namespace SourceTree

variable {t t' t'' : SourceTree} {id : NodeId} {n : Node}

theorem Extends.refl (t : SourceTree) : t.Extends t := ⟨rfl, Nat.le_refl _, fun _ _ => rfl⟩

theorem Extends.trans (h : t.Extends t') (h' : t'.Extends t'') : t.Extends t'' where
  id := h'.id.trans h.id
  size := Nat.le_trans h.size h'.size
  nodes := by
    intro k lt
    rw [h'.nodes k (Nat.lt_of_lt_of_le lt h.size), h.nodes k lt]

/-- A source leaves the nodes of those before it alone, also if it cannot be read. -/
theorem extends_treeAfter (t : SourceTree) (text : String) :
    t.Extends (Reader.treeAfter t text) := by
  have grown := Reader.grown_treeAfter t text
  have rooted : (Reader.rooted (tokenize text) text.utf8ByteSize t).size = t.size + 1 :=
    size_push ..
  have size := grown.size
  exact ⟨grown.id, by omega, fun k lt => grown.nodes_old lt⟩

theorem get?_eq_some_iff : t.get? id = some n ↔ id.tree = t.id ∧ t.nodes[id.index]? = some n := by
  simp [get?]

theorem index_lt_of_get? (found : t.get? id = some n) : id.index < t.size :=
  (Array.getElem?_eq_some_iff.1 (get?_eq_some_iff.1 found).2).1

theorem Extends.get? (h : t.Extends t') (found : t.get? id = some n) : t'.get? id = some n := by
  obtain ⟨number, node⟩ := get?_eq_some_iff.1 found
  refine get?_eq_some_iff.2 ⟨number.trans h.id.symm, ?_⟩
  rw [h.nodes _ (index_lt_of_get? found), node]

/-- Going outward, the index falls. So nodes that were added later are not met, and any number of
steps above the index is enough. -/
theorem Extends.notesFrom (h : t.Extends t') (ordered : Reader.Ordered t)
    (found : t.get? id = some n) {steps steps' : Nat} (enough : id.index < steps)
    (enough' : id.index < steps') : t'.notesFrom steps' id = t.notesFrom steps id := by
  induction steps generalizing id n steps' with
  | zero => omega
  | succ steps ih =>
    obtain ⟨steps', rfl⟩ : ∃ k, steps' = k + 1 := ⟨steps' - 1, by omega⟩
    simp only [SourceTree.notesFrom, found, h.get? found]
    cases inside : n.parent with
    | none => rfl
    | some p =>
      obtain ⟨number, earlier⟩ := ordered _ n p (get?_eq_some_iff.1 found).2 inside
      have present : p.index < t.nodes.size := Nat.lt_trans earlier (index_lt_of_get? found)
      have node : t.get? p = some t.nodes[p.index] :=
        get?_eq_some_iff.2 ⟨number, Array.getElem?_eq_getElem present⟩
      show n.note :: t'.notesFrom steps' p = n.note :: t.notesFrom steps p
      rw [ih node (by omega) (by omega)]

theorem Extends.traceback (h : t.Extends t') (ordered : Reader.Ordered t)
    (found : t.get? id = some n) : t'.traceback id = t.traceback id := by
  have lt := index_lt_of_get? found
  have size := h.size
  exact h.notesFrom ordered found lt (by omega)

end SourceTree

/-- The tree knows nothing of `id`, or the node that the source recorded, with the same notes. -/
def Source.Resolves (src : Source) (tree : SourceTree) (id : NodeId) : Prop :=
  ∃ n, src.tree.get? id = some n ∧
    (tree.get? id = none ∨ tree.get? id = some n ∧ tree.traceback id = src.tree.traceback id)

/-- A value that was computed is no code, so unless it is a symbol it evaluates to itself. -/
theorem Eval.step_of_derived {sources : List Source} {v : Value} (derived : Derived sources v)
    (compound : ¬ v.isAtom = true) {c : Context} {ev : Evaluator} {env : FrameId} :
    step c ev v env = pure v := by
  cases v with
  | list items tag origin =>
    cases tag with
    | code => exact absurd rfl derived.tag_ne
    | _ => rfl
  | closure id params body env => rfl
  | _ => exact absurd rfl compound

/-- A value that was computed is an atom, or evaluates to itself. -/
theorem Derived.keeps_eval {sources : List Source} {v : Value} (h : Derived sources v)
    (m₀ : Memory) (c : Context) (bound : Nat) (env : FrameId) :
    Keeps ((Domain.ofSources sources).Inv m₀) (Derived sources) (eval c bound v env) := by
  by_cases atom : v.isAtom = true
  · exact Domain.keeps_eval _ m₀ c bound (.inr atom) trivial
  · cases bound with
    | zero => exact Domain.keeps_raise _
    | succ bound =>
      refine Domain.keeps_nested c.limit ?_
      rw [Eval.step_of_derived h atom]
      exact .pure h

theorem Source.exists_forms (src : Source) {sources : List Source} (known : src ∈ sources) :
    ∃ forms origin, src.program = .list forms .code origin ∧
      ∀ e ∈ forms, WrittenIn sources e := by
  obtain ⟨forms, program, -⟩ := src.accepted.recorded
  refine ⟨forms, _, program, fun e member => ⟨src, known, ?_⟩⟩
  rw [program]
  exact Nested.program.partOf member

/-- The forms of a source that was read are written in it. -/
theorem Source.keeps_evalProgram (src : Source) {sources : List Source} (known : src ∈ sources)
    (m₀ : Memory) (c : Context) (bound : Nat) (env : FrameId) :
    Keeps ((Domain.ofSources sources).Inv m₀) (Derived sources)
      (evalProgram c bound src.program env) := by
  obtain ⟨forms, origin, program, written⟩ := src.exists_forms known
  rw [program]
  refine Keeps.foldlM (.atom rfl) fun _ _ e member => ?_
  exact Domain.keeps_eval _ m₀ c bound (.inl (written e member)) trivial

/-! ## Reports -/

/-- The report has neither place nor notes, or those of one of the lists: the place and the notes
that were recorded for it when its source was read. -/
def Blames (sources : List Source) (lists : List Value) (d : Diagnostic) : Prop :=
  d.span = none ∧ d.notes = [] ∨
    ∃ l ∈ lists, ∃ src ∈ sources, ∃ place around id n, Nested src.program (place :: around) ∧
      WrittenAs l place ∧ place.origin? = some id ∧ src.tree.get? id = some n ∧
      d.span = some n.span ∧ d.notes = src.tree.traceback id

/-- A fault stays without a place, or one of the lists gives it its own. -/
theorem Context.foldl_place_cases (c : Context) (f : Fault) (lists : List Value) :
    lists.foldl c.place f.diagnostic = f.diagnostic ∨
      ∃ l ∈ lists, ∃ id n, l.origin? = some id ∧ c.tree.get? id = some n ∧
        (lists.foldl c.place f.diagnostic).span = some n.span ∧
        (lists.foldl c.place f.diagnostic).notes = c.tree.traceback id := by
  induction lists with
  | nil => exact .inl rfl
  | cons l lists ih =>
    cases found : l.origin?.bind c.tree.get? with
    | some n =>
      obtain ⟨id, origin, node⟩ := Option.bind_eq_some_iff.1 found
      obtain ⟨span, notes⟩ := c.foldl_place_cons f origin node lists
      exact .inr ⟨l, List.mem_cons_self, id, n, origin, node, span, notes⟩
    | none =>
      have same : c.place f.diagnostic l = f.diagnostic := by
        cases l with
        | list items tag origin =>
          cases origin with
          | none => rfl
          | some id =>
            have unknown : c.tree.get? id = none := found
            simp [Context.place, Context.annotate, unknown]
        | _ => rfl
      rw [List.foldl_cons, same]
      refine ih.imp_right ?_
      rintro ⟨l', member, rest⟩
      exact ⟨l', List.mem_cons_of_mem l member, rest⟩

/-- No code list is under way in the evaluation of a value that was computed, symbols apart. -/
theorem Eval.active_of_derived {sources : List Source} {v : Value} (derived : Derived sources v)
    (compound : ¬ v.isAtom = true) {c : Context} {bound : Nat} {env : FrameId} {m : Memory} :
    active c bound ⟨v, env, m⟩ = [] := by
  cases bound with
  | zero => rfl
  | succ bound =>
    unfold active
    split
    · rfl
    · cases v with
      | list items tag origin =>
        cases tag with
        | code => exact absurd rfl derived.tag_ne
        | _ => rfl
      | closure id params body env => rfl
      | _ => exact absurd rfl compound

namespace Session

/-! ## What is done to a session -/

/-- What a user does to a session: a call, or to evaluate or apply values. -/
inductive Use where
  | call (c : Call)
  | eval (v : Value) (env : FrameId)
  | apply (f : Value) (args : List Value)

/-- The values that the user hands over. -/
def Use.values : Use → List Value
  | .call _ => []
  | .eval v _ => [v]
  | .apply f args => f :: args

/-- How often the session starts over. -/
def Use.resets : Use → Nat
  | .call (.run _) => 1
  | .call (.runBytes bytes) => if (Utf8.decode bytes).isOk then 1 else 0
  | .call .reset => 1
  | _ => 0

/-- What a use gives, a reset nothing, and the session after it. -/
def use (s : Session) : Use → Option (Except Diagnostic Value) × Session
  | .call c => s.call c
  | .eval v env => (some (s.eval v env).1, (s.eval v env).2)
  | .apply f args => (some (s.apply f args).1, (s.apply f args).2)

/-- The source that is read meanwhile, if one is and can be read. -/
def sourceOf? (s : Session) : Use → Option Source
  | .call (.run text) => Source.ofText? s.reset.tree text
  | .call (.runBytes bytes) =>
    match Utf8.decode bytes with
    | .ok text => Source.ofText? s.reset.tree text
    | .error _ => none
  | .call (.evalSource text) => Source.ofText? s.tree text
  | _ => none

/-- The value that a use returned, if any. -/
def returnedBy : Option (Except Diagnostic Value) → List Value
  | some (.ok v) => [v]
  | _ => []

/-- The session can be reached by uses of a new one. Counted are its resets; kept are the values
that were returned, which alone may be handed over later, and the sources that were read. -/
inductive Reached (limit : Nat) :
    Session → (resets : Nat) → (returned : List Value) → (sources : List Source) → Prop
  | new : Reached limit (.new limit) 0 [] []
  | use {s : Session} {resets : Nat} {returned : List Value} {sources : List Source} (u : Use) :
    Reached limit s resets returned sources → (∀ v ∈ u.values, v ∈ returned) →
      Reached limit (s.use u).2 (resets + u.resets) (returnedBy (s.use u).1 ++ returned)
        ((s.sourceOf? u).toList ++ sources)

/-! ## The invariant -/

/-- The tree has the number of the last reset, and so has the next one. Each source was read into a
tree with the number of a reset: if it was the last, the current tree continues that tree. What
frames and returned values hold was computed from the sources. -/
structure Sound (s : Session) (resets : Nat) (returned : List Value) (sources : List Source) :
    Prop where
  number : s.tree.id = UInt32.ofNat resets
  next : s.nextTree = UInt32.ofNat (resets + 1)
  ordered : Reader.Ordered s.tree
  trees : ∀ src ∈ sources, Reader.Ordered src.tree ∧
    ∃ k ≤ resets, src.tree.id = UInt32.ofNat k ∧ (k = resets → src.tree.Extends s.tree)
  frames : ∀ {id f}, s.memory.store.get? id = some f → (Domain.ofSources sources).Closed f
  values : ∀ v ∈ returned, Derived sources v

theorem sound_new (limit : Nat) : Sound (.new limit) 0 [] [] where
  number := rfl
  next := rfl
  ordered := by
    intro k n p found
    simp [Session.new] at found
  trees := by simp
  frames := by
    intro id f found
    have root : f = { bindings := rootBindings } := by
      rw [Session.new, Store.get?_push] at found
      split at found
      · exact (Option.some.inj found).symm
      · simp [Store.get?] at found
    rw [root]
    exact Domain.closed_root _
  values := by simp

namespace Sound

variable {s : Session} {resets : Nat} {returned : List Value} {sources : List Source}

/-- A new tree has a new number, and no source was read into it yet. -/
theorem reset (h : Sound s resets returned sources) :
    Sound s.reset (resets + 1) returned sources where
  number := h.next
  next := by
    show s.nextTree + 1 = _
    rw [h.next, UInt32.ofNat_add (resets + 1) 1]
    rfl
  ordered := by
    intro k n p found
    simp [Session.reset] at found
  trees := by
    intro src known
    obtain ⟨ordered, k, le, number, -⟩ := h.trees src known
    exact ⟨ordered, k, by omega, number, fun same => by omega⟩
  frames := by
    intro id f found
    have store : s.reset.memory.store = s.memory.store.push { bindings := rootBindings } := rfl
    rw [store, Store.get?_push] at found
    split at found
    · obtain rfl := Option.some.inj found
      exact Domain.closed_root _
    · exact h.frames found
  values := h.values

theorem emit (h : Sound s resets returned sources) (v : Value) :
    Sound (s.emit v) resets returned sources where
  number := h.number
  next := h.next
  ordered := h.ordered
  trees := h.trees
  frames := h.frames
  values := h.values

/-- A text was read into the tree, or could not be read. -/
theorem withTree (h : Sound s resets returned sources) (text : String) :
    Sound { s with tree := Reader.treeAfter s.tree text } resets returned sources where
  number := (s.tree.extends_treeAfter text).id.trans h.number
  next := h.next
  ordered := h.ordered.treeAfter text
  trees := by
    intro src known
    obtain ⟨ordered, k, le, number, continued⟩ := h.trees src known
    exact ⟨ordered, k, le, number,
      fun same => (continued same).trans (s.tree.extends_treeAfter text)⟩
  frames := h.frames
  values := h.values

theorem withSource (h : Sound s resets returned sources) (src : Source)
    (here : src.before = s.tree) :
    Sound { s with tree := src.tree } resets returned (src :: sources) := by
  have after : Reader.treeAfter s.tree src.text = src.tree := by
    rw [Reader.treeAfter, ← here, src.read]
  have known : sources ⊆ src :: sources := List.subset_cons_self ..
  have grown := h.withTree src.text
  rw [after] at grown
  refine ⟨grown.number, h.next, grown.ordered, ?_, fun found => (h.frames found).mono known,
    fun v member => (h.values v member).mono known⟩
  exact List.forall_mem_cons.2
    ⟨⟨grown.ordered, resets, Nat.le_refl _, grown.number, fun _ => .refl _⟩, grown.trees⟩

/-- The memory belongs to the domain of the sources. -/
theorem inv (h : Sound s resets returned sources) :
    (Domain.ofSources sources).Inv s.memory s.memory where
  left := {
    closed := fun _ found => h.frames found
    others := fun _ => rfl
    fresh := fun _ => trivial
    grown := Nat.le_refl _ }
  right := ⟨[], by simp, by simp⟩

/-- A computation in the domain of the sources. -/
theorem perform (h : Sound s resets returned sources) {act : EvalM Value}
    (keeps : Keeps ((Domain.ofSources sources).Inv s.memory) (Derived sources) act) :
    Sound (s.perform act).2 resets (returnedBy (some (s.perform act).1) ++ returned) sources := by
  obtain ⟨⟨kept, -⟩, result⟩ := inv_perform h.inv keeps
  have fixed : (s.perform act).2 = { s with memory := (s.perform act).2.memory } := by
    rw [perform_eq]
    cases act s.memory <;> rfl
  rw [fixed]
  refine ⟨h.number, h.next, h.ordered, h.trees, fun found => kept.closed trivial found, ?_⟩
  intro v member
  rcases List.mem_append.1 member with new | old
  · cases ended : (s.perform act).1 with
    | ok w =>
      rw [ended] at new
      rw [List.mem_singleton.1 new]
      exact result w ended
    | error d =>
      rw [ended] at new
      cases new
  · exact h.values v old

theorem evalSource (h : Sound s resets returned sources) (text : String) :
    Sound (s.evalSource text).2 resets (returnedBy (some (s.evalSource text).1) ++ returned)
      ((Source.ofText? s.tree text).toList ++ sources) := by
  rw [evalSource_eq]
  cases read : Reader.readProgram text s.tree with
  | ok program tree =>
    rw [Source.ofText?_of_ok read]
    let src : Source := ⟨text, s.tree, program, tree, read⟩
    have added : Sound { s with tree } resets returned (src :: sources) := h.withSource src rfl
    exact added.perform (src.keeps_evalProgram List.mem_cons_self _ _ _ _)
  | error d tree =>
    have after : Reader.treeAfter s.tree text = tree := by rw [Reader.treeAfter, read]
    rw [Source.ofText?_of_error read, ← after]
    exact h.withTree text

theorem run (h : Sound s resets returned sources) (text : String) :
    Sound (s.run text).2 (resets + 1) (returnedBy (some (s.run text).1) ++ returned)
      ((Source.ofText? s.reset.tree text).toList ++ sources) := by
  have evaluated := h.reset.evalSource text
  have runs : s.run text = s.reset.evalAndShow text := rfl
  rw [runs, evalAndShow_eq]
  cases ended : (s.reset.evalSource text).1 with
  | ok v =>
    rw [ended] at evaluated
    exact evaluated.emit v
  | error d =>
    rw [ended] at evaluated
    exact evaluated

/-- Every use keeps the invariant. -/
theorem use (h : Sound s resets returned sources) (u : Use) (held : ∀ v ∈ u.values, v ∈ returned) :
    Sound (s.use u).2 (resets + u.resets) (returnedBy (s.use u).1 ++ returned)
      ((s.sourceOf? u).toList ++ sources) := by
  cases u with
  | call c =>
    cases c with
    | run text => exact h.run text
    | runBytes bytes =>
      simp only [Session.use, Session.call, Session.runBytes, Use.resets, sourceOf?]
      cases Utf8.decode bytes with
      | ok text => exact h.run text
      | error d => exact h
    | evalSource text => exact h.evalSource text
    | reset => exact h.reset
  | eval v env =>
    have derived := h.values v (held v List.mem_cons_self)
    exact h.perform (derived.keeps_eval _ s.context s.limit env)
  | apply f args =>
    obtain ⟨hf, hargs⟩ := List.forall_mem_cons.1 held
    refine h.perform (Domain.keeps_apply (Domain.keeps_eval _ _ s.context s.limit) ?_ ?_)
    · exact h.values f hf
    · exact fun v member => h.values v (hargs v member)

end Sound

theorem Reached.sound {limit : Nat} {s : Session} {resets : Nat} {returned : List Value}
    {sources : List Source} (h : Reached limit s resets returned sources) :
    Sound s resets returned sources := by
  induction h with
  | new => exact sound_new limit
  | use u _ held ih => exact ih.use u held

/-! ## Looking nodes up -/

namespace Sound

variable {s : Session} {resets : Nat} {returned : List Value} {sources : List Source}

/-- Numbers repeat only after `2 ^ 32` resets. -/
theorem resolves (h : Sound s resets returned sources) (few : resets < 2 ^ 32) {src : Source}
    (known : src ∈ sources) {id : NodeId} {n : Node} (node : src.tree.get? id = some n) :
    src.Resolves s.tree id := by
  obtain ⟨ordered, k, le, number, continued⟩ := h.trees src known
  refine ⟨n, node, ?_⟩
  by_cases current : k = resets
  · have grown := continued current
    exact .inr ⟨grown.get? node, grown.traceback ordered node⟩
  · left
    have other : id.tree ≠ s.tree.id := by
      rw [(SourceTree.get?_eq_some_iff.1 node).1, number, h.number]
      intro same
      have wrapped := congrArg UInt32.toNat same
      have range : UInt32.size = 2 ^ 32 := rfl
      rw [UInt32.toNat_ofNat_of_lt' (by omega), UInt32.toNat_ofNat_of_lt' (by omega)] at wrapped
      exact current wrapped
    rw [SourceTree.get?, if_neg other]

theorem resolves_nested (h : Sound s resets returned sources) (few : resets < 2 ^ 32)
    {src : Source} (known : src ∈ sources) {place : Value} {around : List Value} {id : NodeId}
    (nested : Nested src.program (place :: around)) (origin : place.origin? = some id) :
    src.Resolves s.tree id := by
  cases place with
  | list items tag origin' =>
    obtain ⟨id', n, same, node⟩ := src.exists_node nested
    obtain rfl : id' = id := Option.some.inj (same.symm.trans origin)
    exact h.resolves few known node
  | _ => cases origin

/-- An evaluation that begins in the domain of the sources. -/
theorem blames (h : Sound s resets returned sources) (few : resets < 2 ^ 32) {m₀ : Memory}
    {x : Evaluation} (begins : (Domain.ofSources sources).Begins m₀ x) {bound : Nat}
    {d : Diagnostic} {m' : Memory}
    (failed : LazyLisp.eval s.context bound x.expr x.env x.memory = .error d m') :
    Blames sources (Eval.active s.context bound x) d := by
  obtain ⟨f, rfl⟩ := report_of_failed _ _ _ failed
  rcases s.context.foldl_place_cases f (Eval.active s.context bound x) with
    unplaced | ⟨l, member, id, n, origin, node, span, notes⟩
  · rw [unplaced]
    exact .inl ⟨rfl, rfl⟩
  · obtain ⟨⟨src, known, place, outer, around, nested, written⟩ | atom, items, origin', rfl⟩ :=
      Domain.expr_of_mem_active begins member
    · obtain ⟨items', rfl⟩ := written.exists_list
      obtain ⟨n', recorded, unknown | ⟨same, noted⟩⟩ := h.resolves_nested few known nested origin
      · rw [show s.context.tree = s.tree from rfl, unknown] at node
        cases node
      · obtain rfl : n' = n := Option.some.inj (same.symm.trans node)
        exact .inr ⟨_, member, src, known, _, _, id, n', nested, written, origin, recorded, span,
          notes.trans noted⟩
    · cases atom

theorem blames_eval (h : Sound s resets returned sources) (few : resets < 2 ^ 32) {v : Value}
    (held : v ∈ returned) {env : FrameId} {d : Diagnostic} (failed : (s.eval v env).1 = .error d) :
    Blames sources (Eval.active s.context s.limit ⟨v, env, s.memory⟩) d := by
  obtain ⟨m', ended⟩ := exists_of_perform_error failed
  by_cases atom : v.isAtom = true
  · exact h.blames few ⟨.inr atom, trivial, h.inv⟩ ended
  · obtain ⟨f, rfl⟩ := report_of_failed _ _ ⟨v, env, s.memory⟩ ended
    rw [Eval.active_of_derived (h.values v held) atom]
    exact .inl ⟨rfl, rfl⟩

theorem blames_apply (h : Sound s resets returned sources) (few : resets < 2 ^ 32) {f : Value}
    {args : List Value} (held : ∀ v ∈ f :: args, v ∈ returned) {d : Diagnostic}
    (failed : (s.apply f args).1 = .error d) :
    Blames sources ((Eval.failingInCall (LazyLisp.eval s.context s.limit) f args s.memory).elim []
      (Eval.active s.context s.limit)) d := by
  obtain ⟨m', ended⟩ := exists_of_perform_error failed
  obtain ⟨hf, hargs⟩ := List.forall_mem_cons.1 held
  have explained : Eval.Explained (LazyLisp.eval s.context s.limit) _ _ :=
    Eval.explained_call f args s.memory
  rw [ended] at explained
  cases found : Eval.failingInCall (LazyLisp.eval s.context s.limit) f args s.memory with
  | none =>
    rw [found] at explained
    cases explained with
    | fault fault => exact .inl ⟨rfl, rfl⟩
  | some x =>
    rw [found] at explained
    cases explained with
    | inner failed =>
      have begins := Domain.begins_inCall (Domain.keeps_eval (.ofSources sources) _ _ _)
        (h.values f hf) (fun v member => h.values v (hargs v member)) h.inv found
      exact h.blames few begins failed

theorem blames_evalSource (h : Sound s resets returned sources) (few : resets < 2 ^ 32)
    {text : String} {src : Source} (read : Source.ofText? s.tree text = some src) {d : Diagnostic}
    (failed : (s.evalSource text).1 = .error d) :
    let c : Context := { limit := s.limit, tree := src.tree }
    Blames (src :: sources) ((Eval.firstFailing (LazyLisp.eval c s.limit) s.global
      (src.program.items?.getD []) s.memory).elim [] (Eval.active c s.limit)) d := by
  intro c
  obtain ⟨rfl, here⟩ := Source.eq_of_ofText? read
  have added := h.withSource src here
  have known : src ∈ src :: sources := List.mem_cons_self
  obtain ⟨forms, origin, program, written⟩ := src.exists_forms known
  rw [evalSource_eq, ← here, src.read] at failed
  obtain ⟨m', ended⟩ := exists_of_perform_error failed
  have sequence : Eval.sequence (LazyLisp.eval c s.limit) s.global .void forms s.memory =
      .error d m' := by
    rw [program] at ended
    exact ended
  obtain ⟨e, -, m, found, failure⟩ := Eval.exists_firstFailing sequence
  have begins := Domain.begins_firstFailing (Domain.keeps_eval (.ofSources (src :: sources)) _ _ _)
    trivial (fun e member => .inl (written e member)) added.inv found
  rw [program]
  show Blames _ ((Eval.firstFailing (LazyLisp.eval c s.limit) s.global forms s.memory).elim []
    (Eval.active c s.limit)) d
  rw [found]
  exact added.blames few begins failure

end Sound

/-- A frame of the session binds a name to the value, or to this expression. -/
def Holds (s : Session) (v : Value) : Prop :=
  ∃ id f name, s.memory.store.get? id = some f ∧
    ((name, .value v) ∈ f.bindings ∨ (name, .deferred v) ∈ f.bindings)

/-- What frames hold and what was returned goes back to the sources. -/
theorem Sound.traced {s : Session} {resets : Nat} {returned : List Value} {sources : List Source}
    (h : Sound s resets returned sources) {v : Value} (held : s.Holds v ∨ v ∈ returned)
    {items : List Value} {tag : ListTag} {id : NodeId}
    (inside : v.Contains (.list items tag (some id))) :
    Traced sources (.list items tag (some id)) := by
  rcases held with ⟨frame, f, name, found, value | deferred⟩ | old
  · have derived : Derived sources v := (h.frames found).bindings _ value
    exact derived.traced inside
  · have expr : WrittenIn sources v ∨ v.isAtom = true := (h.frames found).bindings _ deferred
    rcases expr with written | atom
    · exact written.traced inside
    · cases Value.eq_of_contains_atom atom inside
      cases atom
  · exact (h.values v old).traced inside

/-- **A node is never taken for another.** Use a session in any way, handing over only what it has
returned, with fewer than `2 ^ 32` resets. The origin of each list of each source leads in the
current tree to nothing, or to the node and the notes that were recorded when the source was read.
Each list with an origin, wherever it stands in a frame, in a returned value or in the body of a
function there, is a list of one of the sources, or its quotation, or the function that a `define`
list stands for, with the origin of that list. And the report of whatever is done next has no place,
or the place and the notes that were recorded for one of the lists under evaluation. -/
theorem nodes_resolve_to_own_lists {limit : Nat} {s : Session} {resets : Nat}
    {returned : List Value} {sources : List Source}
    (h : Reached limit s resets returned sources) (few : resets < 2 ^ 32) :
    (∀ src ∈ sources, ∀ place around id, Nested src.program (place :: around) →
      place.origin? = some id → src.Resolves s.tree id) ∧
    (∀ v, s.Holds v ∨ v ∈ returned → ∀ items tag id, v.Contains (.list items tag (some id)) →
      ∃ src ∈ sources, ∃ place around, Nested src.program (place :: around) ∧
        CopyOf (.list items tag (some id)) place ∧ place.origin? = some id ∧
        src.Resolves s.tree id) ∧
    (∀ v env d, v ∈ returned → (s.eval v env).1 = .error d →
      Blames sources (Eval.active s.context s.limit ⟨v, env, s.memory⟩) d) ∧
    (∀ f args d, (∀ v ∈ f :: args, v ∈ returned) → (s.apply f args).1 = .error d →
      Blames sources ((Eval.failingInCall (LazyLisp.eval s.context s.limit) f args s.memory).elim []
        (Eval.active s.context s.limit)) d) ∧
    ∀ text src d, Source.ofText? s.tree text = some src → (s.evalSource text).1 = .error d →
      let c : Context := { limit := s.limit, tree := src.tree }
      Blames (src :: sources) ((Eval.firstFailing (LazyLisp.eval c s.limit) s.global
        (src.program.items?.getD []) s.memory).elim [] (Eval.active c s.limit)) d := by
  have sound := h.sound
  refine ⟨?_, ?_, ?_, ?_, ?_⟩
  · intro src known place around id nested origin
    exact sound.resolves_nested few known nested origin
  · intro v held items tag id inside
    obtain ⟨src, known, place, around, nested, copy, origin⟩ := sound.traced held inside
    exact ⟨src, known, place, around, nested, copy, origin,
      sound.resolves_nested few known nested origin⟩
  · intro v env d held failed
    exact sound.blames_eval few held failed
  · intro f args d held failed
    exact sound.blames_apply few held failed
  · intro text src d read failed
    exact sound.blames_evalSource few read failed

/-- A function that was made before a reset is called after it. The lists in its body have no other
nodes in the new tree than their own, and the report on the one at fault has no place. -/
theorem nodes_resolve_to_own_lists_kept :
    let made := (Session.new 9).use (.call (.run "(lambda () (car 1))"))
    let s := made.2.reset
    ∃ f src, made.1 = some (.ok f) ∧ Reached 9 s 2 [f] [src] ∧ 2 < 2 ^ 32 ∧
      (∀ items tag id, f.Contains (.list items tag (some id)) → src.Resolves s.tree id) ∧
      ∃ d, (s.apply f []).1 = .error d ∧ d.span = none ∧
        Blames [src] ((Eval.failingInCall (LazyLisp.eval s.context s.limit) f [] s.memory).elim []
          (Eval.active s.context s.limit)) d := by
  have outcome :
      let made := (Session.new 9).use (.call (.run "(lambda () (car 1))"))
      (made.1.bind Except.toOption).map (fun f =>
        ((made.2.reset.apply f []).1.mapError Diagnostic.span).map fun _ => ()) =
          some (.error none) := by decide +kernel
  have readable : ((Session.new 9).sourceOf? (.call (.run "(lambda () (car 1))"))).isSome =
      true := by decide +kernel
  obtain ⟨src, read⟩ := Option.isSome_iff_exists.1 readable
  have start : Reached 9 (.new 9) 0 [] [] := .new
  have run := Reached.use (.call (.run "(lambda () (car 1))")) start (by simp [Use.values])
  -- the session itself is not to be computed again
  generalize (Session.new 9).use (.call (.run "(lambda () (car 1))")) = made at outcome run ⊢
  rw [read] at run
  intro _ s
  obtain ⟨f, given, fails⟩ := Option.map_eq_some_iff.1 outcome
  obtain ⟨result, returned, isOk⟩ := Option.bind_eq_some_iff.1 given
  cases result with
  | error d => cases isOk
  | ok v =>
    cases isOk
    rw [returned] at run
    have reached : Reached 9 s 2 [f] [src] :=
      Reached.use (.call .reset) run (by simp [Use.values])
    have few : 2 < 2 ^ 32 := by decide
    obtain ⟨-, lists, -, applications, -⟩ := nodes_resolve_to_own_lists reached few
    have resolves : ∀ items tag id, f.Contains (.list items tag (some id)) →
        src.Resolves s.tree id := by
      intro items tag id inside
      obtain ⟨src', known, -, -, -, -, -, resolves⟩ :=
        lists f (.inr List.mem_cons_self) items tag id inside
      rw [List.mem_singleton.1 known] at resolves
      exact resolves
    cases failed : (s.apply f []).1 with
    | ok v =>
      rw [failed] at fails
      cases fails
    | error d =>
      rw [failed] at fails
      have unplaced : d.span = none := Except.error.inj fails
      have blames := applications f [] d (fun _ member => member) failed
      exact ⟨f, src, returned, reached, few, resolves, d, failed, unplaced, blames⟩

end Session

end LazyLisp
