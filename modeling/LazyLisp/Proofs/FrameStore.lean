import LazyLisp.Proofs.Confinement

/-!
# A store that only grows

A store is well formed if every frame lies inside an older one and every frame that a closure refers
to exists. From each frame the parents then lead outward, past no frame twice, to a root: this is
the way that looking up a name takes. A later store `Extends` an earlier one if every frame is still
there, inside the same parent, with all the names it had.

`Agrees s A x y` is a logic for computations started in well-formed memories that extend `s`: `x`
does the same as `y`, which leaves such a memory again, and a result with the property `A` of the
store it leaves. What is known of a store stays true of those that extend it, so `s` grows along a
computation.
-/

namespace LazyLisp

namespace Store

variable {s s' : Store} {id env : FrameId} {name : String} {f : Frame} {b : Binding}

theorem lt_size_of_get? (h : s.get? id = some f) : id < s.size :=
  (Array.getElem?_eq_some_iff.1 h).1

theorem exists_get? (h : id < s.size) : ∃ f, s.get? id = some f :=
  ⟨s.frames[id], Array.getElem?_eq_getElem h⟩

/-- Every frame lies inside an older one, and closures in bindings were made in frames that
exist. -/
structure WellFormed (s : Store) : Prop where
  parent : ∀ {id p : Nat} {f}, s.get? id = some f → f.parent = some p → p < id
  captured : ∀ {id f}, s.get? id = some f → ∀ entry ∈ f.bindings, ∀ i ∈ entry.2.captured, i < s.size

/-- The frame `id` itself binds `name`. -/
def binds (s : Store) (id : FrameId) (name : String) : Bool := (s.binding? id name).isSome

theorem binds_eq (h : s.get? id = some f) (name : String) : s.binds id name = f.contains name := by
  rw [binds, binding?, h]
  rfl

/-- Every frame is still there, inside the same parent, and binds the names that it bound. -/
def Extends (s s' : Store) : Prop :=
  ∀ ⦃id f⦄, s.get? id = some f → ∃ f', s'.get? id = some f' ∧ f'.parent = f.parent ∧
    ∀ name, f.contains name = true → f'.contains name = true

namespace Extends

theorem refl (s : Store) : s.Extends s := fun _ f found => ⟨f, found, rfl, fun _ bound => bound⟩

theorem trans {s'' : Store} (h : s.Extends s') (h' : s'.Extends s'') : s.Extends s'' := by
  intro id f found
  obtain ⟨f', found', parent', names'⟩ := h found
  obtain ⟨f'', found'', parent'', names''⟩ := h' found'
  exact ⟨f'', found'', parent''.trans parent', fun name bound => names'' name (names' name bound)⟩

theorem lt_size (h : s.Extends s') (old : id < s.size) : id < s'.size := by
  obtain ⟨f, found⟩ := exists_get? old
  obtain ⟨f', found', -⟩ := h found
  exact lt_size_of_get? found'

theorem binds (h : s.Extends s') (bound : s.binds id name = true) : s'.binds id name = true := by
  unfold Store.binds Store.binding? at bound
  cases found : s.get? id with
  | none =>
    rw [found] at bound
    cases bound
  | some f =>
    rw [found] at bound
    obtain ⟨f', found', -, names⟩ := h found
    rw [binds_eq found']
    exact names name bound

end Extends

/-! ## Changes -/

theorem extends_push (s : Store) (f : Frame) : s.Extends (s.push f) := by
  intro id g found
  exact ⟨g, by rw [get?_push_old s f (lt_size_of_get? found), found], rfl, fun _ bound => bound⟩

theorem extends_define (s : Store) (env : FrameId) (name : String) (b : Binding) :
    s.Extends (s.define env name b) := by
  intro id f found
  rw [define, get?_modify, found]
  split
  · refine ⟨f.set name b, rfl, rfl, fun other bound => ?_⟩
    rw [Frame.contains, Frame.get?_set]
    split
    · rfl
    · exact bound
  · exact ⟨f, rfl, rfl, fun _ bound => bound⟩

namespace WellFormed

theorem push (h : s.WellFormed) (closed : (Domain.ofFrames (· < s.size)).Closed f) :
    (s.push f).WellFormed where
  parent := by
    intro id p g found parent
    rw [get?_push] at found
    split at found
    · next new =>
      obtain rfl := Option.some.inj found
      rw [new]
      exact closed.parent p parent
    · exact h.parent found parent
  captured := by
    intro id g found entry member i captured
    rw [get?_push] at found
    rw [size_push]
    split at found
    · obtain rfl := Option.some.inj found
      have old := Domain.ofFrames_bound_iff.1 (closed.bindings entry member) i captured
      exact Nat.lt_succ_of_lt old
    · exact Nat.lt_succ_of_lt (h.captured found entry member i captured)

theorem define (h : s.WellFormed) (env : FrameId) (name : String)
    (hb : ∀ i ∈ b.captured, i < s.size) : (s.define env name b).WellFormed where
  parent := by
    intro id p f found parent
    rw [Store.define, get?_modify] at found
    split at found
    · obtain ⟨g, before, rfl⟩ := Option.map_eq_some_iff.1 found
      exact h.parent before parent
    · exact h.parent found parent
  captured := by
    intro id f found entry member i captured
    rw [Store.define, get?_modify] at found
    rw [Store.define, size_modify]
    split at found
    · obtain ⟨g, before, rfl⟩ := Option.map_eq_some_iff.1 found
      rcases Domain.mem_setIn member with rfl | old
      · exact hb i captured
      · exact h.captured before entry old i captured
    · exact h.captured found entry member i captured

theorem binding (h : s.WellFormed) (found : s.binding? id name = some b) :
    ∀ i ∈ b.captured, i < s.size := by
  obtain ⟨f, present, bound⟩ := Option.bind_eq_some_iff.1 found
  obtain ⟨before, after, split, -⟩ := List.lookup_eq_some_iff.1 bound
  exact h.captured present (name, b) (by rw [split]; simp)

/-- A name that is found has an owner, which binds it. -/
theorem lookup {owner : FrameId} (h : s.WellFormed)
    (found : s.lookup? env name = some (b, owner)) :
    (∀ i ∈ b.captured, i < s.size) ∧ owner < s.size ∧ s.binds owner name = true := by
  obtain ⟨-, held⟩ := Store.lookup?_eq_some_iff.1 found
  obtain ⟨f, present, -⟩ := Option.bind_eq_some_iff.1 held
  refine ⟨h.binding held, lt_size_of_get? present, ?_⟩
  rw [binds, held]
  rfl

end WellFormed

/-! ## The way outward -/

/-- The frames from `id` outward to a root. -/
inductive Chain (s : Store) : FrameId → List FrameId → Prop
  | root {id : FrameId} {f : Frame} : s.get? id = some f → f.parent = none → Chain s id [id]
  | inside {id p : FrameId} {f : Frame} {path : List FrameId} :
    s.get? id = some f → f.parent = some p → Chain s p path → Chain s id (id :: path)

variable {path : List FrameId}

/-- From every frame there is a way to a root. Parents are older, so the way ends. -/
theorem WellFormed.exists_chain (h : s.WellFormed) (old : id < s.size) :
    ∃ path, s.Chain id path := by
  induction id using Nat.strongRecOn with
  | ind id ih =>
    obtain ⟨f, found⟩ := exists_get? old
    cases parent : f.parent with
    | none => exact ⟨[id], .root found parent⟩
    | some p =>
      have older := h.parent found parent
      obtain ⟨path, chain⟩ := ih p older (Nat.lt_trans older old)
      exact ⟨id :: path, .inside found parent chain⟩

theorem Chain.le (h : s.Chain id path) (wellFormed : s.WellFormed) : ∀ i ∈ path, i ≤ id := by
  induction h with
  | root _ _ => simp
  | inside found parent _ ih =>
    have older := wellFormed.parent found parent
    refine List.forall_mem_cons.2 ⟨Nat.le_refl _, fun i member => ?_⟩
    exact Nat.le_trans (ih i member) (Nat.le_of_lt older)

/-- On the way outward no frame is met twice: each is younger than all that follow. -/
theorem Chain.pairwise (h : s.Chain id path) (wellFormed : s.WellFormed) :
    path.Pairwise (· > ·) := by
  induction h with
  | root _ _ => exact List.pairwise_singleton _ _
  | inside found parent rest ih =>
    have older := wellFormed.parent found parent
    refine List.pairwise_cons.2 ⟨fun i member => ?_, ih⟩
    exact Nat.lt_of_le_of_lt (rest.le wellFormed i member) older

/-- The owner of a name is the first frame on the way that binds it; if none does, the way has been
walked to its end. -/
theorem Chain.owner? (h : s.Chain id path) (name : String) :
    s.owner? id name = path.find? (s.binds · name) := by
  induction h with
  | @root id f found parent =>
    rw [List.find?_cons, binds_eq found]
    cases binds : f.contains name with
    | true => exact owner?_of_contains found binds
    | false => exact owner?_of_root found binds parent
  | @inside id p f path found parent _ ih =>
    rw [List.find?_cons, binds_eq found]
    cases binds : f.contains name with
    | true => exact owner?_of_contains found binds
    | false => exact (owner?_of_parent found binds parent).trans ih

/-- Where the way outward ends, what a recursion over the frames gives is decided by the owner. -/
theorem Chain.recursion {β : Type} {found : FrameId → β} {missing : β} {walk : FrameId → β}
    (h : s.Chain id path) (recursion : s.Recursion name found missing walk) :
    walk id = (s.owner? id name).elim missing found := by
  induction h with
  | @root id f present parent =>
    cases binds : f.contains name with
    | true => rw [recursion.here present binds, owner?_of_contains present binds, Option.elim_some]
    | false =>
      rw [recursion.root present binds parent, owner?_of_root present binds parent,
        Option.elim_none]
  | @inside id p f path present parent _ ih =>
    cases binds : f.contains name with
    | true => rw [recursion.here present binds, owner?_of_contains present binds, Option.elim_some]
    | false =>
      rw [recursion.outward present binds parent, owner?_of_parent present binds parent, ih]

end Store

/-! ## Memories and computations -/

/-- The closures in the value were made in frames of the store. -/
abbrev Value.Within (s : Store) (v : Value) : Prop := v.CapturedIn (· < s.size)

theorem Value.Within.mono {s s' : Store} {v : Value} (h : v.Within s) (grown : s.Extends s') :
    v.Within s' :=
  fun i member => grown.lt_size (h i member)

theorem Value.within_atom {s : Store} {v : Value} (atom : v.isAtom = true) : v.Within s :=
  Domain.ofFrames_value_iff.1 (Domain.value_atom atom)

/-- The store is well formed, and closures among the values shown were made in frames of it. -/
structure Memory.WellFormed (m : Memory) : Prop where
  store : m.store.WellFormed
  output : ∀ v ∈ m.output.toList, v.Within m.store

/-- The second memory is well formed, and its frames extend those of the first. -/
structure Memory.Extends (m m' : Memory) : Prop where
  store : m.store.Extends m'.store
  wellFormed : m'.WellFormed

theorem Memory.WellFormed.extends_self {m : Memory} (h : m.WellFormed) : m.Extends m :=
  ⟨.refl m.store, h⟩

theorem Memory.Extends.trans {m m' m'' : Memory} (h : m.Extends m') (h' : m'.Extends m'') :
    m.Extends m'' :=
  ⟨h.store.trans h'.store, h'.wellFormed⟩

/-- With a new store, and the values shown as they were. -/
theorem Memory.WellFormed.withStore {m : Memory} (h : m.WellFormed) {s : Store}
    (grown : m.store.Extends s) (wellFormed : s.WellFormed) : m.Extends { m with store := s } :=
  ⟨grown, wellFormed, fun v member => (h.output v member).mono grown⟩

theorem Memory.WellFormed.extends_define {m : Memory} (h : m.WellFormed) {b : Binding}
    (env : FrameId) (name : String) (hb : ∀ i ∈ b.captured, i < m.store.size) :
    m.Extends { m with store := m.store.define env name b } :=
  h.withStore (m.store.extends_define env name b) (h.store.define env name hb)

theorem Memory.WellFormed.extends_emit {m : Memory} (h : m.WellFormed) {v : Value}
    (hv : v.Within m.store) : m.Extends (m.emit v) := by
  refine ⟨.refl _, h.store, fun w member => ?_⟩
  have cases : w ∈ m.output.toList ∨ w = v := by simpa [Memory.emit] using member
  rcases cases with before | rfl
  · exact h.output w before
  · exact hv

/-- What a computation leaves that began in `m`: a memory that extends it, and a result, if any,
with the property `A`. -/
def Memory.Built {α : Type} (m : Memory) (A : Store → α → Prop) :
    EStateM.Result Diagnostic Memory α → Prop
  | .ok a m' => m.Extends m' ∧ A m'.store a
  | .error _ m' => m.Extends m'

theorem Memory.Built.from {α : Type} {m m' : Memory} {A : Store → α → Prop}
    {r : EStateM.Result Diagnostic Memory α} (h : m.Extends m') (built : m'.Built A r) :
    m.Built A r := by
  cases r with
  | ok a m'' => exact ⟨h.trans built.1, built.2⟩
  | error d m'' => exact h.trans built

/-- Started in a well-formed memory that extends `s`, the computations do the same, and leave a
memory that extends it and a result with the property `A`. -/
def Agrees {α : Type} (s : Store) (A : Store → α → Prop) (x y : EvalM α) : Prop :=
  ∀ m : Memory, m.WellFormed → s.Extends m.store → x m = y m ∧ m.Built A (y m)

namespace Agrees

variable {α β : Type} {s : Store} {A : Store → α → Prop} {B : Store → β → Prop} {x y : EvalM α}

theorem same (h : ∀ m : Memory, m.WellFormed → s.Extends m.store → m.Built A (x m)) :
    Agrees s A x x :=
  fun m wellFormed grown => ⟨rfl, h m wellFormed grown⟩

theorem pure {a : α} (h : ∀ s', s.Extends s' → A s' a) : Agrees s A (Pure.pure a) (Pure.pure a) :=
  .same fun m wellFormed grown => ⟨wellFormed.extends_self, h m.store grown⟩

theorem raise (f : Fault) : Agrees s A (EvalM.raise f) (EvalM.raise f) :=
  .same fun _ wellFormed _ => wellFormed.extends_self

theorem bind {f g : α → EvalM β} (h : Agrees s A x y)
    (hf : ∀ s' a, s.Extends s' → A s' a → Agrees s' B (f a) (g a)) :
    Agrees s B (x >>= f) (y >>= g) := by
  intro m wellFormed grown
  obtain ⟨equal, built⟩ := h m wellFormed grown
  cases ended : y m with
  | ok a m' =>
    rw [ended] at built equal
    rw [bind_of_ok ended, bind_of_ok equal]
    obtain ⟨equal', built'⟩ := hf m'.store a (grown.trans built.1.store) built.2 m'
      built.1.wellFormed (.refl _)
    exact ⟨equal', built'.from built.1⟩
  | error d m' =>
    rw [ended] at built equal
    rw [bind_of_error ended, bind_of_error equal]
    exact ⟨rfl, built⟩

theorem get_bind {f : Memory → EvalM α}
    (h : ∀ m : Memory, m.WellFormed → s.Extends m.store → m.Built A (f m m)) :
    Agrees s A (get >>= f) (get >>= f) :=
  .same h

theorem adaptExcept (h : Agrees s A x y) (f : Diagnostic → Diagnostic) :
    Agrees s A (x.adaptExcept f) (y.adaptExcept f) := by
  intro m wellFormed grown
  obtain ⟨equal, built⟩ := h m wellFormed grown
  unfold EStateM.adaptExcept
  rw [equal]
  refine ⟨rfl, ?_⟩
  cases ended : y m with
  | ok a m' => rw [ended] at built; exact built
  | error d m' => rw [ended] at built; exact built

theorem mapM {f g : α → EvalM Value} {xs : List α}
    (h : ∀ s' a, s.Extends s' → a ∈ xs → Agrees s' Value.Within (f a) (g a)) :
    Agrees s (fun s vs => ∀ v ∈ vs, v.Within s) (xs.mapM f) (xs.mapM g) := by
  induction xs generalizing s with
  | nil => exact .pure fun _ _ => by simp
  | cons a xs ih =>
    rw [List.mapM_cons, List.mapM_cons]
    refine (h s a (.refl s) List.mem_cons_self).bind fun s₁ v grown hv => ?_
    have rest := ih fun s₂ b grown₂ member =>
      h s₂ b (grown.trans grown₂) (List.mem_cons_of_mem a member)
    refine rest.bind fun s₂ vs grown₂ hvs => .pure fun s₃ grown₃ => ?_
    refine List.forall_mem_cons.2 ⟨hv.mono (grown₂.trans grown₃), fun w member => ?_⟩
    exact (hvs w member).mono grown₃

/-- One more evaluation inside those under way: the count is not part of the invariant. -/
theorem nested (limit : Nat) (h : Agrees s A x y) :
    Agrees s A (EvalM.nested limit x) (EvalM.nested limit y) := by
  intro m wellFormed grown
  have inner : Memory.WellFormed { m with depth := m.depth + 1 } :=
    ⟨wellFormed.store, wellFormed.output⟩
  obtain ⟨equal, built⟩ := h { m with depth := m.depth + 1 } inner grown
  unfold EvalM.nested
  rw [equal]
  refine ⟨rfl, ?_⟩
  split
  · exact wellFormed.extends_self
  · cases ended : y { m with depth := m.depth + 1 } with
    | ok a m' =>
      rw [ended] at built
      exact ⟨⟨built.1.store, built.1.wellFormed.store, built.1.wellFormed.output⟩, built.2⟩
    | error d m' =>
      rw [ended] at built
      exact ⟨built.store, built.wellFormed.store, built.wellFormed.output⟩

/-! ## Operations on memory -/

section Operations

open EvalM

variable {env : FrameId} {name : String} {v : Value} {b : Binding}

theorem define (env : FrameId) (name : String) (hb : ∀ i ∈ b.captured, i < s.size) :
    Agrees s (fun _ _ => True) (define env name b) (define env name b) :=
  .same fun _ wellFormed grown =>
    ⟨wellFormed.extends_define env name fun i member => grown.lt_size (hb i member), trivial⟩

theorem lookup (env : FrameId) (name : String) :
    Agrees s (fun s found => (∀ i ∈ found.1.captured, i < s.size) ∧ found.2 < s.size ∧
      s.binds found.2 name = true) (lookup env name) (lookup env name) := by
  refine .get_bind fun m wellFormed _ => ?_
  cases found : m.store.lookup? env name with
  | none => exact wellFormed.extends_self
  | some pair => exact ⟨wellFormed.extends_self, wellFormed.store.lookup found⟩

theorem assign (env : FrameId) (name : String) (hv : v.Within s) :
    Agrees s (fun _ _ => True) (assign env name v) (assign env name v) := by
  refine .get_bind fun m wellFormed grown => ?_
  cases m.store.owner? env name with
  | none => exact wellFormed.extends_self
  | some owner => exact ⟨wellFormed.extends_define owner name (hv.mono grown), trivial⟩

theorem force (owner : FrameId) (name : String) (hv : v.Within s) :
    Agrees s Value.Within (force owner name v) (force owner name v) := by
  refine .get_bind fun m wellFormed grown => ?_
  cases found : m.store.binding? owner name with
  | none => exact ⟨wellFormed.extends_self, hv.mono grown⟩
  | some held =>
    cases held with
    | value current => exact ⟨wellFormed.extends_self, wellFormed.store.binding found⟩
    | deferred e =>
      have defined : m.Extends { m with store := m.store.define owner name (.value v) } :=
        wellFormed.extends_define owner name (hv.mono grown)
      exact ⟨defined, (hv.mono grown).mono defined.store⟩

theorem newFrame {f : Frame} (closed : (Domain.ofFrames (· < s.size)).Closed f) :
    Agrees s (fun s id => id < s.size) (newFrame f) (newFrame f) := by
  refine .get_bind fun m wellFormed grown => ?_
  have here : (Domain.ofFrames (· < m.store.size)).Closed f :=
    ⟨fun p parent => grown.lt_size (closed.parent p parent), fun entry member =>
      Domain.ofFrames_bound_iff.2 fun i captured =>
        grown.lt_size (Domain.ofFrames_bound_iff.1 (closed.bindings entry member) i captured)⟩
  have fresh : m.store.size < (m.store.push f).size := by simp
  exact ⟨wellFormed.withStore (m.store.extends_push f) (wellFormed.store.push here), fresh⟩

theorem newClosure (params : List String) {body : List Value} (hbody : ∀ e ∈ body, e.Within s)
    (frame : env < s.size) :
    Agrees s Value.Within (newClosure params body env) (newClosure params body env) := by
  refine .same fun m wellFormed grown => ⟨⟨.refl _, wellFormed.store, wellFormed.output⟩, ?_⟩
  exact Value.capturedIn_closure_iff.2
    ⟨grown.lt_size frame, fun e member => (hbody e member).mono grown⟩

theorem emit (hv : v.Within s) : Agrees s (fun _ _ => True) (emit v) (emit v) :=
  .same fun _ wellFormed grown => ⟨wellFormed.extends_emit (hv.mono grown), trivial⟩

theorem emitAll {vs : List Value} (h : ∀ v ∈ vs, v.Within s) :
    Agrees s (fun _ _ => True) (vs.forM EvalM.emit) (vs.forM EvalM.emit) := by
  induction vs generalizing s with
  | nil => exact .pure fun _ _ => trivial
  | cons v vs ih =>
    obtain ⟨first, rest⟩ := List.forall_mem_cons.1 h
    exact (emit first).bind fun s' _ grown _ => ih fun w member => (rest w member).mono grown

theorem callBuiltin (b : Builtin) {args : List Value} (h : ∀ v ∈ args, v.Within s) :
    Agrees s Value.Within (callBuiltin b args) (callBuiltin b args) := by
  have inside : ∀ v ∈ args, (Domain.ofFrames (· < s.size)).value v := fun v member =>
    Domain.ofFrames_value_iff.2 (h v member)
  have result : Agrees s Value.Within (ofExcept (b.result args))
      (ofExcept (b.result args)) := by
    cases given : b.result args with
    | error f => exact raise f
    | ok v =>
      have within : v.Within s :=
        Domain.ofFrames_value_iff.1 (Domain.yields_result b inside v given)
      exact .pure fun _ grown => within.mono grown
  have shows : ∀ w ∈ b.shows args, w.Within s := fun w member =>
    Domain.ofFrames_value_iff.1 (Domain.shows_value b inside w member)
  refine result.bind fun s₁ v grown hv => ?_
  have shown : ∀ w ∈ b.shows args, w.Within s₁ := fun w member => (shows w member).mono grown
  exact (emitAll shown).bind fun s₂ _ grown₂ _ => .pure fun s₃ grown₃ =>
    hv.mono (grown₂.trans grown₃)

end Operations

end Agrees

end LazyLisp
