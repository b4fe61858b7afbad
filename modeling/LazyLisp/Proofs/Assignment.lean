import LazyLisp.Proofs.Forcing

/-!
# Assignment goes where lookup looks

Looking a name up from a frame and assigning to it both end in the frame that the name is seen in:
the first one, on the way outward to a root, that binds it. An assignment puts a value into that one
slot. It adds no name to any frame and moves no frame, so every walk still ends where it ended: the
new value is found from exactly the frames that see the name there, and every other lookup finds
what it found before.
-/

namespace LazyLisp

namespace Store

/-- From every frame the parents lead to a root. A way outward that goes round never ends in one. -/
def Acyclic (s : Store) : Prop := ∀ id < s.size, ∃ path, s.Chain id path

/-- The way outward from `id` comes to `owner`, which binds `name`, and no frame before it does. -/
def Sees (s : Store) (name : String) (id owner : FrameId) : Prop :=
  ∃ nearer outer, s.Chain id (nearer ++ owner :: outer) ∧ s.binds owner name = true ∧
    ∀ i ∈ nearer, s.binds i name = false

/-- The second store is the first with `b` put into one slot, which was there before. -/
structure Rebinds (s s' : Store) (owner : FrameId) (name : String) (b : Binding) : Prop where
  slot : (s.binding? owner name).isSome = true ∧ s'.binding? owner name = some b
  names : ∀ other ≠ name, s'.binding? owner other = s.binding? owner other
  parent : (s'.get? owner).map Frame.parent = (s.get? owner).map Frame.parent
  frames : ∀ id ≠ owner, s'.get? id = s.get? id
  size : s'.size = s.size

variable {s s' : Store} {id env owner : FrameId} {name other : String} {b : Binding}

/-! ## The way to the owner -/

/-- Where no way outward goes round, the owner of a name is the frame it is seen in. -/
theorem Acyclic.sees_iff (acyclic : s.Acyclic) :
    s.Sees name id owner ↔ s.owner? id name = some owner := by
  constructor
  · rintro ⟨nearer, outer, chain, binds, unbound⟩
    rw [chain.owner?, List.find?_eq_some_iff_append]
    refine ⟨binds, nearer, outer, rfl, fun i member => ?_⟩
    rw [unbound i member]
    rfl
  · intro found
    obtain ⟨path, walk⟩ := owner?_eq_some_iff.1 found
    have inside : id < s.size := by
      cases walk with
      | here present _ => exact lt_size_of_get? present
      | outward present _ _ _ => exact lt_size_of_get? present
    obtain ⟨way, chain⟩ := acyclic id inside
    rw [chain.owner?, List.find?_eq_some_iff_append] at found
    obtain ⟨binds, nearer, outer, rfl, unbound⟩ := found
    exact ⟨nearer, outer, chain, binds, fun i member => by simpa using unbound i member⟩

/-- Where no way outward goes round, there is one recursion over the frames for what is to be
answered. -/
theorem Acyclic.recursion_unique {β : Type} {found : FrameId → β} {missing : β}
    {walk walk' : FrameId → β} (acyclic : s.Acyclic) (inside : id < s.size)
    (h : s.Recursion name found missing walk) (h' : s.Recursion name found missing walk') :
    walk id = walk' id := by
  obtain ⟨path, chain⟩ := acyclic id inside
  rw [chain.recursion h, chain.recursion h']

theorem exists_binding?_of_owner? (h : s.owner? id name = some owner) :
    ∃ b, s.binding? owner name = some b := by
  obtain ⟨path, walk⟩ := owner?_eq_some_iff.1 h
  induction walk with
  | here present binds =>
    rw [← binds_eq present, Store.binds] at binds
    exact Option.isSome_iff_exists.1 binds
  | outward _ _ _ _ ih => exact ih (owner?_eq_some_iff.2 ⟨_, ‹_›⟩)

/-- A name is found if and only if it has an owner. -/
theorem lookup?_eq_none_iff : s.lookup? id name = none ↔ s.owner? id name = none := by
  constructor
  · intro missing
    cases owned : s.owner? id name with
    | none => rfl
    | some owner =>
      obtain ⟨b, held⟩ := exists_binding?_of_owner? owned
      rw [lookup?_eq_some_iff.2 ⟨owned, held⟩] at missing
      cases missing
  · intro missing
    rw [lookup?, missing]
    rfl

/-- Looking up is a recursion over the frames: a frame that binds the name gives its binding. -/
theorem recursion_lookup? (s : Store) (name : String) :
    s.Recursion name (fun owner => (s.binding? owner name).map (·, owner)) none
      (s.lookup? · name) := by
  refine recursion_of_owner? fun id => ?_
  cases owned : s.owner? id name with
  | none => exact lookup?_eq_none_iff.2 owned
  | some owner =>
    obtain ⟨b, held⟩ := exists_binding?_of_owner? owned
    rw [lookup?_eq_some_iff.2 ⟨owned, held⟩, Option.elim_some, held, Option.map_some]

/-! ## One slot -/

theorem rebinds_define (held : (s.binding? owner name).isSome = true) (b : Binding) :
    s.Rebinds (s.define owner name b) owner name b := by
  obtain ⟨old, found⟩ := Option.isSome_iff_exists.1 held
  have inside : owner < s.size := lt_size_of_binding? found
  refine ⟨⟨held, ?_⟩, fun other different => ?_, ?_, fun id elsewhere => ?_, size_modify ..⟩
  · rw [binding?_define inside, if_pos ⟨rfl, rfl⟩]
  · rw [binding?_define inside, if_neg fun same => different same.2.symm]
  · rw [define, get?_modify, if_pos rfl, Option.map_map]
    rfl
  · rw [define, get?_modify, if_neg (Ne.symm elsewhere)]

namespace Rebinds

/-- No frame gains or loses a name. -/
theorem binds (h : s.Rebinds s' owner name b) (id : FrameId) (other : String) :
    s'.binds id other = s.binds id other := by
  unfold Store.binds
  by_cases frame : id = owner
  · subst frame
    by_cases same : other = name
    · rw [same, h.slot.1, h.slot.2]
      rfl
    · rw [h.names other same]
  · rw [binding?, binding?, h.frames id frame]

/-- Every frame is where it was: the same frames lie on the way outward from it. -/
theorem get? (h : s.Rebinds s' owner name b) (id : FrameId) :
    Option.Rel (fun f f' => f.parent = f'.parent ∧ ∀ other, f.contains other = f'.contains other)
      (s.get? id) (s'.get? id) := by
  have parents : (s'.get? id).map Frame.parent = (s.get? id).map Frame.parent := by
    by_cases frame : id = owner
    · rw [frame, h.parent]
    · rw [h.frames id frame]
  cases found : s.get? id with
  | none =>
    rw [found, Option.map_none, Option.map_eq_none_iff] at parents
    rw [parents]
    exact .none
  | some f =>
    rw [found, Option.map_some, Option.map_eq_some_iff] at parents
    obtain ⟨f', found', parent⟩ := parents
    rw [found']
    refine .some ⟨parent.symm, fun other => ?_⟩
    rw [← binds_eq found, ← binds_eq found', h.binds]

/-- So every walk ends where it ended. -/
theorem owner? (h : s.Rebinds s' owner name b) (id : FrameId) (other : String) :
    s'.owner? id other = s.owner? id other := by
  have walks : ∀ steps id, s'.ownerWithin other steps id = s.ownerWithin other steps id := by
    intro steps
    induction steps with
    | zero => exact fun _ => rfl
    | succ steps ih =>
      intro id
      unfold ownerWithin
      obtain ⟨found, found'⟩ | ⟨f, f', found, found', parent, contains⟩ :=
        optionRel_cases (h.get? id)
      · rw [found, found']
      · simp only [found, found', parent, contains other, ih]
  unfold Store.owner?
  rw [h.size, walks]

theorem lookup?_of_owner (h : s.Rebinds s' owner name b) (seen : s.owner? id name = some owner) :
    s'.lookup? id name = some (b, owner) :=
  lookup?_eq_some_iff.2 ⟨(h.owner? id name).trans seen, h.slot.2⟩

/-- What is not the slot is found as before. -/
theorem lookup?_of_not_owner (h : s.Rebinds s' owner name b)
    (elsewhere : ¬ (other = name ∧ s.owner? id name = some owner)) :
    s'.lookup? id other = s.lookup? id other := by
  have kept : ∀ o, s.owner? id other = some o → s'.binding? o other = s.binding? o other := by
    intro o owned
    by_cases frame : o = owner
    · subst frame
      refine h.names other fun same => elsewhere ⟨same, ?_⟩
      rw [← same, owned]
    · rw [binding?, binding?, h.frames o frame]
  unfold Store.lookup?
  rw [h.owner?]
  cases owned : s.owner? id other with
  | none => rfl
  | some o =>
    show (s'.binding? o other >>= fun b => some (b, o)) =
      s.binding? o other >>= fun b => some (b, o)
    rw [kept o owned]

end Rebinds

end Store

namespace EvalM

variable {m : Memory} {env owner : FrameId} {name : String}

theorem lookup_of_owner? {b : Binding} (owned : m.store.owner? env name = some owner)
    (held : m.store.binding? owner name = some b) : lookup env name m = .ok (b, owner) m :=
  lookup_of_found (Store.lookup?_eq_some_iff.2 ⟨owned, held⟩)

theorem lookup_of_unowned (missing : m.store.owner? env name = none) :
    lookup env name m = .error (Fault.unbound name).diagnostic m := by
  rw [lookup, get_bind_apply, Store.lookup?_eq_none_iff.2 missing]
  rfl

theorem assign_of_owner? (owned : m.store.owner? env name = some owner) (v : Value) :
    assign env name v m = .ok () { m with store := m.store.define owner name (.value v) } := by
  rw [assign, get_bind_apply, owned]
  rfl

theorem assign_of_unowned (missing : m.store.owner? env name = none) (v : Value) :
    assign env name v m = .error (Fault.unbound name).diagnostic m := by
  rw [assign, get_bind_apply, missing]
  rfl

/-- Assigning is a recursion over the frames too: a frame that binds the name takes the value. -/
theorem recursion_assign (m : Memory) (name : String) (v : Value) :
    m.store.Recursion name
      (fun owner => .ok () { m with store := m.store.define owner name (.value v) })
      (.error (Fault.unbound name).diagnostic m) (assign · name v m) := by
  refine Store.recursion_of_owner? fun id => ?_
  cases owned : m.store.owner? id name with
  | none => rw [assign_of_unowned owned, Option.elim_none]
  | some owner => rw [assign_of_owner? owned, Option.elim_some]

/-- **Assignment goes where lookup looks, and changes one slot.** Take a memory in which no way
outward goes round, and look a name up from one of its frames. Assigning and looking up are each
what a recursion from frame to parent gives: the frame that binds the name takes the value, or gives
its binding, and a root that does not bind it ends the recursion. If the name is found, then in the
frame that it is seen in; an assignment succeeds as well, and the store after it is the store before
it with the value in that slot. From there, and from every frame that sees the name there, the name
now stands for the value, in the same frame; every other lookup, of whatever name from whatever
frame, finds what it found before. If the name is not found, no frame on the way binds it, and
looking it up and assigning to it fail alike, with the report that it is unbound and the memory as
it was. -/
theorem assign_where_lookup_finds (m : Memory) (acyclic : m.store.Acyclic) (env : FrameId)
    (inside : env < m.store.size) (name : String) (v : Value) :
    (∀ walk, m.store.Recursion name
      (fun owner => .ok () { m with store := m.store.define owner name (.value v) })
      (.error (Fault.unbound name).diagnostic m) walk → assign env name v m = walk env) ∧
    (∀ walk, m.store.Recursion name (fun owner => (m.store.binding? owner name).map (·, owner))
      none walk → m.store.lookup? env name = walk env) ∧
    ((∃ m', assign env name v m = .ok () m') ↔ ∃ found m', lookup env name m = .ok found m') ∧
    (∀ b owner m₁, lookup env name m = .ok (b, owner) m₁ →
      m₁ = m ∧ m.store.Sees name env owner ∧ m.store.binding? owner name = some b ∧
      ∃ m', assign env name v m = .ok () m' ∧ m' = { m with store := m'.store } ∧
        m.store.Rebinds m'.store owner name (.value v) ∧
        lookup env name m' = .ok (.value v, owner) m' ∧
        (∀ id, m.store.Sees name id owner → lookup id name m' = .ok (.value v, owner) m') ∧
        ∀ id other, ¬ (other = name ∧ m.store.Sees name id owner) →
          m'.store.lookup? id other = m.store.lookup? id other) ∧
    ∀ d m', assign env name v m = .error d m' →
      d = (Fault.unbound name).diagnostic ∧ m' = m ∧ lookup env name m = .error d m ∧
        ∃ path, m.store.Chain env path ∧ ∀ i ∈ path, m.store.binds i name = false := by
  refine ⟨fun _ => acyclic.recursion_unique inside (recursion_assign m name v),
    fun _ => acyclic.recursion_unique inside (Store.recursion_lookup? m.store name), ?_⟩
  cases owned : m.store.owner? env name with
  | none =>
    have unassigned := assign_of_unowned owned v
    have unfound := lookup_of_unowned owned
    rw [unassigned, unfound]
    refine ⟨⟨?_, ?_⟩, ?_, ?_⟩
    · rintro ⟨_, wrong⟩
      cases wrong
    · rintro ⟨_, _, wrong⟩
      cases wrong
    · intro _ _ _ wrong
      cases wrong
    intro d m' failed
    cases failed
    obtain ⟨path, chain⟩ := acyclic env inside
    rw [chain.owner?, List.find?_eq_none] at owned
    exact ⟨rfl, rfl, rfl, path, chain, fun i member => by simpa using owned i member⟩
  | some owner =>
    obtain ⟨b, held⟩ := Store.exists_binding?_of_owner? owned
    have found := lookup_of_owner? owned held
    have assigned := assign_of_owner? owned v
    have rebinds : m.store.Rebinds (m.store.define owner name (.value v)) owner name (.value v) :=
      Store.rebinds_define (by rw [held]; rfl) _
    have sees : ∀ id, m.store.owner? id name = some owner →
        lookup id name { m with store := m.store.define owner name (.value v) } =
          .ok (.value v, owner) { m with store := m.store.define owner name (.value v) } :=
      fun id seen => lookup_of_found (rebinds.lookup?_of_owner seen)
    rw [found, assigned]
    refine ⟨⟨fun _ => ⟨_, _, rfl⟩, fun _ => ⟨_, rfl⟩⟩, ?_, ?_⟩
    · intro _ _ _ same
      cases same
      refine ⟨rfl, acyclic.sees_iff.2 owned, held, _, rfl, rfl, rebinds, sees env owned, ?_, ?_⟩
      · exact fun id seen => sees id (acyclic.sees_iff.1 seen)
      · intro id other elsewhere
        exact rebinds.lookup?_of_not_owner fun same =>
          elsewhere ⟨same.1, acyclic.sees_iff.2 same.2⟩
    · intro _ _ wrong
      cases wrong

/-- Four frames: a root with `x` and `y`, two frames inside it, and inside the first of these one
with an `x` of its own. -/
def familyStore : Store :=
  { frames := #[
      { bindings := [("x", .value (.int 1)), ("y", .value (.int 2))] },
      { parent := some 0, bindings := [("z", .deferred (.symbol "x"))] },
      { parent := some 1, bindings := [("x", .deferred (.symbol "y"))] },
      { parent := some 0 }] }

theorem familyStore_acyclic : familyStore.Acyclic := by
  have zero : familyStore.Chain 0 [0] := .root rfl rfl
  have one : familyStore.Chain 1 [1, 0] := .inside rfl rfl zero
  have two : familyStore.Chain 2 [2, 1, 0] := .inside rfl rfl one
  have three : familyStore.Chain 3 [3, 0] := .inside rfl rfl zero
  intro id inside
  have cases : id = 0 ∨ id = 1 ∨ id = 2 ∨ id = 3 := by
    have : id < 4 := inside
    omega
  obtain rfl | rfl | rfl | rfl := cases
  exacts [⟨_, zero⟩, ⟨_, one⟩, ⟨_, two⟩, ⟨_, three⟩]

/-- From the frame in the middle, `x` is the root's. An assignment there reaches the frame beside
it, and not the frame inside it, which has an `x` of its own. -/
theorem assign_seen_from_sibling :
    ∃ m', assign 1 "x" (.int 7) { store := familyStore } = .ok () m' ∧
      lookup 3 "x" m' = .ok (.value (.int 7), 0) m' ∧
      m'.store.lookup? 2 "x" = some (.deferred (.symbol "y"), 2) := by
  obtain ⟨-, -, -, found, -⟩ := assign_where_lookup_finds { store := familyStore } familyStore_acyclic 1
    (by decide) "x" (.int 7)
  obtain ⟨-, -, -, m', assigned, -, -, -, seen, unseen⟩ := found (.value (.int 1)) 0 _ rfl
  refine ⟨m', assigned, seen 3 ?_, (unseen 2 "x" ?_).trans rfl⟩
  · exact familyStore_acyclic.sees_iff.2 rfl
  · rintro ⟨-, sees⟩
    cases familyStore_acyclic.sees_iff.1 sees

end EvalM

end LazyLisp
