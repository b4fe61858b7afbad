import LazyLisp.Proofs.Simulation.Basic

/-!
# Corresponding memories

Each operation on memory, done to corresponding memories with corresponding arguments, gives
corresponding results and leaves corresponding memories. The walk to the owner of a name visits
corresponding frames on both sides, so it ends in corresponding frames or on neither side.
-/

namespace LazyLisp.Simulation

variable {S : Simulation} {depth : Nat}

/-! ## Frames -/

theorem lookup_related {l l' : List (String × Binding)} {name : String} (seen : ¬ S.hidden name)
    (h : List.Forall₂ S.Entries l l') : Option.Rel S.Bound (l.lookup name) (l'.lookup name) := by
  induction h with
  | nil => exact .none
  | @cons p q _ _ head _ ih =>
    obtain ⟨n, b⟩ := p
    obtain ⟨n', b'⟩ := q
    obtain ⟨rfl, bound⟩ : n = n' ∧ (¬ S.hidden n → S.Bound b b') := head
    by_cases same : name = n
    · subst same
      simpa using Option.Rel.some (bound seen)
    · simpa [List.lookup_cons, beq_eq_false_iff_ne.2 same] using ih

theorem setIn_related {l l' : List (String × Binding)} {b b' : Binding} {name : String}
    (bound : ¬ S.hidden name → S.Bound b b') (h : List.Forall₂ S.Entries l l') :
    List.Forall₂ S.Entries (Frame.setIn name b l) (Frame.setIn name b' l') := by
  induction h with
  | nil => exact .cons ⟨rfl, bound⟩ .nil
  | @cons p q _ _ head tail ih =>
    obtain ⟨n, old⟩ := p
    obtain ⟨n', old'⟩ := q
    obtain ⟨rfl, bound'⟩ : n = n' ∧ (¬ S.hidden n → S.Bound old old') := head
    unfold Frame.setIn
    split
    · exact .cons ⟨rfl, bound⟩ tail
    · exact .cons ⟨rfl, bound'⟩ ih

/-- Hidden or not, a name is bound on both sides or on neither. -/
theorem isSome_lookup {l l' : List (String × Binding)} (name : String)
    (h : List.Forall₂ S.Entries l l') :
    (l.lookup name).isSome = (l'.lookup name).isSome := by
  induction h with
  | nil => rfl
  | @cons p q _ _ head _ ih =>
    obtain ⟨n, b⟩ := p
    obtain ⟨n', b'⟩ := q
    obtain rfl : n = n' := head.1
    by_cases same : name = n
    · simp [same]
    · simpa [List.lookup_cons, beq_eq_false_iff_ne.2 same] using ih

namespace Frames

variable {f f' : Frame} {b b' : Binding} {name : String}

theorem get? (h : S.Frames f f') (seen : ¬ S.hidden name) :
    Option.Rel S.Bound (f.get? name) (f'.get? name) :=
  lookup_related seen h.bindings

theorem contains (h : S.Frames f f') (name : String) : f.contains name = f'.contains name :=
  isSome_lookup name h.bindings

theorem set (h : S.Frames f f') (bound : ¬ S.hidden name → S.Bound b b') :
    S.Frames (f.set name b) (f'.set name b') :=
  ⟨h.parent, setIn_related bound h.bindings⟩

theorem setNew (h : S.Frames f f') (bound : ¬ S.hidden name → S.Bound b b') :
    S.Frames (f.setNew name b) (f'.setNew name b') := by
  unfold Frame.setNew
  rw [h.contains name]
  split
  · exact h
  · exact h.set bound

end Frames

/-! ## Memories -/

namespace Memories

variable {m m' : Memory} {env env' : FrameId} {b b' : Binding} {v v' : Value} {name : String}

theorem ownerWithin (h : S.Memories depth m m') (name : String) (steps : Nat) {id id' : FrameId}
    (frame : S.frame id id') :
    Option.Rel S.frame (m.store.ownerWithin name steps id)
      (m'.store.ownerWithin name steps id') := by
  induction steps generalizing id id' with
  | zero => exact .none
  | succ steps ih =>
    unfold Store.ownerWithin
    obtain ⟨e, e'⟩ | ⟨f, f', e, e', frames⟩ := optionRel_cases (h.frames frame)
    · rw [e, e']
      exact .none
    · rw [e, e']
      simp only [frames.contains name]
      split
      · exact .some frame
      · obtain ⟨p, p'⟩ | ⟨parent, parent', p, p', outer⟩ := optionRel_cases frames.parent
        · rw [p, p']
          exact .none
        · rw [p, p']
          exact ih outer

theorem owner? (h : S.Memories depth m m') (name : String) (frame : S.frame env env') :
    Option.Rel S.frame (m.store.owner? env name) (m'.store.owner? env' name) := by
  -- the stores may differ in size, so the walks are compared at a length that is enough for both
  have both := h.ownerWithin name (max m.store.size m'.store.size) frame
  rwa [Store.ownerWithin_of_size_le (Nat.le_max_left ..),
    Store.ownerWithin_of_size_le (Nat.le_max_right ..)] at both

theorem binding? (h : S.Memories depth m m') (seen : ¬ S.hidden name) (frame : S.frame env env') :
    Option.Rel S.Bound (m.store.binding? env name) (m'.store.binding? env' name) := by
  unfold Store.binding?
  obtain ⟨e, e'⟩ | ⟨f, f', e, e', frames⟩ := optionRel_cases (h.frames frame)
  · rw [e, e']
    exact .none
  · rw [e, e']
    exact frames.get? seen

theorem lookup? (h : S.Memories depth m m') (seen : ¬ S.hidden name) (frame : S.frame env env') :
    Option.Rel (fun p q => S.Bound p.1 q.1 ∧ S.frame p.2 q.2) (m.store.lookup? env name)
      (m'.store.lookup? env' name) := by
  unfold Store.lookup?
  obtain ⟨e, e'⟩ | ⟨owner, owner', e, e', oframe⟩ := optionRel_cases (h.owner? name frame)
  · rw [e, e']
    exact .none
  · rw [e, e']
    obtain ⟨n, n'⟩ | ⟨b, b', n, n', bound⟩ := optionRel_cases (h.binding? seen oframe)
    · simp [n, n']
    · simpa [n, n'] using Option.Rel.some (And.intro bound oframe)

/-- Changing corresponding frames in corresponding ways. -/
theorem modify (h : S.Memories depth m m') (frame : S.frame env env')
    {change change' : Frame → Frame}
    (hchange : ∀ f f', S.Frames f f' → S.Frames (change f) (change' f')) :
    S.Memories depth { m with store := m.store.modify env change }
      { m' with store := m'.store.modify env' change' } where
  frames := by
    intro id id' related
    simp only [Store.get?_modify, S.frame_iff frame related]
    split
    · obtain ⟨e, e'⟩ | ⟨f, f', e, e', frames⟩ := optionRel_cases (h.frames related)
      · rw [e, e']
        exact .none
      · rw [e, e']
        exact .some (hchange f f' frames)
    · exact h.frames related
  fresh := by simpa using h.fresh
  closures := h.closures
  output := h.output
  depths := h.depths

theorem push {f f' : Frame} (h : S.Memories depth m m') (hf : S.Frames f f') :
    S.Memories depth { m with store := m.store.push f } { m' with store := m'.store.push f' } where
  frames := by
    intro id id' related
    have new : S.frame m.store.size m'.store.size := h.fresh 0
    by_cases isNew : id = m.store.size
    · obtain rfl := isNew
      obtain rfl := (S.frame_iff new related).1 rfl
      simpa using Option.Rel.some hf
    · have isOld : id' ≠ m'.store.size := fun e => isNew ((S.frame_iff new related).2 e.symm).symm
      rw [Store.get?_push, Store.get?_push, if_neg isNew, if_neg isOld]
      exact h.frames related
  fresh := by
    intro k
    have next := h.fresh (1 + k)
    simpa [Nat.add_assoc] using next
  closures := h.closures
  output := h.output
  depths := h.depths

theorem emit (h : S.Memories depth m m') (hv : S.value v v') :
    S.Memories depth (m.emit v) (m'.emit v') where
  frames := h.frames
  fresh := h.fresh
  closures := h.closures
  output := by
    obtain ⟨shown, split, related⟩ := h.output
    refine ⟨shown ++ [v'], ?_, ?_⟩
    · simp [Memory.emit, split]
    · simpa [Memory.emit] using List.rel_append related (.cons hv .nil)
  depths := h.depths

/-- The count of evaluations under way is an index of the relation and nothing else. -/
theorem withDepth (h : S.Memories depth m m') (depth' : Nat) :
    S.Memories depth' { m with depth := depth' } { m' with depth := depth' } :=
  ⟨h.frames, h.fresh, h.closures, h.output, rfl, rfl⟩

end Memories

/-- Where every frame and closure keeps its number, memories correspond frame by frame and value by
value. -/
theorem memories_iff_of_fixed (frame : S.frame = Eq) (closure : S.closure = Eq)
    (before : S.before = []) :
    S.Memories depth m m' ↔
      List.Forall₂ S.Frames m.store.frames.toList m'.store.frames.toList ∧
        m.closures = m'.closures ∧ List.Forall₂ S.value m.output.toList m'.output.toList ∧
          m.depth = depth ∧ m'.depth = depth := by
  constructor
  · intro h
    obtain ⟨shown, split, related⟩ := h.output
    rw [before, List.nil_append] at split
    refine ⟨forall₂_iff_getElem?.2 fun i => ?_, ?_, split ▸ related, h.depths⟩
    · have same : S.frame i i := by rw [frame]
      simpa [Store.get?] using h.frames same
    · simpa [closure] using h.closures 0
  · rintro ⟨frames, closures, output, depths⟩
    have sizes : m.store.size = m'.store.size := by simpa [Store.size] using frames.length_eq
    refine ⟨?_, fun k => ?_, fun k => ?_, ⟨_, ?_, output⟩, depths⟩
    · intro id id' related
      obtain rfl : id = id' := by simpa [frame] using related
      simpa [Store.get?] using forall₂_iff_getElem?.1 frames id
    · rw [frame, sizes]
    · rw [closure, closures]
    · rw [before, List.nil_append]

/-! ## Operations -/

namespace Related

variable {env env' : FrameId} {v v' : Value} {name : String}

theorem define {b b' : Binding} (frame : S.frame env env')
    (bound : ¬ S.hidden name → S.Bound b b') :
    S.Related depth (fun _ _ => True) (EvalM.define env name b) (EvalM.define env' name b') :=
  fun _ _ memories => .ok trivial (memories.modify frame fun _ _ frames => frames.set bound)

theorem lookup (frame : S.frame env env') (seen : ¬ S.hidden name) :
    S.Related depth (fun p q => S.Bound p.1 q.1 ∧ S.frame p.2 q.2) (EvalM.lookup env name)
      (EvalM.lookup env' name) := by
  refine Runs.get_bind fun m m' memories => ?_
  obtain ⟨e, e'⟩ | ⟨found, found', e, e', related⟩ := optionRel_cases (memories.lookup? seen frame)
  · rw [e, e']
    exact raise (.unbound name) m m' memories
  · rw [e, e']
    exact .ok related memories

theorem assign (frame : S.frame env env') (name : String) (hv : S.value v v') :
    S.Related depth (fun _ _ => True) (EvalM.assign env name v) (EvalM.assign env' name v') := by
  refine Runs.get_bind fun m m' memories => ?_
  obtain ⟨e, e'⟩ | ⟨owner, owner', e, e', oframe⟩ := optionRel_cases (memories.owner? name frame)
  · rw [e, e']
    exact raise (.unbound name) m m' memories
  · rw [e, e']
    exact define oframe (fun _ => .value hv) m m' memories

theorem force (frame : S.frame env env') (seen : ¬ S.hidden name) (hv : S.value v v') :
    S.Related depth S.value (EvalM.force env name v) (EvalM.force env' name v') := by
  refine Runs.get_bind fun m m' memories => ?_
  obtain ⟨e, e'⟩ | ⟨b, b', e, e', bound⟩ := optionRel_cases (memories.binding? seen frame)
  · rw [e, e']
    exact .ok hv memories
  · rw [e, e']
    cases bound with
    | value current => exact .ok current memories
    | deferred _ =>
      have settled : S.Related depth (fun _ _ => True) (EvalM.define env name (.value v))
          (EvalM.define env' name (.value v')) := define frame fun _ => .value hv
      exact settled.bind (fun _ _ _ => .pure hv) m m' memories

theorem newFrame {f f' : Frame} (hf : S.Frames f f') :
    S.Related depth S.frame (EvalM.newFrame f) (EvalM.newFrame f') :=
  fun _ _ memories => .ok (memories.fresh 0) (memories.push hf)

theorem newClosure (params : List String) {body body' : List Value}
    (hbody : List.Forall₂ S.expr body body') (frame : S.frame env env') :
    S.Related depth S.value (EvalM.newClosure params body env)
      (EvalM.newClosure params body' env') := by
  intro m m' memories
  refine .ok (S.value_closure (memories.closures 0) hbody frame) ?_
  exact {
    frames := memories.frames
    fresh := memories.fresh
    closures := fun k => by simpa [Nat.add_assoc] using memories.closures (1 + k)
    output := memories.output
    depths := memories.depths }

theorem emitAll {vs vs' : List Value} (h : List.Forall₂ S.value vs vs') :
    S.Related depth (fun _ _ => True) (vs.forM EvalM.emit) (vs'.forM EvalM.emit) := by
  induction h with
  | nil => exact .pure trivial
  | cons head _ ih =>
    have first : S.Related depth (fun _ _ => True) (EvalM.emit _) (EvalM.emit _) :=
      fun _ _ memories => .ok trivial (memories.emit head)
    exact first.bind fun _ _ _ => ih

/-- One level down, one more evaluation is under way; back up, as many as before. -/
theorem nested {α β : Type} {A : α → β → Prop} {x : EvalM α} {y : EvalM β} (limit : Nat)
    (h : depth < limit → S.Related (depth + 1) A x y) :
    S.Related depth A (EvalM.nested limit x) (EvalM.nested limit y) := by
  intro m m' memories
  obtain ⟨depthEq, depthEq'⟩ := memories.depths
  unfold EvalM.nested
  rw [depthEq, depthEq']
  split
  · exact raise (.depth limit) m m' memories
  · next free =>
    have outcomes := h (by omega) _ _ (memories.withDepth (depth + 1))
    obtain ⟨a, b, t, t', e, e', related, after⟩ | ⟨d, d', t, t', e, e', reports, after⟩ :=
      outcomes.cases
    · simp only [e, e', after.depths]
      exact .ok related (after.withDepth depth)
    · simp only [e, e', after.depths]
      exact .error reports (after.withDepth depth)

end Related

end LazyLisp.Simulation
