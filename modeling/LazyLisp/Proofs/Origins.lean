import LazyLisp.Proofs.DepthLimit
import LazyLisp.Proofs.Simulation.Eval

/-!
# Origins are for reports alone

Lists carry their origins along wherever they go, and the source tree gives origins a meaning. Yet
neither has a part in what a program does. `bare` forgets the origins of a value, a memory or a
session, the tree of a session and the place of a report; evaluations that start from the same bare
expression and the same bare session end alike up to `bare`.
-/

namespace LazyLisp

/-! ## Without origins -/

namespace Value

mutual

/-- The value without the origins of the lists in it, those in bodies of closures included. -/
def bare : Value → Value
  | .list items tag _ => .list (bareAll items) tag none
  | .closure id params body env => .closure id params (bareAll body) env
  | v => v

/-- The values without their origins, in order. -/
def bareAll : List Value → List Value
  | [] => []
  | v :: vs => bare v :: bareAll vs

end

theorem bareAll_eq (vs : List Value) : bareAll vs = vs.map bare := by
  induction vs with
  | nil => rfl
  | cons v vs ih => rw [bareAll, ih, List.map_cons]

end Value

/-- The binding without origins. -/
def Binding.bare : Binding → Binding
  | .value v => .value v.bare
  | .deferred e => .deferred e.bare

/-- The frame without origins. -/
def Frame.bare (f : Frame) : Frame :=
  { f with bindings := f.bindings.map fun entry => (entry.1, entry.2.bare) }

/-- The memory without origins. -/
def Memory.bare (m : Memory) : Memory :=
  { m with store := ⟨m.store.frames.map Frame.bare⟩, output := m.output.map Value.bare }

/-- The report without its place. -/
def Diagnostic.bare (d : Diagnostic) : Diagnostic := { d with span := none, notes := [] }

/-- The session without origins and without its tree. -/
def Session.bare (s : Session) : Session := { s with memory := s.memory.bare, tree := {} }

/-- The outcome without origins, places and trees. -/
def Session.Outcome.bare (outcome : Session.Outcome Value) : Session.Outcome Value :=
  ((outcome.1.map Value.bare).mapError Diagnostic.bare, outcome.2.bare)

/-! ## Alike up to origins -/

/-- Origins do not count; everything else keeps its number. -/
def Renaming.anyOrigin : Renaming where
  origin _ _ := True
  frame := Eq
  closure := Eq
  origin_none := trivial
  frame_iff := @Eq.congr _
  closure_iff := @Eq.congr _

theorem Value.like_iff_bare {v v' : Value} : v.Like .anyOrigin v' ↔ v.bare = v'.bare := by
  induction v generalizing v' with
  | list items tag origin ih =>
    have inside : ∀ items', List.Forall₂ (Like .anyOrigin) items items' ↔
        items.map bare = items'.map bare :=
      fun _ => forall₂_iff_map_eq fun v member _ => ih v member
    constructor
    · intro h
      cases h with
      | list related _ => simp only [bare, bareAll_eq, (inside _).1 related]
    · intro h
      cases v' with
      | list items' tag' origin' =>
        simp only [bare, bareAll_eq, list.injEq, and_true] at h
        obtain ⟨same, rfl⟩ := h
        exact .list ((inside items').2 same) trivial
      | _ => simp [bare] at h
  | closure id params body env ih =>
    have inside : ∀ body', List.Forall₂ (Like .anyOrigin) body body' ↔
        body.map bare = body'.map bare :=
      fun _ => forall₂_iff_map_eq fun v member _ => ih v member
    constructor
    · intro h
      cases h with
      | closure sameId related sameEnv =>
        rw [show id = _ from sameId, show env = _ from sameEnv]
        simp only [bare, bareAll_eq, (inside _).1 related]
    · intro h
      cases v' with
      | closure id' params' body' env' =>
        simp only [bare, bareAll_eq, closure.injEq] at h
        obtain ⟨rfl, rfl, same, rfl⟩ := h
        exact .closure rfl ((inside body').2 same) rfl
      | _ => simp [bare] at h
  | _ =>
    constructor
    · intro h
      cases h
      rfl
    · intro h
      cases v' with
      | list _ _ _ => simp [bare] at h
      | closure _ _ _ _ => simp [bare] at h
      | _ => cases h <;> constructor

theorem Context.bare_annotate (c : Context) (origin : Option NodeId) (d : Diagnostic) :
    (c.annotate origin d).bare = d.bare := by
  unfold Context.annotate
  split <;> rfl

namespace Simulation

/-- Two evaluations that differ in origins and trees alone. -/
def anyOrigin : Simulation :=
  Renaming.anyOrigin.simulation (fun d d' => d.bare = d'.bare) (fun _ => rfl) []

/-- Where reports need not agree on their places, trees need not agree at all. -/
theorem contexts_of_bare {S : Simulation} (report : S.report = fun d d' => d.bare = d'.bare)
    (limit : Nat) (tree tree' : SourceTree) : S.Contexts ⟨limit, tree⟩ ⟨limit, tree'⟩ where
  limit := rfl
  annotate := by
    intro origin origin' d d' _ same
    rw [report] at same ⊢
    change Diagnostic.bare _ = Diagnostic.bare _
    rw [Context.bare_annotate, Context.bare_annotate]
    exact same

theorem anyOrigin_contexts (limit : Nat) (tree tree' : SourceTree) :
    anyOrigin.Contexts ⟨limit, tree⟩ ⟨limit, tree'⟩ :=
  contexts_of_bare rfl limit tree tree'

theorem anyOrigin_bound_iff {b b' : Binding} : anyOrigin.Bound b b' ↔ b.bare = b'.bare := by
  constructor
  · intro h
    cases h with
    | value related => exact congrArg Binding.value (Value.like_iff_bare.1 related)
    | deferred related => exact congrArg Binding.deferred (Value.like_iff_bare.1 related)
  · intro h
    cases b with
    | value v =>
      cases b' with
      | value v' => exact .value (Value.like_iff_bare.2 (Binding.value.inj h))
      | deferred e' => cases h
    | deferred e =>
      cases b' with
      | value v' => cases h
      | deferred e' => exact .deferred (Value.like_iff_bare.2 (Binding.deferred.inj h))

theorem anyOrigin_frames_iff {f f' : Frame} : anyOrigin.Frames f f' ↔ f.bare = f'.bare := by
  have entries : List.Forall₂ anyOrigin.Entries f.bindings f'.bindings ↔
      f.bare.bindings = f'.bare.bindings := by
    refine forall₂_iff_map_eq fun p _ q => ?_
    have seen : ¬ anyOrigin.hidden p.1 := id
    rw [Entries, forall_prop_of_true seen, anyOrigin_bound_iff, Prod.mk.injEq]
  have parents : Option.Rel anyOrigin.frame f.parent f'.parent ↔ f.parent = f'.parent :=
    optionRel_eq_iff
  constructor
  · rintro ⟨parent, bindings⟩
    exact Frame.mk.injEq _ _ _ _ ▸ ⟨parents.1 parent, entries.1 bindings⟩
  · intro h
    exact ⟨parents.2 (Frame.mk.inj h).1, entries.2 (Frame.mk.inj h).2⟩

theorem anyOrigin_memories_iff {depth : Nat} {m m' : Memory} :
    anyOrigin.Memories depth m m' ↔ m.bare = m'.bare ∧ m.depth = depth := by
  have frames : List.Forall₂ anyOrigin.Frames m.store.frames.toList m'.store.frames.toList ↔
      m.store.frames.map Frame.bare = m'.store.frames.map Frame.bare :=
    forall₂_toList_iff_map_eq fun _ _ => anyOrigin_frames_iff
  have output : List.Forall₂ anyOrigin.value m.output.toList m'.output.toList ↔
      m.output.map Value.bare = m'.output.map Value.bare :=
    forall₂_toList_iff_map_eq fun _ _ => Value.like_iff_bare
  rw [memories_iff_of_fixed rfl rfl rfl, frames, output]
  simp only [Memory.bare, Memory.mk.injEq, Store.mk.injEq]
  constructor
  · rintro ⟨frames, closures, output, rfl, depths⟩
    exact ⟨⟨frames, closures, output, depths.symm⟩, rfl⟩
  · rintro ⟨⟨frames, closures, output, depths⟩, rfl⟩
    exact ⟨frames, closures, output, rfl, depths.symm⟩

end Simulation

namespace Session

variable {s s' : Session}

/-- Sessions that agree but for origins and trees have the same limit, and memories that agree. -/
theorem agree_of_bare (states : s.bare = s'.bare) :
    s.limit = s'.limit ∧ Simulation.anyOrigin.Memories s.memory.depth s.memory s'.memory := by
  simp only [Session.bare, Session.mk.injEq] at states
  exact ⟨states.1, Simulation.anyOrigin_memories_iff.2 ⟨states.2.1, rfl⟩⟩

theorem bare_withMemory {m m' : Memory} (states : s.bare = s'.bare) (memories : m.bare = m'.bare) :
    Session.bare { s with memory := m } = Session.bare { s' with memory := m' } := by
  simp only [Session.bare, Session.mk.injEq] at states ⊢
  exact ⟨states.1, memories, states.2.2⟩

/-- Computations that correspond have outcomes that agree but for origins, places and trees. -/
theorem bare_perform {x y : EvalM Value} (states : s.bare = s'.bare)
    (h : Simulation.anyOrigin.Related s.memory.depth Simulation.anyOrigin.value x y) :
    Outcome.bare (s.perform x) = Outcome.bare (s'.perform y) := by
  obtain ⟨v, v', m, m', e, e', values, after⟩ | ⟨d, d', m, m', e, e', reports, after⟩ :=
    (h s.memory s'.memory (agree_of_bare states).2).cases
  · have same := (Simulation.anyOrigin_memories_iff.1 after).1
    simp only [perform_eq, e, e']
    exact Prod.ext (congrArg Except.ok (Value.like_iff_bare.1 values)) (bare_withMemory states same)
  · have same := (Simulation.anyOrigin_memories_iff.1 after).1
    simp only [perform_eq, e, e']
    exact Prod.ext (congrArg Except.error reports) (bare_withMemory states same)

/-- The evaluators of sessions that agree but for origins and trees correspond. -/
theorem evaluators_of_bare (states : s.bare = s'.bare) :
    Simulation.anyOrigin.Evaluators s.memory.depth (LazyLisp.eval s.context s.limit)
      (LazyLisp.eval s'.context s'.limit) := by
  rw [context, context, ← (agree_of_bare states).1]
  exact Simulation.eval_related (Simulation.anyOrigin_contexts _ _ _) rfl

theorem bare_eval {e e' : Value} (states : s.bare = s'.bare) (exprs : e.bare = e'.bare)
    (env : FrameId) : Outcome.bare (s.eval e env) = Outcome.bare (s'.eval e' env) :=
  bare_perform states (evaluators_of_bare states (Value.like_iff_bare.2 exprs) rfl)

/-- An evaluation only adds to the values shown. -/
theorem exists_shown_eval (s : Session) (e : Value) (env : FrameId) :
    ∃ shown, (s.eval e env).2.memory.output.toList = s.memory.output.toList ++ shown := by
  obtain ⟨shown, split⟩ := (growing_eval s.context s.limit e env s.memory).output
  exact ⟨shown, by rw [eval, memory_perform, split]⟩

theorem bare_output (states : s.bare = s'.bare) :
    s.memory.output.toList.map Value.bare = s'.memory.output.toList.map Value.bare := by
  have output : s.bare.memory.output.toList = s'.bare.memory.output.toList := by rw [states]
  simpa [Session.bare, Memory.bare] using output

/-- **Origins are for reports alone.** Take two sessions that agree but for their source trees and
the origins of lists, and two expressions that agree but for origins. Evaluated in the same frame,
they give values that agree but for origins, or reports of the same kind and message; they show
values that agree but for origins; and the sessions after them again agree but for trees and
origins. -/
theorem eval_up_to_origins {e e' : Value} (states : s.bare = s'.bare) (exprs : e.bare = e'.bare)
    (env : FrameId) :
    Outcome.bare (s.eval e env) = Outcome.bare (s'.eval e' env) ∧
      ∃ shown shown' : List Value,
        (s.eval e env).2.memory.output.toList = s.memory.output.toList ++ shown ∧
          (s'.eval e' env).2.memory.output.toList = s'.memory.output.toList ++ shown' ∧
          shown.map Value.bare = shown'.map Value.bare := by
  have outcomes := bare_eval states exprs env
  obtain ⟨shown, split⟩ := s.exists_shown_eval e env
  obtain ⟨shown', split'⟩ := s'.exists_shown_eval e' env
  refine ⟨outcomes, shown, shown', split, split', ?_⟩
  have after : (s.eval e env).2.bare = (s'.eval e' env).2.bare := (Prod.ext_iff.1 outcomes).2
  have output := bare_output after
  rw [split, split', List.map_append, List.map_append, bare_output states] at output
  exact List.append_cancel_left output

/-- A call of `car` without an argument fails alike with and without an origin, though only one of
the reports has a place. -/
theorem eval_up_to_origins_car :
    let placed : Session := { Session.new 9 with tree := ⟨7, #[⟨⟨0, 5⟩, none, none⟩]⟩ }
    let call : Option NodeId → Value := fun origin => .list [.symbol "car"] .code origin
    Outcome.bare ((Session.new 9).eval (call none) 0) =
        Outcome.bare (placed.eval (call (some ⟨7, 0⟩)) 0) ∧
      (((Session.new 9).eval (call none) 0).1 matches .error ⟨.arity, _, none, _⟩) = true ∧
      ((placed.eval (call (some ⟨7, 0⟩)) 0).1 matches .error ⟨.arity, _, some _, _⟩) = true := by
  intro placed call
  have states : (Session.new 9).bare = placed.bare := rfl
  have exprs : (call none).bare = (call (some ⟨7, 0⟩)).bare := rfl
  have outcomes := (eval_up_to_origins states exprs 0).1
  exact ⟨outcomes, by decide +kernel, by decide +kernel⟩

end Session

end LazyLisp
