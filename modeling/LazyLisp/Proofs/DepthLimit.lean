import Mathlib.Data.List.Infix
import LazyLisp.Session

/-!
# The depth limit is transparent

Two runs that differ in the limit alone do the same, step for step, until the lower limit is
exceeded. `Approximates x y` is the relation that is carried along: from every memory the two
computations end alike, or `x` exceeds its limit and has shown no more than `y` goes on to show.
Both also leave as many evaluations under way as they found. Every part of the evaluator respects
the relation in the evaluator it is given; `eval_approximates` is the induction on the bound.
-/

namespace LazyLisp

section

variable {α β : Type}

/-- The memory in which a computation ended. -/
def finalMemory : EStateM.Result Diagnostic Memory α → Memory
  | .ok _ m => m
  | .error _ m => m

/-- The computation ended because the limit was exceeded. -/
def Overflowed : EStateM.Result Diagnostic Memory α → Prop
  | .ok _ _ => False
  | .error d _ => d.kind = .depth

/-- What a completed evaluation may do to the count of evaluations under way, which is nothing, and
to the values shown, which is to add some. -/
structure Memory.Grows (m m' : Memory) : Prop where
  depth : m'.depth = m.depth
  output : m.output.toList <+: m'.output.toList

theorem Memory.Grows.refl (m : Memory) : m.Grows m := ⟨rfl, List.prefix_refl _⟩

theorem Memory.Grows.trans {m₁ m₂ m₃ : Memory} (h : m₁.Grows m₂) (h' : m₂.Grows m₃) :
    m₁.Grows m₃ :=
  ⟨h'.depth.trans h.depth, h.output.trans h'.output⟩

theorem Memory.grows_emit (m : Memory) (v : Value) : m.Grows (m.emit v) :=
  ⟨rfl, by simp [Memory.emit]⟩

/-- An evaluation that grew the memory one level down has grown the memory around it. -/
theorem Memory.Grows.leave {m m₁ : Memory} (h : Memory.Grows { m with depth := m.depth + 1 } m₁) :
    m.Grows { m₁ with depth := m₁.depth - 1 } := by
  have counted : m₁.depth = m.depth + 1 := h.depth
  exact ⟨by simp [counted], h.output⟩

/-- The computation grows every memory, also where it fails. -/
def Growing (x : EvalM α) : Prop := ∀ m : Memory, m.Grows (finalMemory (x m))

/-- From every memory, `x` ends as `y` does, or exceeds its limit where `y` may go on. -/
structure Approximates (x y : EvalM α) : Prop where
  left : Growing x
  right : Growing y
  agree : ∀ m, x m = y m ∨
    Overflowed (x m) ∧ (finalMemory (x m)).output.toList <+: (finalMemory (y m)).output.toList

theorem Growing.approximates {x : EvalM α} (h : Growing x) : Approximates x x :=
  ⟨h, h, fun _ => .inl rfl⟩

theorem Growing.bind {x : EvalM α} {f : α → EvalM β} (hx : Growing x) (hf : ∀ a, Growing (f a)) :
    Growing (x >>= f) := by
  intro m
  have first := hx m
  change m.Grows (finalMemory (EStateM.bind x f m))
  unfold EStateM.bind
  cases h : x m with
  | ok a m₁ =>
    rw [h] at first
    exact first.trans (hf a m₁)
  | error d m₁ =>
    rw [h] at first
    exact first

theorem Approximates.bind {x y : EvalM α} {f g : α → EvalM β} (h : Approximates x y)
    (hf : ∀ a, Approximates (f a) (g a)) : Approximates (x >>= f) (y >>= g) := by
  refine ⟨h.left.bind fun a => (hf a).left, h.right.bind fun a => (hf a).right, fun m => ?_⟩
  change EStateM.bind x f m = EStateM.bind y g m ∨ Overflowed (EStateM.bind x f m) ∧
    (finalMemory (EStateM.bind x f m)).output.toList <+:
      (finalMemory (EStateM.bind y g m)).output.toList
  unfold EStateM.bind
  rcases h.agree m with same | ⟨overflow, shown⟩
  · rw [same]
    cases y m with
    | ok a m₁ => exact (hf a).agree m₁
    | error d m₁ => exact .inl rfl
  · -- the left run has failed, so it shows nothing more, whatever the right run goes on to do
    cases hx : x m with
    | ok a m₁ => rw [hx] at overflow; exact overflow.elim
    | error d m₁ =>
      rw [hx] at overflow shown
      refine .inr ⟨overflow, ?_⟩
      cases hy : y m with
      | ok b m₂ =>
        rw [hy] at shown
        exact shown.trans ((hf b).right m₂).output
      | error d' m₂ =>
        rw [hy] at shown
        exact shown

end

/-! ## The operations on memory -/

namespace EvalM

theorem growing_pure {α : Type} (a : α) : Growing (pure a : EvalM α) := fun m => .refl m

theorem growing_raise {α : Type} (f : Fault) : Growing (raise f : EvalM α) := fun m => .refl m

theorem growing_get : Growing (get : EvalM Memory) := fun m => .refl m

theorem growing_emit (v : Value) : Growing (emit v) := fun m => m.grows_emit v

theorem growing_newFrame (f : Frame) : Growing (newFrame f) :=
  fun m => ⟨rfl, List.prefix_refl m.output.toList⟩

theorem growing_define (env : FrameId) (name : String) (b : Binding) :
    Growing (define env name b) :=
  fun m => ⟨rfl, List.prefix_refl m.output.toList⟩

theorem growing_lookup (env : FrameId) (name : String) : Growing (lookup env name) := by
  refine growing_get.bind fun m => ?_
  split
  · exact growing_pure _
  · exact growing_raise _

theorem growing_assign (env : FrameId) (name : String) (v : Value) :
    Growing (assign env name v) := by
  refine growing_get.bind fun m => ?_
  split
  · exact growing_define _ _ _
  · exact growing_raise _

theorem growing_force (owner : FrameId) (name : String) (v : Value) :
    Growing (force owner name v) := by
  refine growing_get.bind fun m => ?_
  split
  · exact growing_pure _
  · exact (growing_define _ _ _).bind fun _ => growing_pure _
  · exact growing_pure _

theorem growing_newClosure (params : List String) (body : List Value) (env : FrameId) :
    Growing (newClosure params body env) :=
  fun m => ⟨rfl, List.prefix_refl m.output.toList⟩

theorem growing_emitAll (vs : List Value) : Growing (vs.forM emit) := by
  induction vs with
  | nil => exact growing_pure _
  | cons v vs ih =>
    change Growing (emit v >>= fun _ => vs.forM emit)
    exact (growing_emit v).bind fun _ => ih

theorem growing_callBuiltin (b : Builtin) (args : List Value) : Growing (callBuiltin b args) := by
  unfold callBuiltin
  refine Growing.bind ?_ fun v => (growing_emitAll _).bind fun _ => growing_pure v
  unfold ofExcept
  split
  · exact growing_pure _
  · exact growing_raise _

theorem growing_nested {α : Type} (limit : Nat) {x : EvalM α} (h : Growing x) :
    Growing (nested limit x) := by
  intro m
  have inner := h { m with depth := m.depth + 1 }
  unfold nested
  split
  · exact .refl m
  · cases ended : x { m with depth := m.depth + 1 } with
    | ok a m₁ => rw [ended] at inner; exact inner.leave
    | error d m₁ => rw [ended] at inner; exact inner.leave

theorem approximates_nested {α : Type} {limit limit' : Nat} {x y : EvalM α} (le : limit ≤ limit')
    (h : Approximates x y) : Approximates (nested limit x) (nested limit' y) := by
  refine ⟨growing_nested limit h.left, growing_nested limit' h.right, fun m => ?_⟩
  by_cases full : limit ≤ m.depth
  · -- refused on the left: nothing is shown, and the right run only adds to what was shown
    rw [nested_of_full full]
    exact .inr ⟨rfl, (growing_nested limit' h.right m).output⟩
  · have notFull : ¬ limit' ≤ m.depth := by omega
    simp only [nested, full, notFull, if_false]
    rcases h.agree { m with depth := m.depth + 1 } with same | ⟨overflow, shown⟩
    · rw [same]
      exact .inl rfl
    · refine .inr ?_
      cases hx : x { m with depth := m.depth + 1 } with
      | ok a m₁ => rw [hx] at overflow; exact overflow.elim
      | error d m₁ =>
        rw [hx] at overflow shown
        cases hy : y { m with depth := m.depth + 1 } <;> rw [hy] at shown <;>
          exact ⟨overflow, shown⟩

end EvalM

/-! ## The evaluator -/

/-- The first evaluator approximates the second on every expression, in every frame. -/
def Evaluator.Approximates (ev ev' : Evaluator) : Prop :=
  ∀ e env, LazyLisp.Approximates (ev e env) (ev' e env)

namespace Eval

open EvalM

variable {ev ev' : Evaluator}

theorem approximates_sequence (h : ev.Approximates ev') (env : FrameId) (start : Value)
    (exprs : List Value) :
    Approximates (sequence ev env start exprs) (sequence ev' env start exprs) := by
  unfold sequence
  induction exprs generalizing start with
  | nil => exact (growing_pure start).approximates
  | cons e exprs ih =>
    simp only [List.foldlM_cons]
    exact (h e env).bind fun v => ih v

theorem approximates_body (h : ev.Approximates ev') (env : FrameId) (exprs : List Value) :
    Approximates (body ev env exprs) (body ev' env exprs) := by
  cases exprs with
  | nil => exact (growing_raise _).approximates
  | cons e exprs => exact approximates_sequence h env .void (e :: exprs)

theorem approximates_resolve (h : ev.Approximates ev') (env : FrameId) (name : String) :
    Approximates (resolve ev env name) (resolve ev' env name) := by
  refine (growing_lookup env name).approximates.bind fun found => ?_
  obtain ⟨binding, owner⟩ := found
  cases binding with
  | value v => exact (growing_pure v).approximates
  | deferred e => exact (h e owner).bind fun v => (growing_force owner name v).approximates

theorem approximates_apply (h : ev.Approximates ev') (f : Value) (args : List Value) :
    Approximates (apply ev f args) (apply ev' f args) := by
  cases f with
  | builtin b => exact (growing_callBuiltin b args).approximates
  | closure id params exprs env =>
    simp only [apply]
    split
    · exact (growing_newFrame _).approximates.bind fun frame => approximates_body h frame exprs
    · exact (growing_raise _).approximates
  | _ => exact (growing_raise _).approximates

theorem approximates_form (h : ev.Approximates ev') (env : FrameId) (f : Form) :
    Approximates (form ev env f) (form ev' env f) := by
  cases f with
  | quote datum => exact (growing_pure _).approximates
  | define name e => exact ((growing_define _ _ _).bind fun _ => growing_pure _).approximates
  | lambda params exprs => exact (growing_newClosure _ _ _).approximates
  | ifThen test consequent alternative =>
    refine (h test env).bind fun v => ?_
    split
    · exact h consequent env
    · cases alternative with
      | some e => exact h e env
      | none => exact (growing_pure _).approximates
  | assign name e =>
    exact (h e env).bind fun v =>
      ((growing_assign env name v).bind fun _ => growing_pure _).approximates
  | letIn bindings exprs =>
    exact (growing_newFrame _).approximates.bind fun frame => approximates_body h frame exprs

theorem approximates_items (h : ev.Approximates ev') (env : FrameId) (items : List Value) :
    Approximates (items.mapM (ev · env)) (items.mapM (ev' · env)) := by
  induction items with
  | nil => exact (growing_pure _).approximates
  | cons e items ih =>
    simp only [List.mapM_cons]
    exact (h e env).bind fun v => ih.bind fun vs => (growing_pure _).approximates

theorem approximates_application (h : ev.Approximates ev') (env : FrameId) (items : List Value) :
    Approximates (application ev env items) (application ev' env items) := by
  refine (approximates_items h env items).bind fun vs => ?_
  cases vs with
  | nil => exact (growing_raise _).approximates
  | cons f args => exact approximates_apply h f args

theorem approximates_codeList (h : ev.Approximates ev') (env : FrameId) (origin : Option NodeId)
    (items : List Value) :
    Approximates (codeList ev env origin items) (codeList ev' env origin items) := by
  unfold codeList
  split
  · split
    · split
      · exact approximates_form h env _
      · exact (growing_raise _).approximates
    · exact approximates_application h env _
  · exact approximates_application h env _

end Eval

theorem Context.kind_annotate (c : Context) (origin : Option NodeId) (d : Diagnostic) :
    (c.annotate origin d).kind = d.kind := by
  unfold Context.annotate
  split <;> rfl

theorem Context.annotate_congr {c c' : Context} (tree : c.tree = c'.tree) :
    c.annotate = c'.annotate := by
  funext origin d
  unfold Context.annotate
  rw [tree]

theorem Approximates.annotate {x y : EvalM Value} (h : Approximates x y) (c : Context)
    (origin : Option NodeId) :
    Approximates (x.adaptExcept (c.annotate origin)) (y.adaptExcept (c.annotate origin)) := by
  have final : ∀ (z : EvalM Value) m,
      finalMemory (z.adaptExcept (c.annotate origin) m) = finalMemory (z m) := by
    intro z m
    unfold EStateM.adaptExcept
    cases z m <;> rfl
  have growing : ∀ z : EvalM Value, Growing z → Growing (z.adaptExcept (c.annotate origin)) := by
    intro z hz m
    rw [final]
    exact hz m
  refine ⟨growing x h.left, growing y h.right, fun m => ?_⟩
  rcases h.agree m with same | ⟨overflow, shown⟩
  · left
    unfold EStateM.adaptExcept
    rw [same]
  · right
    rw [final, final]
    refine ⟨?_, shown⟩
    unfold EStateM.adaptExcept
    cases hx : x m with
    | ok a m₁ => rw [hx] at overflow; exact overflow.elim
    | error d m₁ =>
      rw [hx] at overflow
      exact (c.kind_annotate origin d).trans overflow

theorem Eval.approximates_step {c c' : Context} {ev ev' : Evaluator} (tree : c.tree = c'.tree)
    (h : ev.Approximates ev') : Evaluator.Approximates (step c ev) (step c' ev') := by
  intro e env
  cases e with
  | symbol name => exact approximates_resolve h env name
  | list items tag origin =>
    cases tag with
    | code =>
      simp only [step, ← Context.annotate_congr tree]
      exact (approximates_codeList h env origin items).annotate c origin
    | _ => exact (EvalM.growing_pure _).approximates
  | _ => exact (EvalM.growing_pure _).approximates

theorem growing_eval (c : Context) (bound : Nat) (e : Value) (env : FrameId) :
    Growing (eval c bound e env) := by
  induction bound generalizing e env with
  | zero => exact EvalM.growing_raise _
  | succ bound ih =>
    have inner := Eval.approximates_step (c := c) rfl fun e env => (ih e env).approximates
    exact (EvalM.approximates_nested le_rfl (inner e env)).left

/-- An evaluation under a lower limit approximates the one under a higher limit. -/
theorem eval_approximates {c c' : Context} (tree : c.tree = c'.tree) (le : c.limit ≤ c'.limit) :
    ∀ {bound bound' : Nat}, bound ≤ bound' → (eval c bound).Approximates (eval c' bound')
  | 0, bound', _ => fun e env =>
    ⟨EvalM.growing_raise _, growing_eval c' bound' e env,
      fun m => .inr ⟨rfl, (growing_eval c' bound' e env m).output⟩⟩
  | _ + 1, 0, h => absurd h (Nat.not_succ_le_zero _)
  | _ + 1, _ + 1, h => fun e env =>
    EvalM.approximates_nested le
      (Eval.approximates_step tree (eval_approximates tree le (Nat.le_of_succ_le_succ h)) e env)

theorem evalProgram_approximates {c c' : Context} (tree : c.tree = c'.tree)
    (le : c.limit ≤ c'.limit) {bound bound' : Nat} (h : bound ≤ bound') (program : Value)
    (env : FrameId) :
    Approximates (evalProgram c bound program env) (evalProgram c' bound' program env) := by
  have evals := eval_approximates tree le h
  cases program with
  | list forms tag origin => exact Eval.approximates_sequence evals env .void forms
  | _ => exact evals _ env

namespace Session

/-- The outcome is a report that the limit was exceeded. -/
def overflowed {α : Type} : Except Diagnostic α → Bool
  | .ok _ => false
  | .error d => d.kind = .depth

theorem memory_perform {α : Type} (s : Session) (act : EvalM α) :
    (s.perform act).2.memory = finalMemory (act s.memory) := by
  rw [perform_eq]
  cases act s.memory <;> rfl

theorem limit_perform {α : Type} (s : Session) (act : EvalM α) :
    (s.perform act).2.limit = s.limit := by
  rw [perform_eq]
  cases act s.memory <;> rfl

theorem overflowed_perform {α : Type} (s : Session) (act : EvalM α) :
    overflowed (s.perform act).1 = true ↔ Overflowed (act s.memory) := by
  rw [perform_eq]
  cases act s.memory <;> simp [overflowed, Overflowed]

/-- **The depth limit is transparent.** A source that does not exceed the lower limit has the same
outcome under the higher one, and leaves the same session. One that does has shown, up to then, the
first of the values that it shows under the higher limit. In either case as many evaluations are
under way after the call as before it. -/
theorem evalSource_limit_transparent (s : Session) (source : String) {low high : Nat}
    (le : low ≤ high) :
    let few := { s with limit := low }.evalSource source
    let many := { s with limit := high }.evalSource source
    (overflowed few.1 = false → many = (few.1, { few.2 with limit := high })) ∧
      (overflowed few.1 = true → ∃ shown more,
        few.2.memory.output.toList = s.memory.output.toList ++ shown ∧
          many.2.memory.output.toList = s.memory.output.toList ++ (shown ++ more)) ∧
      few.2.memory.depth = s.memory.depth ∧ many.2.memory.depth = s.memory.depth ∧
      few.2.limit = low ∧ many.2.limit = high := by
  simp only [evalSource_eq]
  cases Reader.readProgram source s.tree with
  | error d tree => exact ⟨fun _ => rfl, fun _ => ⟨[], [], by simp, by simp⟩, rfl, rfl, rfl, rfl⟩
  | ok program tree =>
    have runs : Approximates (LazyLisp.evalProgram ⟨low, tree⟩ low program s.global)
        (LazyLisp.evalProgram ⟨high, tree⟩ high program s.global) := by
      refine evalProgram_approximates ?_ le le program s.global
      rfl
    have left := runs.left s.memory
    have right := runs.right s.memory
    simp only [evalProgram, context, memory_perform, limit_perform]
    refine ⟨fun fine => ?_, fun overflow => ?_, left.depth, right.depth, trivial, trivial⟩
    · rcases runs.agree s.memory with same | ⟨overflow, -⟩
      · simp only [perform_eq, same]
        cases LazyLisp.evalProgram ⟨high, tree⟩ high program s.global s.memory <;> rfl
      · have exceeded := (overflowed_perform { s with limit := low, tree } _).2 overflow
        rw [exceeded] at fine
        cases fine
    · obtain ⟨shown, hshown⟩ := left.output
      have further : (finalMemory (LazyLisp.evalProgram ⟨low, tree⟩ low program s.global
          s.memory)).output.toList <+: (finalMemory (LazyLisp.evalProgram ⟨high, tree⟩ high program
          s.global s.memory)).output.toList := by
        rcases runs.agree s.memory with same | ⟨-, shorter⟩
        · rw [same]
        · exact shorter
      obtain ⟨more, hmore⟩ := further
      exact ⟨shown, more, hshown.symm, by rw [← hmore, ← hshown, List.append_assoc]⟩

/-- With a limit of two, the second form exceeds it after the first has shown its value. -/
theorem evalSource_limit_transparent_two_five :
    let s := Session.new 0
    let source := "(display 7) (display (+ 1 (+ 2 3)))"
    let few := { s with limit := 2 }.evalSource source
    let many := { s with limit := 5 }.evalSource source
    2 ≤ 5 ∧ overflowed few.1 = true ∧ overflowed many.1 = false ∧
      few.2.memory.output.size = 1 ∧
      (overflowed few.1 = true → ∃ shown more,
        few.2.memory.output.toList = s.memory.output.toList ++ shown ∧
          many.2.memory.output.toList = s.memory.output.toList ++ (shown ++ more)) :=
  ⟨by decide, by decide +kernel, by decide +kernel, by decide +kernel,
    (evalSource_limit_transparent _ _ (by decide)).2.1⟩

end Session

end LazyLisp
