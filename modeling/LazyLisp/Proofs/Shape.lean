import LazyLisp.Proofs.Forcing
import LazyLisp.Proofs.Active

/-!
# The shape of special forms

A special form is checked as a whole before any part of it is evaluated; `Keyword.WellShaped` says
which lists pass. A list that does not pass fails by itself, whatever the evaluator for the
expressions inside it would do, and the session remains as it was. A list that passes has no fault
of its own except a `set!` target that is bound nowhere, which comes to light after the new value is
evaluated; in every other case it fails because an evaluation that it makes of one of its own
expressions fails.
-/

namespace LazyLisp

/-- A list, of any tag, of a name and an expression. -/
def Value.Pairs (b : Value) (pair : String × Value) : Prop :=
  ∃ tag origin, b = .list [.symbol pair.1, pair.2] tag origin

/-- The items after a keyword make up a special form. -/
inductive Keyword.WellShaped : Keyword → List Value → Prop
  | quote (datum : Value) : WellShaped .quote [datum]
  | define (name : String) (e : Value) : WellShaped .define [.symbol name, e]
  | defineFunction (name : String) (params : List Value) (tag : ListTag) (origin : Option NodeId)
    {body : List Value} (nonempty : body ≠ []) :
    WellShaped .define (.list (.symbol name :: params) tag origin :: body)
  | lambda {params : List Value} (symbols : ∀ p ∈ params, ∃ name, p = .symbol name) (tag : ListTag)
    (origin : Option NodeId) {body : List Value} (nonempty : body ≠ []) :
    WellShaped .lambda (.list params tag origin :: body)
  | ifThen {args : List Value} (count : args.length = 2 ∨ args.length = 3) : WellShaped .ifThen args
  | assign (name : String) (e : Value) : WellShaped .assign [.symbol name, e]
  | letIn {bindings : List Value} (pairs : ∀ b ∈ bindings, ∃ pair, b.Pairs pair) (tag : ListTag)
    (origin : Option NodeId) {body : List Value} (nonempty : body ≠ []) :
    WellShaped .letIn (.list bindings tag origin :: body)

/-! ## The check -/

section

variable {ε α β : Type}

theorem bind_eq_ok_iff {x : Except ε α} {f : α → Except ε β} {b : β} :
    x >>= f = .ok b ↔ ∃ a, x = .ok a ∧ f a = .ok b := by
  constructor
  · intro ended
    cases x with
    | ok a => exact ⟨a, rfl, ended⟩
    | error e => cases ended
  · rintro ⟨a, rfl, ended⟩
    exact ended

theorem mapM_eq_ok_iff {f : α → Except ε β} {xs : List α} {ys : List β} :
    xs.mapM f = .ok ys ↔ List.Forall₂ (fun x y => f x = .ok y) xs ys := by
  induction xs generalizing ys with
  | nil =>
    rw [List.mapM_nil, List.forall₂_nil_left_iff]
    exact Except.ok.injEq [] ys ▸ eq_comm
  | cons x xs ih =>
    rw [List.mapM_cons, List.forall₂_cons_left_iff, bind_eq_ok_iff]
    simp only [bind_eq_ok_iff, ih]
    constructor
    · rintro ⟨y, first, rest, tail, ⟨⟩⟩
      exact ⟨y, rest, first, tail, rfl⟩
    · rintro ⟨y, rest, first, tail, rfl⟩
      exact ⟨y, first, rest, tail, rfl⟩

end

namespace Form

variable {origin place : Option NodeId} {tag : ListTag} {k : Keyword} {f : Form}
  {args params bindings body : List Value} {pairs : List (String × Value)}

theorem letBinding_eq_ok_iff {b : Value} {pair : String × Value} :
    letBinding b = .ok pair ↔ b.Pairs pair := by
  constructor
  · intro parsed
    unfold letBinding at parsed
    split at parsed
    · cases parsed
      exact ⟨_, _, rfl⟩
    · cases parsed
    · cases parsed
  · rintro ⟨tag, origin, rfl⟩
    rfl

theorem bindings_eq_ok_iff :
    bindings.mapM letBinding = .ok pairs ↔ List.Forall₂ Value.Pairs bindings pairs := by
  simp only [mapM_eq_ok_iff, letBinding_eq_ok_iff]

theorem paramNames_eq_ok_iff {names : List String} :
    paramNames params = .ok names ↔ List.Forall₂ (fun p name => p = .symbol name) params names := by
  unfold paramNames
  rw [mapM_eq_ok_iff]
  constructor
  · refine List.Forall₂.imp fun p name parsed => ?_
    split at parsed
    · cases parsed
      rfl
    · cases parsed
  · refine List.Forall₂.imp fun p name same => ?_
    rw [same]

theorem parse_lambda {names : List String} (named : paramNames params = .ok names)
    (nonempty : body ≠ []) :
    parse .lambda origin (.list params tag place :: body) = .ok (.lambda names body) := by
  obtain ⟨e, rest, rfl⟩ := List.exists_cons_of_ne_nil nonempty
  simp only [parse, parseLambda, named]
  rfl

theorem parse_let (bound : bindings.mapM letBinding = .ok pairs) (nonempty : body ≠ []) :
    parse .letIn origin (.list bindings tag place :: body) = .ok (.letIn pairs body) := by
  obtain ⟨e, rest, rfl⟩ := List.exists_cons_of_ne_nil nonempty
  simp only [parse, parseLet, bound]
  rfl

/-- Nothing that is well shaped is rejected. -/
theorem exists_parse (shaped : k.WellShaped args) (origin : Option NodeId) :
    ∃ f, parse k origin args = .ok f := by
  cases shaped with
  | quote datum => exact ⟨_, rfl⟩
  | define name e => exact ⟨_, rfl⟩
  | defineFunction name params tag place nonempty =>
    obtain ⟨e, rest, rfl⟩ := List.exists_cons_of_ne_nil nonempty
    exact ⟨_, rfl⟩
  | lambda symbols tag place nonempty =>
    obtain ⟨names, named⟩ := exists_forall₂_iff.2 symbols
    exact ⟨_, parse_lambda (paramNames_eq_ok_iff.2 named) nonempty⟩
  | ifThen count =>
    match args, count with
    | [test, consequent], _ => exact ⟨_, rfl⟩
    | [test, consequent, alternative], _ => exact ⟨_, rfl⟩
  | assign name e => exact ⟨_, rfl⟩
  | letIn pairs tag place nonempty =>
    obtain ⟨pairs, bound⟩ := exists_forall₂_iff.2 pairs
    exact ⟨_, parse_let (bindings_eq_ok_iff.2 bound) nonempty⟩

theorem wellShaped_of_parseDefine (parsed : parseDefine origin args = .ok f) :
    Keyword.define.WellShaped args := by
  unfold parseDefine at parsed
  split at parsed
  · cases parsed
  · split at parsed
    · exact .define _ _
    · cases parsed
  · split at parsed
    · cases parsed
    · cases parsed
    · next nonempty => exact .defineFunction _ _ _ _ nonempty
    · cases parsed
  · cases parsed

theorem wellShaped_of_parseLambda (parsed : parseLambda args = .ok f) :
    Keyword.lambda.WellShaped args := by
  unfold parseLambda at parsed
  split at parsed
  · cases parsed
  · next params tag place body =>
    obtain ⟨names, named, rest⟩ := bind_eq_ok_iff.1 parsed
    cases body with
    | nil => cases rest
    | cons e body =>
      have symbols := exists_forall₂_iff.1 ⟨names, paramNames_eq_ok_iff.1 named⟩
      exact .lambda symbols tag place (List.cons_ne_nil e body)
  · cases parsed

theorem wellShaped_of_parseLet (parsed : parseLet args = .ok f) :
    Keyword.letIn.WellShaped args := by
  unfold parseLet at parsed
  split at parsed
  · cases parsed
  · next bindings tag place body =>
    cases body with
    | nil => cases parsed
    | cons e body =>
      obtain ⟨pairs, bound, -⟩ := bind_eq_ok_iff.1 parsed
      have each := exists_forall₂_iff.1 ⟨pairs, bindings_eq_ok_iff.1 bound⟩
      exact .letIn each tag place (List.cons_ne_nil e body)
  · cases parsed

/-- Nothing else is accepted. -/
theorem wellShaped_of_parse (parsed : parse k origin args = .ok f) : k.WellShaped args := by
  unfold parse at parsed
  split at parsed
  · exact .quote _
  · cases parsed
  · exact wellShaped_of_parseDefine parsed
  · exact wellShaped_of_parseLambda parsed
  · exact .ifThen (.inl rfl)
  · exact .ifThen (.inr rfl)
  · cases parsed
  · exact .assign _ _
  · cases parsed
  · cases parsed
  · exact wellShaped_of_parseLet parsed

end Form

instance (k : Keyword) (args : List Value) : Decidable (k.WellShaped args) :=
  match h : Form.parse k none args with
  | .ok _ => isTrue (Form.wellShaped_of_parse h)
  | .error _ => isFalse fun shaped => by
    obtain ⟨f, parsed⟩ := Form.exists_parse shaped none
    cases h.symm.trans parsed

/-! ## The evaluations that a form makes -/

/-- The evaluations that a special form makes of its own expressions, by means of `ev`, when it is
evaluated in the frame `env` and the memory `m`. -/
inductive Evaluates (ev : Evaluator) (env : FrameId) (m : Memory) :
    Keyword → List Value → Evaluation → Prop
  | test {test : Value} {rest : List Value} :
    Evaluates ev env m .ifThen (test :: rest) ⟨test, env, m⟩
  | consequent {test consequent v : Value} {rest : List Value} {m' : Memory} :
    ev test env m = .ok v m' → v.truthy = true →
      Evaluates ev env m .ifThen (test :: consequent :: rest) ⟨consequent, env, m'⟩
  | alternative {test consequent alternative v : Value} {m' : Memory} :
    ev test env m = .ok v m' → v.truthy = false →
      Evaluates ev env m .ifThen [test, consequent, alternative] ⟨alternative, env, m'⟩
  | assigned {name : String} {e : Value} :
    Evaluates ev env m .assign [.symbol name, e] ⟨e, env, m⟩
  /-- The body of a `let` is evaluated in a new frame, each expression after those before it. -/
  | body {bindings before after : List Value} {tag : ListTag} {place : Option NodeId}
    {pairs : List (String × Value)} {e v : Value} {m' : Memory} :
    List.Forall₂ Value.Pairs bindings pairs →
      Eval.sequence ev m.store.size .void before
        { m with store := m.store.push (Eval.letFrame env pairs) } = .ok v m' →
      Evaluates ev env m .letIn (.list bindings tag place :: (before ++ e :: after))
        ⟨e, m.store.size, m'⟩

/-- What a special form fails for, and the memory it leaves: an evaluation of one of its own
expressions failed, or the target of a `set!` turned out to be bound nowhere once the new value was
evaluated. -/
inductive Blamed (ev : Evaluator) (env : FrameId) (m : Memory) :
    Keyword → List Value → Diagnostic → Memory → Prop
  | inner {k : Keyword} {args : List Value} {x : Evaluation} {d : Diagnostic} {m' : Memory} :
    Evaluates ev env m k args x → ev x.expr x.env x.memory = .error d m' →
      Blamed ev env m k args d m'
  | unbound {target : String} {e v : Value} {m' : Memory} :
    ev e env m = .ok v m' → m'.store.owner? env target = none →
      Blamed ev env m .assign [.symbol target, e] (Fault.unbound target).diagnostic m'

section

variable {ev : Evaluator} {env : FrameId} {m m' : Memory} {d : Diagnostic} {k : Keyword}
  {args : List Value} {origin : Option NodeId} {f : Form}

/-- Expressions evaluated one after the other fail at the first that fails. -/
theorem Eval.split_of_failed {start : Value} {exprs : List Value}
    (failed : Eval.sequence ev env start exprs m = .error d m') :
    ∃ before e after v m₁, exprs = before ++ e :: after ∧
      Eval.sequence ev env start before m = .ok v m₁ ∧ ev e env m₁ = .error d m' := by
  induction exprs generalizing start m with
  | nil => cases failed
  | cons e exprs ih =>
    unfold Eval.sequence at failed
    rw [List.foldlM_cons] at failed
    cases ended : ev e env m with
    | error d₁ m₁ =>
      rw [bind_of_error ended] at failed
      cases failed
      exact ⟨[], e, exprs, start, m, rfl, rfl, ended⟩
    | ok v m₁ =>
      rw [bind_of_ok ended] at failed
      obtain ⟨before, e', after, w, m₂, rfl, passed, inner⟩ := ih failed
      refine ⟨e :: before, e', after, w, m₂, rfl, ?_, inner⟩
      unfold Eval.sequence
      rw [List.foldlM_cons, bind_of_ok ended]
      exact passed

theorem blamed_if {test consequent : Value} {alternative : Option Value}
    (failed : Eval.form ev env (.ifThen test consequent alternative) m = .error d m') :
    Blamed ev env m .ifThen (test :: consequent :: alternative.toList) d m' := by
  simp only [Eval.form] at failed
  cases ended : ev test env m with
  | error d₁ m₁ =>
    rw [bind_of_error ended] at failed
    cases failed
    exact .inner .test ended
  | ok v m₁ =>
    rw [bind_of_ok ended] at failed
    split at failed
    · next truthy => exact .inner (.consequent ended truthy) failed
    · next falsy =>
      cases alternative with
      | none => cases failed
      | some e => exact .inner (.alternative ended (Bool.eq_false_iff.2 falsy)) failed

theorem blamed_assign {target : String} {e : Value}
    (failed : Eval.form ev env (.assign target e) m = .error d m') :
    Blamed ev env m .assign [.symbol target, e] d m' := by
  change (do EvalM.assign env target (← ev e env); return .symbol target : EvalM Value) m = _
    at failed
  cases ended : ev e env m with
  | error d₁ m₁ =>
    rw [bind_of_error ended] at failed
    cases failed
    exact .inner .assigned ended
  | ok v m₁ =>
    rw [bind_of_ok ended] at failed
    cases owner : m₁.store.owner? env target with
    | none =>
      have unbound : EvalM.assign env target v m₁ =
          .error (Fault.unbound target).diagnostic m₁ := by
        rw [EvalM.assign, get_bind_apply, owner]
        rfl
      rw [bind_of_error unbound] at failed
      cases failed
      exact .unbound ended owner
    | some id =>
      have bound : EvalM.assign env target v m₁ =
          .ok () { m₁ with store := m₁.store.define id target (.value v) } := by
        rw [EvalM.assign, get_bind_apply, owner]
        rfl
      rw [bind_of_ok bound] at failed
      cases failed

theorem blamed_let {bindings body : List Value} {pairs : List (String × Value)} {tag : ListTag}
    {place : Option NodeId} (bound : List.Forall₂ Value.Pairs bindings pairs) (nonempty : body ≠ [])
    (failed : Eval.form ev env (.letIn pairs body) m = .error d m') :
    Blamed ev env m .letIn (.list bindings tag place :: body) d m' := by
  obtain ⟨e, rest, rfl⟩ := List.exists_cons_of_ne_nil nonempty
  obtain ⟨before, e', after, v, m₁, split, passed, inner⟩ := Eval.split_of_failed failed
  rw [split]
  exact .inner (.body bound passed) inner

theorem Eval.codeList_of_parsed {name : String} (special : Keyword.ofName? name = some k)
    (parsed : Form.parse k origin args = .ok f) (ev : Evaluator) (env : FrameId) :
    Eval.codeList ev env origin (.symbol name :: args) = Eval.form ev env f := by
  simp only [Eval.codeList, special, parsed]

/-- A special form that is well shaped fails only for what it is `Blamed` for. -/
theorem blamed_of_failed (shaped : k.WellShaped args) (parsed : Form.parse k origin args = .ok f)
    (failed : Eval.form ev env f m = .error d m') : Blamed ev env m k args d m' := by
  cases shaped with
  | quote datum =>
    cases parsed
    cases failed
  | define name e =>
    cases parsed
    cases failed
  | defineFunction name params tag place nonempty =>
    simp only [Form.parse] at parsed
    obtain ⟨name, e, rfl, -⟩ := Form.define_of_parse parsed
    cases failed
  | lambda symbols tag place nonempty =>
    simp only [Form.parse] at parsed
    obtain ⟨params, rfl⟩ := Form.lambda_of_parse parsed
    cases failed
  | ifThen count =>
    match args, count with
    | [test, consequent], _ =>
      cases parsed
      exact blamed_if failed
    | [test, consequent, alternative], _ =>
      cases parsed
      exact blamed_if failed
  | assign name e =>
    cases parsed
    exact blamed_assign failed
  | letIn each tag place nonempty =>
    obtain ⟨pairs, bound⟩ := exists_forall₂_iff.2 each
    rw [Form.parse_let (Form.bindings_eq_ok_iff.2 bound) nonempty] at parsed
    cases parsed
    exact blamed_let bound nonempty failed

end

/-! ## Sessions -/

/-- Evaluates an expression by means of `sub` for the expressions inside it. -/
def Session.evalBy (s : Session) (sub : Evaluator) (e : Value) (env : FrameId) : Outcome Value :=
  s.perform (EvalM.nested s.limit (Eval.step s.context sub e env))

theorem Session.eval_eq_evalBy (s : Session) (spare : s.memory.depth < s.limit) (e : Value)
    (env : FrameId) : s.eval e env = s.evalBy (LazyLisp.eval s.context (s.limit - 1)) e env := by
  obtain ⟨bound, same⟩ : ∃ bound, s.limit = bound + 1 := ⟨s.limit - 1, by omega⟩
  have opened : LazyLisp.eval s.context s.limit e env =
      EvalM.nested s.limit (Eval.step s.context (LazyLisp.eval s.context (s.limit - 1)) e env) := by
    nth_rewrite 1 [same]
    rw [eval_succ, same, Nat.add_sub_cancel, ← same]
    rfl
  rw [Session.eval, opened, Session.evalBy]

section

variable {c : Context} {sub : Evaluator} {env : FrameId} {origin : Option NodeId}
  {items : List Value} {m m' : Memory} {v : Value} {d : Diagnostic}

theorem Eval.nested_of_ok (spare : m.depth < c.limit)
    (ended : Eval.codeList sub env origin items m.entered = .ok v m') :
    EvalM.nested c.limit (Eval.step c sub (.list items .code origin) env) m =
      .ok v { m' with depth := m'.depth - 1 } := by
  have inner : Eval.step c sub (.list items .code origin) env m.entered = .ok v m' := by
    simp only [step_code, EStateM.adaptExcept, ended]
  exact EvalM.nested_of_ok spare inner

/-- The report is placed on the way out. -/
theorem Eval.nested_of_error (spare : m.depth < c.limit)
    (ended : Eval.codeList sub env origin items m.entered = .error d m') :
    EvalM.nested c.limit (Eval.step c sub (.list items .code origin) env) m =
      .error (c.annotate origin d) { m' with depth := m'.depth - 1 } := by
  have inner : Eval.step c sub (.list items .code origin) env m.entered =
      .error (c.annotate origin d) m' := by
    simp only [step_code, EStateM.adaptExcept, ended]
  exact EvalM.nested_of_error spare inner

end

namespace Session

variable {s s' : Session} {sub : Evaluator} {env : FrameId} {name : String} {k : Keyword}
  {items args : List Value} {origin : Option NodeId} {m : Memory} {v : Value} {d : Diagnostic}

theorem evalBy_of_ok (spare : s.memory.depth < s.limit)
    (ended : Eval.codeList sub env origin items s.memory.entered = .ok v m) :
    s.evalBy sub (.list items .code origin) env =
      (.ok v, { s with memory := { m with depth := m.depth - 1 } }) := by
  have nested := Eval.nested_of_ok (c := s.context) spare ended
  rw [evalBy, perform_eq, show s.limit = s.context.limit from rfl, nested]

theorem evalBy_of_error (spare : s.memory.depth < s.limit)
    (ended : Eval.codeList sub env origin items s.memory.entered = .error d m) :
    s.evalBy sub (.list items .code origin) env =
      (.error (s.context.annotate origin d),
        { s with memory := { m with depth := m.depth - 1 } }) := by
  have nested := Eval.nested_of_error (c := s.context) spare ended
  rw [evalBy, perform_eq, show s.limit = s.context.limit from rfl, nested]

theorem evalBy_of_misshapen (spare : s.memory.depth < s.limit)
    (special : Keyword.ofName? name = some k) {cause : Misshape}
    (rejected : Form.parse k origin args = .error cause) (sub : Evaluator) (env : FrameId) :
    s.evalBy sub (.list (.symbol name :: args) .code origin) env =
      (.error (s.context.annotate origin (Fault.misshape cause).diagnostic), s) := by
  have failed : Eval.codeList sub env origin (.symbol name :: args) s.memory.entered =
      .error (Fault.misshape cause).diagnostic s.memory.entered := by
    simp only [Eval.codeList, special, rejected]
    rfl
  exact evalBy_of_error spare failed

/-- Forms that only quote, bind or make a function do not fail. -/
theorem exists_evalBy (spare : s.memory.depth < s.limit)
    (special : Keyword.ofName? name = some k) (shaped : k.WellShaped args)
    (inert : k = .quote ∨ k = .define ∨ k = .lambda) :
    ∃ v s', s.evalBy sub (.list (.symbol name :: args) .code origin) env = (.ok v, s') := by
  obtain ⟨f, parsed⟩ := Form.exists_parse shaped origin
  have opened := Eval.codeList_of_parsed special parsed sub env
  cases ended : Eval.form sub env f s.memory.entered with
  | ok v m => exact ⟨v, _, evalBy_of_ok spare (opened ▸ ended)⟩
  | error d m =>
    -- a form is blamed for an evaluation that it makes, and these make none
    rcases blamed_of_failed shaped parsed ended with ⟨made, -⟩ | _
    · rcases inert with rfl | rfl | rfl <;> cases made
    · simp at inert

theorem blamed_of_evalBy (spare : s.memory.depth < s.limit)
    (special : Keyword.ofName? name = some k) (shaped : k.WellShaped args)
    (failed : s.evalBy sub (.list (.symbol name :: args) .code origin) env = (.error d, s')) :
    ∃ cause m, Blamed sub env s.memory.entered k args cause m ∧
      d = s.context.annotate origin cause ∧
      s' = { s with memory := { m with depth := m.depth - 1 } } := by
  obtain ⟨f, parsed⟩ := Form.exists_parse shaped origin
  have opened := Eval.codeList_of_parsed special parsed sub env
  cases ended : Eval.form sub env f s.memory.entered with
  | ok v m =>
    rw [evalBy_of_ok spare (opened ▸ ended)] at failed
    cases failed
  | error cause m =>
    rw [evalBy_of_error spare (opened ▸ ended)] at failed
    cases failed
    exact ⟨cause, m, blamed_of_failed shaped parsed ended, rfl, rfl⟩

end Session

/-- A special form is checked before anything else happens. If its shape is wrong, it fails with an
evaluation error, whatever the evaluator for the expressions inside it: none of them is evaluated,
and the session with its frames, its output and its tree is what it was. If its shape is right, then
`quote`, `define` and `lambda` succeed, and a failure is that of an evaluation which the form makes
of one of its own expressions, or of an unbound `set!` target after its value is evaluated. -/
theorem special_form_checks_first (s : Session) (env : FrameId) (name : String) (k : Keyword)
    (args : List Value) (origin : Option NodeId) (spare : s.memory.depth < s.limit)
    (special : Keyword.ofName? name = some k) :
    (¬ k.WellShaped args → ∃ d : Diagnostic, d.kind = .evaluation ∧
      s.eval (.list (.symbol name :: args) .code origin) env = (.error d, s) ∧
      ∀ sub, s.evalBy sub (.list (.symbol name :: args) .code origin) env = (.error d, s)) ∧
    (k.WellShaped args →
      (k = .quote ∨ k = .define ∨ k = .lambda →
        ∃ v s', s.eval (.list (.symbol name :: args) .code origin) env = (.ok v, s')) ∧
      ∀ d s', s.eval (.list (.symbol name :: args) .code origin) env = (.error d, s') →
        ∃ cause m', Blamed (LazyLisp.eval s.context (s.limit - 1)) env s.memory.entered k args
            cause m' ∧
          d = s.context.annotate origin cause ∧
          s' = { s with memory := { m' with depth := m'.depth - 1 } }) := by
  rw [s.eval_eq_evalBy spare]
  constructor
  · intro misshapen
    cases parsed : Form.parse k origin args with
    | ok f => exact absurd (Form.wellShaped_of_parse parsed) misshapen
    | error cause =>
      have rejected := Session.evalBy_of_misshapen spare special parsed
      exact ⟨_, Context.kind_annotate .., rejected _ env, (rejected · env)⟩
  · intro shaped
    constructor
    · exact Session.exists_evalBy spare special shaped
    · intro d s' failed
      exact Session.blamed_of_evalBy spare special shaped failed

/-- The second binding is no pair, so neither the first one nor the body is evaluated; and a `set!`
of an unbound name fails for the name, once its value is evaluated. -/
theorem special_form_checks_first_let :
    (∃ d : Diagnostic, d.kind = .evaluation ∧
      (Session.new 5).eval (.list [.symbol "let",
        .list [.list [.symbol "x", .list [.symbol "display", .int 1] .code none] .code none,
          .list [.symbol "y"] .code none] .code none,
        .list [.symbol "display", .int 2] .code none] .code none) 0 =
        (.error d, Session.new 5)) ∧
    ∃ d s', (Session.new 5).eval (.list [.symbol "set!", .symbol "x", .int 1] .code none) 0 =
        (.error d, s') ∧
      ∃ cause m', Blamed (eval (Session.new 5).context 4) 0 (Session.new 5).memory.entered .assign
          [.symbol "x", .int 1] cause m' ∧
        d = (Session.new 5).context.annotate none cause := by
  constructor
  · have rejected := (special_form_checks_first (Session.new 5) 0 "let" .letIn
      [.list [.list [.symbol "x", .list [.symbol "display", .int 1] .code none] .code none,
          .list [.symbol "y"] .code none] .code none,
        .list [.symbol "display", .int 2] .code none] none (by decide) rfl).1 (by decide)
    obtain ⟨d, kind, ended, -⟩ := rejected
    exact ⟨d, kind, ended⟩
  · have blamed := (special_form_checks_first (Session.new 5) 0 "set!" .assign
      [.symbol "x", .int 1] none (by decide) rfl).2 (.assign "x" (.int 1))
    obtain ⟨cause, m', made, same, -⟩ := blamed.2 _ _ rfl
    exact ⟨_, _, rfl, cause, m', made, same⟩

end LazyLisp
