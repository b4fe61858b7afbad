import LazyLisp.Proofs.DepthLimit
import LazyLisp.Proofs.Domain

/-!
# The evaluations under way at a failure

An evaluation fails for a fault of its own, or because an evaluation directly inside it failed.
`failing` finds that inner evaluation, following what the evaluator does: which expressions it
evaluates, in which frames, and in which memory each of them begins. From one failed evaluation to
the next further in, this leads to the fault; `active` collects the code lists on the way. They are
the lists whose evaluation had been entered and not left when the fault arose, and the report is the
fault, placed at the innermost one that the source tree knows.
-/

namespace LazyLisp

/-- An expression, the frame in which it is evaluated and the memory in which the evaluation
begins. -/
structure Evaluation where
  expr : Value
  env : FrameId
  memory : Memory

namespace Eval

/-- Of expressions evaluated one after the other, the evaluation that fails. -/
def firstFailing (ev : Evaluator) (env : FrameId) : List Value → Memory → Option Evaluation
  | [], _ => none
  | e :: exprs, m =>
    match ev e env m with
    | .ok _ m => firstFailing ev env exprs m
    | .error _ _ => some ⟨e, env, m⟩

/-- The evaluation that fails in a body that is evaluated in a new frame. -/
def failingInBody (ev : Evaluator) (f : Frame) (exprs : List Value) (m : Memory) :
    Option Evaluation :=
  firstFailing ev m.store.size exprs { m with store := m.store.push f }

/-- The evaluation that fails in a call. -/
def failingInCall (ev : Evaluator) (f : Value) (args : List Value) (m : Memory) :
    Option Evaluation :=
  match f with
  | .closure _ params exprs env =>
    if args.length = params.length then failingInBody ev (callFrame env params args) exprs m
    else none
  | _ => none

/-- The evaluation that fails in a special form. -/
def failingInForm (ev : Evaluator) (env : FrameId) (m : Memory) : Form → Option Evaluation
  | .ifThen test consequent alternative =>
    match ev test env m with
    | .ok v m => firstFailing ev env (if v.truthy then [consequent] else alternative.toList) m
    | .error _ _ => some ⟨test, env, m⟩
  | .assign _ e => firstFailing ev env [e] m
  | .letIn bindings exprs => failingInBody ev (letFrame env bindings) exprs m
  | _ => none

/-- The evaluation that fails in an application: that of an item, or one in the call. -/
def failingInApplication (ev : Evaluator) (env : FrameId) (items : List Value) (m : Memory) :
    Option Evaluation :=
  match items.mapM (ev · env) m with
  | .ok (f :: args) m => failingInCall ev f args m
  | .ok [] _ => none
  | .error _ _ => firstFailing ev env items m

/-- The evaluation that fails in a code list. -/
def failingInList (ev : Evaluator) (env : FrameId) (origin : Option NodeId) (items : List Value)
    (m : Memory) : Option Evaluation :=
  match Keyword.ofItems? items with
  | none => failingInApplication ev env items m
  | some k =>
    match Form.parse k origin items.tail with
    | .ok f => failingInForm ev env m f
    | .error _ => none

/-- Of a failed evaluation, the one directly inside it that failed; `none` if the fault is its
own. -/
def failing (ev : Evaluator) (x : Evaluation) : Option Evaluation :=
  match x.expr with
  | .symbol name =>
    match x.memory.store.lookup? x.env name with
    | some (.deferred e, owner) => firstFailing ev owner [e] x.memory
    | _ => none
  | .list items .code origin => failingInList ev x.env origin items x.memory
  | _ => none

/-- The code lists whose evaluation had been entered and not left when the evaluation `x` failed,
innermost first. An evaluation that the limit refuses is not entered. -/
def active (c : Context) : (bound : Nat) → Evaluation → List Value
  | 0, _ => []
  | bound + 1, x =>
    if c.limit ≤ x.memory.depth then []
    else
      let entered := { x with memory := { x.memory with depth := x.memory.depth + 1 } }
      let inner := match failing (eval c bound) entered with
        | some y => active c bound y
        | none => []
      match x.expr with
      | .list _ .code _ => inner ++ [x.expr]
      | _ => inner

/-- The evaluation of a code list is under way once it is entered. -/
theorem active_ne_nil {c : Context} {bound : Nat} {items : List Value} {origin : Option NodeId}
    {env : FrameId} {m : Memory} (enough : 0 < bound) (free : m.depth < c.limit) :
    active c bound ⟨.list items .code origin, env, m⟩ ≠ [] := by
  obtain ⟨bound, rfl⟩ : ∃ k, bound = k + 1 := ⟨bound - 1, by omega⟩
  unfold active
  rw [if_neg (Nat.not_le.2 free)]
  exact List.append_ne_nil_of_right_ne_nil _ (List.cons_ne_nil _ _)

/-! ## Every failure is explained -/

/-- If the computation failed, then with a fault of its own where `inner` is `none`, and else as the
evaluation `inner` did. -/
inductive Explained {α : Type} (ev : Evaluator) :
    (inner : Option Evaluation) → EStateM.Result Diagnostic Memory α → Prop
  | ok {inner : Option Evaluation} {a : α} {m : Memory} : Explained ev inner (.ok a m)
  | fault (f : Fault) {m : Memory} : Explained ev none (.error f.diagnostic m)
  | inner {x : Evaluation} {d : Diagnostic} {m : Memory} :
    ev x.expr x.env x.memory = .error d m → Explained ev (some x) (.error d m)

section

variable {α : Type} {ev : Evaluator} {env : FrameId} {m : Memory}

/-- What follows an evaluation that fails does not count. -/
theorem Explained.bind {β : Type} {x : EvalM α} {f : α → EvalM β} {inner : Option Evaluation}
    (hx : Explained ev inner (x m))
    (hf : ∀ a m', x m = .ok a m' → Explained ev inner (f a m')) :
    Explained ev inner ((x >>= f) m) := by
  cases ended : x m with
  | ok a m' =>
    rw [bind_of_ok ended]
    exact hf a m' ended
  | error d m' =>
    rw [bind_of_error ended]
    rw [ended] at hx
    cases hx with
    | fault f => exact .fault f
    | inner failed => exact .inner failed

/-- One evaluation and what comes after it, which fails with faults of its own only. -/
theorem explained_then {f : Value → EvalM α} (e : Value) (m : Memory)
    (hf : ∀ v m', Explained ev none (f v m')) :
    Explained ev (firstFailing ev env [e] m) ((ev e env >>= f) m) := by
  unfold firstFailing
  cases ended : ev e env m with
  | ok v m' =>
    rw [bind_of_ok ended]
    exact hf v m'
  | error d m' =>
    rw [bind_of_error ended]
    exact .inner ended

theorem explained_one (e : Value) (m : Memory) :
    Explained ev (firstFailing ev env [e] m) (ev e env m) := by
  have alone : Explained ev (firstFailing ev env [e] m) ((ev e env >>= pure) m) :=
    explained_then e m fun _ _ => .ok
  rwa [bind_pure] at alone

/-- Expressions evaluated one after the other fail where one of them does. -/
theorem exists_firstFailing {start : Value} {exprs : List Value} {d : Diagnostic} {m' : Memory}
    (failed : sequence ev env start exprs m = .error d m') :
    ∃ e ∈ exprs, ∃ m₁, firstFailing ev env exprs m = some ⟨e, env, m₁⟩ ∧
      ev e env m₁ = .error d m' := by
  induction exprs generalizing start m with
  | nil => cases failed
  | cons e exprs ih =>
    unfold sequence at failed
    rw [List.foldlM_cons] at failed
    unfold firstFailing
    cases ended : ev e env m with
    | ok v m₁ =>
      rw [bind_of_ok ended] at failed
      obtain ⟨e', member, found⟩ := ih failed
      exact ⟨e', List.mem_cons_of_mem e member, found⟩
    | error d₁ m₁ =>
      rw [bind_of_error ended] at failed
      cases failed
      exact ⟨e, List.mem_cons_self, m, rfl, ended⟩

theorem explained_sequence (start : Value) (exprs : List Value) (m : Memory) :
    Explained ev (firstFailing ev env exprs m) (sequence ev env start exprs m) := by
  cases ended : sequence ev env start exprs m with
  | ok v m' => exact .ok
  | error d m' =>
    obtain ⟨e, -, m₁, found, failed⟩ := exists_firstFailing ended
    rw [found]
    exact .inner failed

/-- Evaluations that end leave as many under way as there were. -/
theorem depth_firstFailing (growing : ∀ e, Growing (ev e env)) {exprs : List Value}
    {y : Evaluation} (found : firstFailing ev env exprs m = some y) :
    y.memory.depth = m.depth := by
  induction exprs generalizing m with
  | nil => cases found
  | cons e exprs ih =>
    have grows := growing e m
    unfold firstFailing at found
    cases ended : ev e env m with
    | ok v m' =>
      rw [ended] at found grows
      exact (ih found).trans grows.depth
    | error d m' =>
      rw [ended] at found
      obtain rfl := Option.some.inj found
      rfl

theorem explained_items (items : List Value) (m : Memory) :
    Explained ev (firstFailing ev env items m) (items.mapM (ev · env) m) := by
  induction items generalizing m with
  | nil => exact .ok
  | cons e items ih =>
    unfold firstFailing
    rw [List.mapM_cons]
    cases ended : ev e env m with
    | ok v m' =>
      rw [bind_of_ok ended]
      exact (ih m').bind fun vs m'' _ => .ok
    | error d m' =>
      rw [bind_of_error ended]
      exact .inner ended

theorem explained_body (exprs : List Value) (m : Memory) :
    Explained ev (firstFailing ev env exprs m) (body ev env exprs m) := by
  cases exprs with
  | nil => exact .fault .emptyBody
  | cons e exprs => exact explained_sequence .void (e :: exprs) m

theorem exists_emitAll (vs : List Value) (m : Memory) :
    ∃ m', vs.forM EvalM.emit m = .ok () m' := by
  induction vs generalizing m with
  | nil => exact ⟨m, rfl⟩
  | cons v vs ih => exact ih (m.emit v)

theorem explained_builtin (b : Builtin) (args : List Value) (m : Memory) :
    Explained ev none (EvalM.callBuiltin b args m) := by
  unfold EvalM.callBuiltin
  cases given : b.result args with
  | error f => exact .fault f
  | ok v =>
    obtain ⟨m', shown⟩ := exists_emitAll (b.shows args) m
    have ended : (do (b.shows args).forM EvalM.emit; return v : EvalM Value) m = .ok v m' :=
      bind_of_ok shown
    change Explained ev none ((do (b.shows args).forM EvalM.emit; return v : EvalM Value) m)
    rw [ended]
    exact .ok

theorem explained_call (f : Value) (args : List Value) (m : Memory) :
    Explained ev (failingInCall ev f args m) (apply ev f args m) := by
  cases f with
  | builtin b => exact explained_builtin b args m
  | closure id params exprs env =>
    simp only [apply, failingInCall]
    split
    · exact explained_body exprs _
    · exact .fault _
  | _ => exact .fault _

theorem explained_assign (name : String) (v : Value) (m : Memory) :
    Explained ev none (EvalM.assign env name v m) := by
  rw [EvalM.assign, get_bind_apply]
  cases m.store.owner? env name with
  | some owner => exact .ok
  | none => exact .fault _

theorem exists_force (owner : FrameId) (name : String) (v : Value) (m : Memory) :
    ∃ w m', EvalM.force owner name v m = .ok w m' := by
  rw [EvalM.force, get_bind_apply]
  cases m.store.binding? owner name with
  | none => exact ⟨v, m, rfl⟩
  | some held =>
    cases held with
    | value current => exact ⟨current, m, rfl⟩
    | deferred e => exact ⟨v, _, rfl⟩

theorem explained_form (f : Form) (m : Memory) :
    Explained ev (failingInForm ev env m f) (form ev env f m) := by
  cases f with
  | quote datum => exact .ok
  | define name e => exact .ok
  | lambda params exprs => exact .ok
  | ifThen test consequent alternative =>
    simp only [form, failingInForm]
    cases ended : ev test env m with
    | error d m' =>
      rw [bind_of_error ended]
      exact .inner ended
    | ok v m' =>
      rw [bind_of_ok ended]
      simp only
      split
      · exact explained_one consequent m'
      · cases alternative with
        | none => exact .ok
        | some e => exact explained_one e m'
  | assign name e =>
    refine explained_then e m fun v m' => ?_
    exact (explained_assign name v m').bind fun _ _ _ => .ok
  | letIn bindings exprs => exact explained_body exprs _

theorem explained_application (items : List Value) (m : Memory) :
    Explained ev (failingInApplication ev env items m) (application ev env items m) := by
  have first : Explained ev (firstFailing ev env items m) (items.mapM (ev · env) m) :=
    explained_items items m
  unfold application failingInApplication
  cases ended : items.mapM (ev · env) m with
  | ok vs m' =>
    rw [bind_of_ok ended]
    cases vs with
    | nil => exact .fault .emptyApplication
    | cons f args => exact explained_call f args m'
  | error d m' =>
    rw [bind_of_error ended]
    rw [ended] at first
    simp only
    generalize firstFailing ev env items m = inner at first
    cases first with
    | fault f => exact .fault f
    | inner failed => exact .inner failed

theorem explained_list (origin : Option NodeId) (items : List Value) (m : Memory) :
    Explained ev (failingInList ev env origin items m) (codeList ev env origin items m) := by
  rw [codeList_eq]
  unfold failingInList
  cases Keyword.ofItems? items with
  | none => exact explained_application items m
  | some k =>
    simp only
    cases Form.parse k origin items.tail with
    | ok f => exact explained_form f m
    | error cause => exact .fault (.misshape cause)

theorem explained_symbol (name : String) (m : Memory) :
    Explained ev (failing ev ⟨.symbol name, env, m⟩) (resolve ev env name m) := by
  unfold failing
  rw [resolve_eq]
  cases found : m.store.lookup? env name with
  | none =>
    have unbound : EvalM.lookup env name m = .error (Fault.unbound name).diagnostic m := by
      rw [EvalM.lookup, get_bind_apply, found]
      rfl
    rw [bind_of_error unbound]
    simp only [found]
    exact .fault _
  | some pair =>
    obtain ⟨b, owner⟩ := pair
    have bound : EvalM.lookup env name m = .ok (b, owner) m := by
      rw [EvalM.lookup, get_bind_apply, found]
      rfl
    rw [bind_of_ok bound]
    simp only [found]
    cases b with
    | value v => exact .ok
    | deferred e =>
      refine explained_then e m fun v m' => ?_
      obtain ⟨w, m'', forced⟩ := exists_force owner name v m'
      rw [forced]
      exact .ok

/-- A failed step: what went wrong inside it is placed at the expression if that is a code list. -/
theorem explained_step {c : Context} {x : Evaluation} {d : Diagnostic} {m' : Memory}
    (failed : step c ev x.expr x.env x.memory = .error d m') :
    ∃ cause, Explained (α := Value) ev (failing ev x) (.error cause m') ∧
      d = match x.expr with
        | .list _ .code origin => c.annotate origin cause
        | _ => cause := by
  obtain ⟨e, env, m⟩ := x
  cases e with
  | symbol name =>
    have explained : Explained ev (failing ev ⟨.symbol name, env, m⟩) (resolve ev env name m) :=
      explained_symbol name m
    rw [show resolve ev env name m = .error d m' from failed] at explained
    exact ⟨d, explained, rfl⟩
  | list items tag origin =>
    cases tag with
    | code =>
      have explained : Explained ev (failingInList ev env origin items m)
          (codeList ev env origin items m) := explained_list origin items m
      simp only [step_code, EStateM.adaptExcept] at failed
      cases ended : codeList ev env origin items m with
      | ok v m₁ =>
        rw [ended] at failed
        cases failed
      | error cause m₁ =>
        rw [ended] at failed explained
        cases failed
        exact ⟨cause, explained, rfl⟩
    | _ => cases failed
  | _ => cases failed

end

end Eval

/-- Places a report at a list, if it has no place yet. -/
def Context.place (c : Context) (d : Diagnostic) : Value → Diagnostic
  | .list _ _ origin => c.annotate origin d
  | _ => d

/-- **A report is a fault, placed by the lists under way.** Of the lists whose evaluation had been
entered and not left, the innermost comes first. -/
theorem report_of_failed (c : Context) (bound : Nat) (x : Evaluation) {d : Diagnostic}
    {m' : Memory} (failed : eval c bound x.expr x.env x.memory = .error d m') :
    ∃ f : Fault, d = (Eval.active c bound x).foldl c.place f.diagnostic := by
  induction bound generalizing x d m' with
  | zero =>
    cases failed
    exact ⟨.depth c.limit, rfl⟩
  | succ bound ih =>
    rw [eval_succ, EvalM.nested] at failed
    unfold Eval.active
    split at failed
    · next full =>
      cases failed
      exact ⟨.depth c.limit, by rw [if_pos full]; rfl⟩
    · next free =>
      rw [if_neg free]
      let entered : Evaluation :=
        { x with memory := { x.memory with depth := x.memory.depth + 1 } }
      cases ended : Eval.step c (eval c bound) entered.expr entered.env entered.memory with
      | ok v m₁ =>
        rw [ended] at failed
        cases failed
      | error d₁ m₁ =>
        rw [ended] at failed
        cases failed
        obtain ⟨cause, explained, rfl⟩ := Eval.explained_step ended
        obtain ⟨f, placed⟩ : ∃ f : Fault, cause =
            (match Eval.failing (eval c bound) entered with
              | some y => Eval.active c bound y
              | none => []).foldl c.place f.diagnostic := by
          generalize Eval.failing (eval c bound) entered = inner at explained ⊢
          cases explained with
          | fault f => exact ⟨f, rfl⟩
          | inner failed => exact ih _ failed
        refine ⟨f, ?_⟩
        obtain ⟨e, env, m⟩ := x
        cases e with
        | list items tag origin =>
          cases tag with
          | code =>
            simp only [entered, List.foldl_append, ← placed, List.foldl_cons, List.foldl_nil,
              Context.place]
          | _ => exact placed
        | _ => exact placed

/-! ## The evaluations inside a domain -/

namespace Domain

open Eval

variable {D : Domain} {m₀ m : Memory} {ev : Evaluator} {env : FrameId} {x y : Evaluation}

/-- The evaluation begins inside the domain. -/
structure Begins (D : Domain) (m₀ : Memory) (x : Evaluation) : Prop where
  expr : D.expr x.expr
  frame : D.frame x.env
  memory : D.Inv m₀ x.memory

theorem begins_firstFailing (h : D.Respects m₀ ev) (frame : D.frame env) {exprs : List Value}
    (hexprs : ∀ e ∈ exprs, D.expr e) (inv : D.Inv m₀ m)
    (found : firstFailing ev env exprs m = some y) : D.Begins m₀ y := by
  induction exprs generalizing m with
  | nil => cases found
  | cons e exprs ih =>
    obtain ⟨he, rest⟩ := List.forall_mem_cons.1 hexprs
    have ends := h he frame m inv
    unfold firstFailing at found
    cases ended : ev e env m with
    | ok v m' =>
      rw [ended] at found ends
      exact ih rest ends.2 found
    | error d m' =>
      rw [ended] at found
      obtain rfl := Option.some.inj found
      exact ⟨he, frame, inv⟩

theorem begins_inBody (h : D.Respects m₀ ev) {f : Frame} (closed : D.Closed f)
    {exprs : List Value} (hexprs : ∀ e ∈ exprs, D.expr e) (inv : D.Inv m₀ m)
    (found : failingInBody ev f exprs m = some y) : D.Begins m₀ y := by
  have new : D.frame m.store.size := inv.1.fresh (Nat.le_refl _)
  have pushed : D.Inv m₀ { m with store := m.store.push f } := ⟨inv.1.push closed, inv.2⟩
  exact begins_firstFailing h new hexprs pushed found

theorem begins_inCall (h : D.Respects m₀ ev) {f : Value} (hf : D.value f) {args : List Value}
    (hargs : ∀ v ∈ args, D.value v) (inv : D.Inv m₀ m)
    (found : failingInCall ev f args m = some y) : D.Begins m₀ y := by
  unfold failingInCall at found
  split at found
  · next params exprs env =>
    obtain ⟨frame, hbody⟩ := D.body hf
    split at found
    · exact begins_inBody h (closed_callFrame frame params hargs) hbody inv found
    · cases found
  · cases found

theorem begins_inForm (h : D.Respects m₀ ev) (frame : D.frame env) {f : Form}
    (hexprs : ∀ e ∈ f.exprs, D.expr e) (inv : D.Inv m₀ m)
    (found : failingInForm ev env m f = some y) : D.Begins m₀ y := by
  unfold failingInForm at found
  split at found
  · next test consequent alternative =>
    obtain ⟨htest, hthen, helse⟩ :
        D.expr test ∧ D.expr consequent ∧ ∀ e ∈ alternative.toList, D.expr e := by
      simpa [Form.exprs] using hexprs
    have ends := h htest frame m inv
    cases ended : ev test env m with
    | ok v m' =>
      rw [ended] at found ends
      simp only at found
      split at found
      · exact begins_firstFailing h frame (List.forall_mem_singleton.2 hthen) ends.2 found
      · exact begins_firstFailing h frame helse ends.2 found
    | error d m' =>
      rw [ended] at found
      obtain rfl := Option.some.inj found
      exact ⟨htest, frame, inv⟩
  · exact begins_firstFailing h frame hexprs inv found
  · obtain ⟨hbindings, hbody⟩ := List.forall_mem_append.1 hexprs
    exact begins_inBody h (closed_letFrame frame hbindings) hbody inv found
  · cases found

theorem begins_inApplication (h : D.Respects m₀ ev) (frame : D.frame env) {items : List Value}
    (hitems : ∀ e ∈ items, D.expr e) (inv : D.Inv m₀ m)
    (found : failingInApplication ev env items m = some y) : D.Begins m₀ y := by
  have evaluated : Keeps (D.Inv m₀) (fun vs : List Value => ∀ v ∈ vs, D.value v)
      (items.mapM (ev · env)) := .mapM fun e member => h (hitems e member) frame
  have ends := evaluated m inv
  unfold failingInApplication at found
  split at found
  · next f args m' ended =>
    rw [ended] at ends
    obtain ⟨hf, hargs⟩ := List.forall_mem_cons.1 ends.1
    exact begins_inCall h hf hargs ends.2 found
  · cases found
  · exact begins_firstFailing h frame hitems inv found

theorem begins_inList (h : D.Respects m₀ ev) (frame : D.frame env) {items : List Value}
    {origin : Option NodeId} (he : D.expr (.list items .code origin)) (inv : D.Inv m₀ m)
    (found : failingInList ev env origin items m = some y) : D.Begins m₀ y := by
  unfold failingInList at found
  split at found
  · next headed => exact begins_inApplication h frame (D.expr_items he headed) inv found
  · next k headed =>
    split at found
    · next f parsed => exact begins_inForm h frame (D.expr_form he headed parsed) inv found
    · cases found

/-- What fails inside an evaluation inside the domain began inside the domain. -/
theorem begins_failing (h : D.Respects m₀ ev) (hx : D.Begins m₀ x)
    (found : failing ev x = some y) : D.Begins m₀ y := by
  obtain ⟨e, env, m⟩ := x
  cases e with
  | symbol name =>
    unfold failing at found
    simp only at found
    split at found
    · next e owner held =>
      obtain ⟨bound, oframe⟩ := hx.memory.1.lookup hx.frame held
      exact begins_firstFailing h oframe (List.forall_mem_singleton.2 bound) hx.memory found
    · cases found
  | list items tag origin =>
    cases tag with
    | code => exact begins_inList h hx.frame hx.expr hx.memory found
    | _ => cases found
  | _ => cases found

/-- What is under way are code lists of the domain. -/
theorem expr_of_mem_active {c : Context} {bound : Nat} (hx : D.Begins m₀ x) {v : Value}
    (member : v ∈ active c bound x) :
    D.expr v ∧ ∃ items origin, v = .list items .code origin := by
  induction bound generalizing x v with
  | zero => cases member
  | succ bound ih =>
    unfold active at member
    split at member
    · cases member
    · let entered : Evaluation :=
        { x with memory := { x.memory with depth := x.memory.depth + 1 } }
      have begun : D.Begins m₀ entered := ⟨hx.expr, hx.frame, hx.memory⟩
      have further : ∀ w ∈ (match failing (eval c bound) entered with
          | some y => active c bound y
          | none => []), D.expr w ∧ ∃ items origin, w = .list items .code origin := by
        intro w inside
        cases found : failing (eval c bound) entered with
        | none =>
          rw [found] at inside
          cases inside
        | some y =>
          rw [found] at inside
          exact ih (begins_failing (D.keeps_eval m₀ c bound) begun found) inside
      simp only at member
      split at member
      · next items origin isList =>
        rcases List.mem_append.1 member with inside | last
        · exact further v inside
        · rw [List.mem_singleton.1 last]
          exact ⟨hx.expr, items, origin, isList⟩
      · exact further v member

end Domain

end LazyLisp
