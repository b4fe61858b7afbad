import LazyLisp.Proofs.CodeAndData
import LazyLisp.Proofs.FrameStore

/-!
# Frames are made and never lost

Evaluation keeps the store well formed and only extends it, also where it fails. So when a deferred
expression has been evaluated, its owner still binds the name.

To say this of every call inside a run, the run is compared with a watched one. The watched
evaluator leaves to arbitrary `Traps` each evaluation and each function call that does not begin in
a well-formed memory with frames that exist, or does not leave one that extends it; and each
settling of a name that its owner no longer binds. The two runs are the same: no trap is used.
-/

namespace LazyLisp

open EvalM

/-! ## Evaluation with other ways to call and to settle -/

namespace Eval

/-- `resolve`, with `settle` in place of `force`. -/
def resolveBy (settle : FrameId → String → Value → EvalM Value) (ev : Evaluator) (env : FrameId)
    (name : String) : EvalM Value := do
  match ← lookup env name with
  | (.value v, _) => return v
  | (.deferred e, owner) => settle owner name (← ev e owner)

/-- `application`, with `call` in place of `apply`. -/
def applicationBy (call : Value → List Value → EvalM Value) (ev : Evaluator) (env : FrameId)
    (items : List Value) : EvalM Value := do
  match ← items.mapM (ev · env) with
  | [] => raise .emptyApplication
  | f :: args => call f args

/-- `step`, with `call` in place of `apply` and `settle` in place of `force`. -/
def stepBy (call : Value → List Value → EvalM Value)
    (settle : FrameId → String → Value → EvalM Value) (c : Context) (ev : Evaluator) : Evaluator :=
  fun e env =>
    match e with
    | .symbol name => resolveBy settle ev env name
    | .list items .code origin =>
      EStateM.adaptExcept (c.annotate origin)
        (match Keyword.ofItems? items with
        | none => applicationBy call ev env items
        | some k =>
          match Form.parse k origin items.tail with
          | .ok f => form ev env f
          | .error m => raise (.misshape m))
    | e => return e

theorem step_eq (c : Context) (ev : Evaluator) : step c ev = stepBy (apply ev) force c ev := by
  funext e env
  cases e with
  | list items tag origin =>
    cases tag with
    | code =>
      simp only [step, stepBy, codeList_eq]
      rfl
    | _ => rfl
  | _ => rfl

end Eval

/-! ## The watched evaluator -/

/-- What is done in place of a call that breaks the rules. -/
structure Traps where
  eval : Evaluator
  apply : Value → List Value → EvalM Value
  force : FrameId → String → Value → EvalM Value

/-- The expression may be evaluated in the frame: the memory is well formed, the frame exists and so
do those that closures in the expression were made in. -/
structure Evaluable (e : Value) (env : FrameId) (m : Memory) : Prop where
  memory : m.WellFormed
  frame : env < m.store.size
  expr : e.Within m.store

/-- The function may be called with the arguments. -/
structure Callable (f : Value) (args : List Value) (m : Memory) : Prop where
  memory : m.WellFormed
  function : f.Within m.store
  arguments : ∀ v ∈ args, v.Within m.store

open Classical in
/-- The computation, left to `trap` where it may not begin or does not end in a memory that extends
the one it began in, with a value from there. -/
noncomputable def EvalM.watched (allowed : Memory → Prop) (trap act : EvalM Value) : EvalM Value :=
  fun m => if allowed m ∧ m.Built Value.Within (act m) then act m else trap m

/-- Calls under watch. -/
noncomputable def Traps.call (t : Traps) (ev : Evaluator) (f : Value) (args : List Value) :
    EvalM Value :=
  watched (Callable f args) (t.apply f args) (Eval.apply ev f args)

/-- Settling under watch: the name must be bound. -/
def Traps.settle (t : Traps) (owner : FrameId) (name : String) (v : Value) : EvalM Value := do
  if (← get).store.binds owner name then EvalM.force owner name v else t.force owner name v

/-- `eval`, with every evaluation and every call, at any depth, under watch. -/
noncomputable def evalWatched (t : Traps) (c : Context) : (bound : Nat) → Evaluator
  | 0 => fun e env => watched (Evaluable e env) (t.eval e env) (raise (.depth c.limit))
  | bound + 1 => fun e env =>
    let ev := evalWatched t c bound
    watched (Evaluable e env) (t.eval e env)
      (nested c.limit (Eval.stepBy (t.call ev) t.settle c ev e env))

/-! ## No trap is used -/

theorem Agrees.watched {s : Store} {x y : EvalM Value} {allowed : Memory → Prop}
    (h : Agrees s Value.Within x y)
    (may : ∀ m : Memory, m.WellFormed → s.Extends m.store → allowed m) (trap : EvalM Value) :
    Agrees s Value.Within (EvalM.watched allowed trap x) y := by
  intro m wellFormed grown
  obtain ⟨equal, built⟩ := h m wellFormed grown
  refine ⟨?_, built⟩
  rw [EvalM.watched, equal, if_pos ⟨may m wellFormed grown, built⟩]

/-- On expressions and frames that exist the evaluators do the same, and leave well-formed memories
that extend those they began in. -/
def Watches (ev ev' : Evaluator) : Prop :=
  ∀ ⦃s : Store⦄ ⦃e : Value⦄ ⦃env : FrameId⦄, env < s.size → e.Within s →
    Agrees s Value.Within (ev e env) (ev' e env)

namespace Watches

variable {ev ev' : Evaluator} {s : Store} {env : FrameId}

theorem sequence (h : Watches ev ev') (frame : env < s.size) {start : Value} {exprs : List Value}
    (hstart : start.Within s) (hexprs : ∀ e ∈ exprs, e.Within s) :
    Agrees s Value.Within (Eval.sequence ev env start exprs)
      (Eval.sequence ev' env start exprs) := by
  unfold Eval.sequence
  induction exprs generalizing s start with
  | nil => exact .pure fun _ grown => hstart.mono grown
  | cons e exprs ih =>
    obtain ⟨first, rest⟩ := List.forall_mem_cons.1 hexprs
    rw [List.foldlM_cons, List.foldlM_cons]
    refine (h frame first).bind fun s' v grown hv => ?_
    exact ih (grown.lt_size frame) hv fun e member => (rest e member).mono grown

theorem body (h : Watches ev ev') (frame : env < s.size) {exprs : List Value}
    (hexprs : ∀ e ∈ exprs, e.Within s) :
    Agrees s Value.Within (Eval.body ev env exprs) (Eval.body ev' env exprs) := by
  cases exprs with
  | nil => exact .raise _
  | cons e exprs => exact h.sequence frame (Value.within_atom rfl) hexprs

/-- The owner of a deferred binding still binds the name after its expression was evaluated. -/
theorem resolve (h : Watches ev ev') (t : Traps) (name : String) :
    Agrees s Value.Within (Eval.resolveBy t.settle ev env name)
      (Eval.resolve ev' env name) := by
  refine (Agrees.lookup env name).bind fun s₁ found _ inside => ?_
  obtain ⟨b, owner⟩ := found
  obtain ⟨bound, frame, binds⟩ := inside
  cases b with
  | value v => exact .pure fun _ grown => Value.Within.mono bound grown
  | deferred e =>
    refine (h frame bound).bind fun s₂ v grown hv m wellFormed grown' => ?_
    have still : m.store.binds owner name = true := (grown.trans grown').binds binds
    have settled : t.settle owner name v m = EvalM.force owner name v m := by
      change (if m.store.binds owner name then _ else _ : EvalM Value) m = _
      rw [if_pos still]
    rw [settled]
    exact Agrees.force owner name hv m wellFormed grown'

theorem apply (h : Watches ev ev') {f : Value} (hf : f.Within s) {args : List Value}
    (hargs : ∀ v ∈ args, v.Within s) :
    Agrees s Value.Within (Eval.apply ev f args) (Eval.apply ev' f args) := by
  cases f with
  | builtin b => exact .callBuiltin b hargs
  | closure id params exprs env =>
    obtain ⟨frame, hbody⟩ := Value.capturedIn_closure_iff.1 hf
    have inside : ∀ v ∈ args, (Domain.ofFrames (· < s.size)).value v := fun v member =>
      Domain.ofFrames_value_iff.2 (hargs v member)
    simp only [Eval.apply]
    split
    · refine (Agrees.newFrame (Domain.closed_callFrame frame params inside)).bind
        fun s' new grown fresh => ?_
      exact h.body fresh fun e member => Value.Within.mono (hbody e member) grown
    · exact .raise _
  | _ => exact .raise _

theorem call (h : Watches ev ev') (t : Traps) {f : Value} (hf : f.Within s) {args : List Value}
    (hargs : ∀ v ∈ args, v.Within s) :
    Agrees s Value.Within (t.call ev f args) (Eval.apply ev' f args) :=
  (h.apply hf hargs).watched (fun _ wellFormed grown =>
    ⟨wellFormed, hf.mono grown, fun v member => (hargs v member).mono grown⟩) _

theorem form (h : Watches ev ev') (frame : env < s.size) {f : Form}
    (hexprs : ∀ e ∈ f.exprs, e.Within s)
    (hquoted : ∀ datum, f = .quote datum → datum.quoted.Within s) :
    Agrees s Value.Within (Eval.form ev env f) (Eval.form ev' env f) := by
  cases f with
  | quote datum => exact .pure fun _ grown => (hquoted datum rfl).mono grown
  | define name e =>
    have deferred : e.Within s := hexprs e (by simp [Form.exprs])
    exact (Agrees.define (b := .deferred e) env name deferred).bind fun _ _ _ _ =>
      .pure fun _ _ => Value.within_atom rfl
  | lambda params body => exact .newClosure params hexprs frame
  | ifThen test consequent alternative =>
    obtain ⟨htest, hthen, helse⟩ :
        test.Within s ∧ consequent.Within s ∧ ∀ e ∈ alternative.toList, e.Within s := by
      simpa [Form.exprs] using hexprs
    refine (h frame htest).bind fun s' v grown _ => ?_
    split
    · exact h (grown.lt_size frame) (hthen.mono grown)
    · cases alternative with
      | none => exact .pure fun _ _ => Value.within_atom rfl
      | some e => exact h (grown.lt_size frame) ((helse e (by simp)).mono grown)
  | assign name e =>
    have he : e.Within s := hexprs e (by simp [Form.exprs])
    refine (h frame he).bind fun s' v _ hv => ?_
    exact (Agrees.assign env name hv).bind fun _ _ _ _ => .pure fun _ _ => Value.within_atom rfl
  | letIn bindings body =>
    obtain ⟨hbindings, hbody⟩ := List.forall_mem_append.1 hexprs
    have closed : (Domain.ofFrames (· < s.size)).Closed (Eval.letFrame env bindings) :=
      Domain.closed_letFrame frame hbindings
    refine (Agrees.newFrame closed).bind fun s' new grown fresh => ?_
    exact h.body fresh fun e member => (hbody e member).mono grown

theorem program (h : Watches ev ev') (frame : env < s.size) {program : Value}
    (hprogram : program.Within s) :
    Agrees s Value.Within (Eval.program ev program env) (Eval.program ev' program env) := by
  cases program with
  | list forms tag origin =>
    exact h.sequence frame (Value.within_atom rfl) (Value.capturedIn_list_iff.1 hprogram)
  | _ => exact h frame hprogram

theorem application (h : Watches ev ev') (t : Traps) (frame : env < s.size) {items : List Value}
    (hitems : ∀ e ∈ items, e.Within s) :
    Agrees s Value.Within (Eval.applicationBy (t.call ev) ev env items)
      (Eval.applicationBy (Eval.apply ev') ev' env items) := by
  refine (Agrees.mapM fun s' e grown member => ?_).bind fun s' vs grown hvs => ?_
  · exact h (grown.lt_size frame) ((hitems e member).mono grown)
  · cases vs with
    | nil => exact .raise _
    | cons f args =>
      obtain ⟨hf, hargs⟩ := List.forall_mem_cons.1 hvs
      exact h.call t hf hargs

theorem step (h : Watches ev ev') (t : Traps) (c : Context) :
    Watches (Eval.stepBy (t.call ev) t.settle c ev) (Eval.step c ev') := by
  intro s e env frame he
  rw [Eval.step_eq]
  cases e with
  | symbol name => exact h.resolve t name
  | list items tag origin =>
    cases tag with
    | code =>
      refine Agrees.adaptExcept ?_ _
      let D := Domain.ofFrames (· < s.size)
      cases headed : Keyword.ofItems? items with
      | none => exact h.application t frame (D.expr_items he headed)
      | some k =>
        simp only
        cases parsed : Form.parse k origin items.tail with
        | error m => exact .raise _
        | ok f =>
          refine h.form frame (D.expr_form he headed parsed) fun datum quotes => ?_
          rw [quotes] at parsed
          exact Domain.ofFrames_value_iff.1 (D.expr_quoted he headed parsed)
    | _ => exact .pure fun _ grown => he.mono grown
  | _ => exact .pure fun _ grown => he.mono grown

end Watches

/-- **The watch is never used.** -/
theorem evalWatched_watches (t : Traps) (c : Context) (bound : Nat) :
    Watches (evalWatched t c bound) (eval c bound) := by
  have may : ∀ {s : Store} {e : Value} {env : FrameId}, env < s.size → e.Within s →
      ∀ m : Memory, m.WellFormed → s.Extends m.store → Evaluable e env m :=
    fun frame he m wellFormed grown => ⟨wellFormed, grown.lt_size frame, he.mono grown⟩
  induction bound with
  | zero => exact fun s e env frame he => Agrees.watched (.raise _) (may frame he) _
  | succ bound ih =>
    exact fun s e env frame he => Agrees.watched ((ih.step t c frame he).nested c.limit)
      (may frame he) _

/-- Evaluation beside itself; whatever the traps, what is said of it is the same. -/
theorem eval_watches (c : Context) (bound : Nat) : Watches (eval c bound) (eval c bound) := by
  intro s e env frame he m wellFormed grown
  have watched := evalWatched_watches ⟨eval c bound, Eval.apply (eval c bound), EvalM.force⟩ c bound
  exact ⟨rfl, (watched frame he m wellFormed grown).2⟩

section

variable (c : Context) (bound : Nat) {m : Memory}

theorem built_eval {e : Value} {env : FrameId} (h : Evaluable e env m) :
    m.Built Value.Within (eval c bound e env m) :=
  (eval_watches c bound h.frame h.expr m h.memory (.refl m.store)).2

theorem built_apply {f : Value} {args : List Value} (h : Callable f args m) :
    m.Built Value.Within (Eval.apply (eval c bound) f args m) :=
  ((eval_watches c bound).apply h.function h.arguments m h.memory (.refl m.store)).2

theorem built_program {program : Value} {env : FrameId} (h : Evaluable program env m) :
    m.Built Value.Within (evalProgram c bound program env m) :=
  ((eval_watches c bound).program h.frame h.expr m h.memory (.refl m.store)).2

/-- When a deferred binding is settled, its owner still binds the name. -/
theorem binds_of_forced (wellFormed : m.WellFormed) {env owner : FrameId} {name : String}
    {e v : Value} {m' : Memory} (found : m.store.lookup? env name = some (.deferred e, owner))
    (ended : eval c bound e owner m = .ok v m') : m'.store.binds owner name = true := by
  obtain ⟨expr, frame, binds⟩ := wellFormed.store.lookup found
  have built := built_eval c bound ⟨wellFormed, frame, expr⟩
  rw [ended] at built
  exact built.1.store.binds binds

end

/-! ## Sessions -/

theorem Value.IsCode.within {e : Value} (h : e.IsCode) (s : Store) : e.Within s := by
  induction h with
  | int n => exact Value.within_atom rfl
  | symbol name => exact Value.within_atom rfl
  | list _ ih => exact capturedIn_list_iff.2 ih

namespace Session

/-- The memory is well formed and has the global frame. -/
structure WellFormed (s : Session) : Prop where
  memory : s.memory.WellFormed
  global : s.global < s.memory.store.size

/-- What a call has left that began in `m`: a well-formed session whose frames extend those of `m`,
and a value, if any, whose closures were made in them. -/
structure Outcome.Built (m : Memory) (outcome : Outcome Value) : Prop where
  memory : m.Extends outcome.2.memory
  global : outcome.2.global < outcome.2.memory.store.size
  value : ∀ v, outcome.1 = .ok v → v.Within outcome.2.memory.store

variable {s : Session}

theorem Outcome.Built.wellFormed {m : Memory} {outcome : Outcome Value}
    (h : Outcome.Built m outcome) : outcome.2.WellFormed :=
  ⟨h.memory.wellFormed, h.global⟩

theorem built_perform (h : s.WellFormed) {act : EvalM Value}
    (built : s.memory.Built Value.Within (act s.memory)) :
    Outcome.Built s.memory (s.perform act) := by
  rw [perform_eq]
  cases ended : act s.memory with
  | ok v m =>
    rw [ended] at built
    refine ⟨built.1, built.1.store.lt_size h.global, fun w same => ?_⟩
    obtain rfl := Except.ok.inj same
    exact built.2
  | error d m =>
    rw [ended] at built
    exact ⟨built, built.store.lt_size h.global, fun w same => by cases same⟩

/-- A program that was read may be evaluated. -/
theorem evaluable_of_readProgram (h : s.WellFormed) {source : String} {program : Value}
    {tree : SourceTree} (read : Reader.readProgram source s.tree = .ok program tree) :
    Evaluable program s.global s.memory :=
  ⟨h.memory, h.global, (Reader.isCode_of_readProgram read).within s.memory.store⟩

theorem built_evalSource (h : s.WellFormed) (source : String) :
    Outcome.Built s.memory (s.evalSource source) := by
  rw [evalSource_eq]
  cases read : Reader.readProgram source s.tree with
  | error d tree => exact ⟨h.memory.extends_self, h.global, fun v same => by cases same⟩
  | ok program tree =>
    have evaluable := evaluable_of_readProgram h read
    have start : Session.WellFormed { s with tree } := ⟨h.memory, h.global⟩
    exact built_perform start (built_program ⟨s.limit, tree⟩ s.limit evaluable)

theorem built_evalAndShow (h : s.WellFormed) (source : String) :
    Outcome.Built s.memory (s.evalAndShow source) := by
  have built := built_evalSource h source
  rw [evalAndShow_eq]
  cases ended : (s.evalSource source).1 with
  | error d => exact ⟨built.memory, built.global, fun v same => by cases same⟩
  | ok v =>
    have within := built.value v ended
    refine ⟨built.memory.trans (built.memory.wellFormed.extends_emit within), built.global, ?_⟩
    intro w same
    obtain rfl := Except.ok.inj same
    exact within

theorem extends_reset (h : s.memory.WellFormed) : s.memory.Extends s.reset.memory :=
  have pushed := h.withStore (s.memory.store.extends_push _) (h.store.push (Domain.closed_root _))
  ⟨pushed.store, pushed.wellFormed.store, pushed.wellFormed.output⟩

theorem wellFormed_reset (h : s.memory.WellFormed) : s.reset.WellFormed where
  memory := (extends_reset h).wellFormed
  global := by
    change s.memory.store.size < (s.memory.store.push _).size
    simp

theorem wellFormed_new (limit : Nat) : (Session.new limit).WellFormed := by
  have empty : Store.WellFormed {} :=
    ⟨fun found => by simp [Store.get?] at found, fun found => by simp [Store.get?] at found⟩
  exact ⟨⟨empty.push (Domain.closed_root _), by simp [Session.new]⟩, Nat.zero_lt_one⟩

theorem built_run (h : s.WellFormed) (source : String) : Outcome.Built s.memory (s.run source) := by
  have built := built_evalAndShow (wellFormed_reset h.memory) source
  exact ⟨(extends_reset h.memory).trans built.memory, built.global, built.value⟩

theorem built_runBytes (h : s.WellFormed) (bytes : List UInt8) :
    Outcome.Built s.memory (s.runBytes bytes) := by
  unfold runBytes
  cases Utf8.decode bytes with
  | error d => exact ⟨h.memory.extends_self, h.global, fun v same => by cases same⟩
  | ok source => exact built_run h source

/-- Every call leaves a well-formed session that extends the one before. -/
theorem built_call (h : s.WellFormed) (c : Call) :
    s.memory.Extends (s.call c).2.memory ∧ (s.call c).2.WellFormed ∧
      ∀ v, (s.call c).1 = some (.ok v) → v.Within (s.call c).2.memory.store := by
  have outcome : ∀ {o : Outcome Value}, Outcome.Built s.memory o → s.memory.Extends o.2.memory ∧
      o.2.WellFormed ∧ ∀ v, some o.1 = some (.ok v) → v.Within o.2.memory.store :=
    fun built => ⟨built.memory, built.wellFormed, fun v same =>
      built.value v (Option.some.inj same)⟩
  cases c with
  | run source => exact outcome (built_run h source)
  | runBytes bytes => exact outcome (built_runBytes h bytes)
  | evalSource source => exact outcome (built_evalSource h source)
  | reset => exact ⟨extends_reset h.memory, wellFormed_reset h.memory, fun v same => by cases same⟩

/-- **The store of frames stays well formed and only grows.** After any calls on a new session,
whether they succeeded or not, every frame lies inside an older one, closures in bindings and among
the values shown were made in frames that exist, and so does the global frame. The next call keeps
all frames, each inside its parent and with its names, and gives a value of the same sort. Whatever
source is evaluated next, this holds of every evaluation and every function call in the course of
it, from where it begins to where it ends or fails, and no name is settled that its owner does not
bind: to leave anything else to arbitrary traps makes no difference. For, from every well-formed
memory, evaluations and calls that begin with frames that exist lead to a well-formed memory that
extends it. There a deferred binding is still bound when its expression has been evaluated, and from
every frame the way outward ends at a root, past ever older frames; a name is looked up and assigned
at the first of them that binds it. -/
theorem frames_only_grow (limit : Nat) (calls : List Call) :
    let s := (Session.new limit).after calls
    (s.WellFormed ∧ ∀ c, s.memory.Extends (s.call c).2.memory ∧ (s.call c).2.WellFormed ∧
        ∀ v, (s.call c).1 = some (.ok v) → v.Within (s.call c).2.memory.store) ∧
      (∀ source program tree, Reader.readProgram source s.tree = .ok program tree →
        Evaluable program s.global s.memory ∧
          ∀ t, Eval.program (evalWatched t ⟨s.limit, tree⟩ s.limit) program s.global s.memory =
            LazyLisp.evalProgram ⟨s.limit, tree⟩ s.limit program s.global s.memory) ∧
      ∀ (c : Context) (bound : Nat) (m : Memory),
        (∀ e env, Evaluable e env m → m.Built Value.Within (LazyLisp.eval c bound e env m) ∧
          m.Built Value.Within (LazyLisp.evalProgram c bound e env m)) ∧
        (∀ f args, Callable f args m →
          m.Built Value.Within (Eval.apply (LazyLisp.eval c bound) f args m)) ∧
        (m.WellFormed →
          (∀ env name e owner v m', m.store.lookup? env name = some (.deferred e, owner) →
            LazyLisp.eval c bound e owner m = .ok v m' → m'.store.binds owner name = true) ∧
          ∀ id < m.store.size, ∃ path, m.store.Chain id path ∧ path.Pairwise (· > ·) ∧
            ∀ name, m.store.owner? id name = path.find? (m.store.binds · name)) := by
  intro s
  have wellFormed : s.WellFormed :=
    after_preserves (P := WellFormed) (fun _ c h => (built_call h c).2.1) (wellFormed_new limit)
      calls
  refine ⟨⟨wellFormed, built_call wellFormed⟩, fun source program tree read => ?_,
    fun c bound m => ⟨fun e env may => ⟨built_eval c bound may, built_program c bound may⟩,
      fun f args may => built_apply c bound may, fun sound => ⟨?_, fun id old => ?_⟩⟩⟩
  · have may := evaluable_of_readProgram wellFormed read
    have watches := fun t => evalWatched_watches t ⟨s.limit, tree⟩ s.limit
    exact ⟨may, fun t =>
      ((watches t).program may.frame may.expr s.memory may.memory (.refl _)).1⟩
  · exact fun _ _ _ _ _ _ found ended => binds_of_forced c bound sound found ended
  · obtain ⟨path, chain⟩ := sound.store.exists_chain old
    exact ⟨path, chain, chain.pairwise sound.store, chain.owner?⟩

/-- The expression bound to `x` calls a function that makes another inside the frame of the call.
When it has been evaluated, `x` is still bound, and the function made may be called. -/
theorem frames_only_grow_closure :
    let s := (Session.new 9).after [.evalSource "(define x ((lambda (y) (lambda () y)) (quote z)))"]
    s.WellFormed ∧ ∃ program tree, Reader.readProgram "(x)" s.tree = .ok program tree ∧
      Evaluable program s.global s.memory ∧
      (∀ t, Eval.program (evalWatched t ⟨s.limit, tree⟩ s.limit) program s.global s.memory =
        LazyLisp.evalProgram ⟨s.limit, tree⟩ s.limit program s.global s.memory) ∧
      ∃ e owner v m', s.memory.store.lookup? s.global "x" = some (.deferred e, owner) ∧
        LazyLisp.eval s.context s.limit e owner s.memory = .ok v m' ∧
        m'.store.binds owner "x" = true ∧ Callable v [] m' ∧ 1 < m'.store.size ∧
        m'.Built Value.Within (Eval.apply (LazyLisp.eval s.context s.limit) v [] m') ∧
        ∃ path, m'.store.Chain 1 path ∧ path.Pairwise (· > ·) ∧
          ∀ name, m'.store.owner? 1 name = path.find? (m'.store.binds · name) := by
  have facts :
      let s := (Session.new 9).after
        [.evalSource "(define x ((lambda (y) (lambda () y)) (quote z)))"]
      (Reader.readProgram "(x)" s.tree matches .ok _ _) = true ∧
        (match s.memory.store.lookup? s.global "x" with
        | some (.deferred e, owner) =>
          match LazyLisp.eval s.context s.limit e owner s.memory with
          | .ok _ m' => decide (1 < m'.store.size)
          | _ => false
        | none | some (.value _, _) => false) = true := ⟨by decide +kernel, by decide +kernel⟩
  have grow :=
    frames_only_grow 9 [.evalSource "(define x ((lambda (y) (lambda () y)) (quote z)))"]
  -- the session itself is not to be computed again
  generalize (Session.new 9).after
    [.evalSource "(define x ((lambda (y) (lambda () y)) (quote z)))"] = s at facts grow ⊢
  obtain ⟨reads, shape⟩ := facts
  obtain ⟨⟨wellFormed, -⟩, sources, memories⟩ := grow
  cases read : Reader.readProgram "(x)" s.tree with
  | error d tree =>
    rw [read] at reads
    cases reads
  | ok program tree =>
    obtain ⟨may, watched⟩ := sources "(x)" program tree read
    refine ⟨wellFormed, program, tree, read, may, watched, ?_⟩
    split at shape
    · rename_i e owner found
      split at shape
      · rename_i v m' ended
        have made : 1 < m'.store.size := of_decide_eq_true shape
        obtain ⟨evaluations, -, settles⟩ := memories s.context s.limit s.memory
        have binds := (settles wellFormed.memory).1 _ _ _ _ _ _ found ended
        obtain ⟨expr, frame, -⟩ := wellFormed.memory.store.lookup found
        have built := (evaluations e owner ⟨wellFormed.memory, frame, expr⟩).1
        rw [ended] at built
        have callable : Callable v [] m' := ⟨built.1.wellFormed, built.2, by simp⟩
        obtain ⟨-, calls, ways⟩ := memories s.context s.limit m'
        exact ⟨e, owner, v, m', found, ended, binds, callable, made, calls v [] callable,
          (ways callable.memory).2 1 made⟩
      · cases shape
    all_goals cases shape

end Session

end LazyLisp
