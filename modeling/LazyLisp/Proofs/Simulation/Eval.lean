import LazyLisp.Proofs.Simulation.Builtin

/-!
# Corresponding evaluations

The evaluator respects every simulation: corresponding expressions, evaluated in corresponding
frames of corresponding memories, have corresponding outcomes. One lemma for each part of the
evaluator, stated for any two evaluators of the expressions inside; `eval_related` closes the knot
by induction on the bound.
-/

namespace LazyLisp.Simulation

variable {S : Simulation}

/-! ## Special forms -/

/-- Forms of the same sort, made of corresponding expressions. -/
inductive Forms (S : Simulation) : Form → Form → Prop
  | quote {datum datum' : Value} : S.expr datum datum' → Forms S (.quote datum) (.quote datum')
  | define {e e' : Value} (name : String) :
    S.expr e e' → Forms S (.define name e) (.define name e')
  | lambda {body body' : List Value} (params : List String) :
    List.Forall₂ S.expr body body' → Forms S (.lambda params body) (.lambda params body')
  | ifThen {test test' consequent consequent' : Value} {alternative alternative' : Option Value} :
    S.expr test test' → S.expr consequent consequent' →
      Option.Rel S.expr alternative alternative' →
      Forms S (.ifThen test consequent alternative) (.ifThen test' consequent' alternative')
  | assign {e e' : Value} (name : String) :
    S.expr e e' → Forms S (.assign name e) (.assign name e')
  | letIn {bindings bindings' : List (String × Value)} {body body' : List Value} :
    List.Forall₂ (fun p q => p.1 = q.1 ∧ S.expr p.2 q.2) bindings bindings' →
      List.Forall₂ S.expr body body' → Forms S (.letIn bindings body) (.letIn bindings' body')

section Parsing

variable {e e' : Value} {args args' : List Value} {origin origin' : Option NodeId}

theorem paramNames_related (h : List.Forall₂ (Value.Like S.toRenaming) args args') :
    ExceptRel Eq (Form.paramNames args) (Form.paramNames args') := by
  have names : ExceptRel (List.Forall₂ Eq) (Form.paramNames args) (Form.paramNames args') := by
    refine ExceptRel.mapM h fun p p' hp => ?_
    have same := hp.display
    cases hp with
    | symbol name => exact .ok rfl
    | _ => simp only [same]; exact .error _
  rwa [List.forall₂_eq_eq_eq] at names

theorem letBinding_related (h : S.expr e e') :
    ExceptRel (fun p q => p.1 = q.1 ∧ S.expr p.2 q.2) (Form.letBinding e) (Form.letBinding e') := by
  have same := (S.expr_like h).display
  cases S.expr_like h with
  | list hitems _ =>
    have htail := S.expr_tail h
    obtain _ | ⟨hname, _ | ⟨_, _ | _⟩⟩ := hitems
    · simp only [Form.letBinding, same]; exact .error _
    · simp only [Form.letBinding, same]; exact .error _
    · have sameName := hname.display
      cases hname with
      | symbol name => exact .ok ⟨rfl, (List.forall₂_cons.1 htail).1⟩
      | _ => simp only [Form.letBinding, sameName]; exact .error _
    · simp only [Form.letBinding, same]; exact .error _
  | _ => simp only [Form.letBinding, same]; exact .error _

/-- The bindings of a `let`. A symbol among them is at fault, also one that heads them as a keyword
would. -/
theorem letBindings_related {tag : ListTag} (h : S.expr (.list args tag origin)
    (.list args' tag origin')) :
    ExceptRel (List.Forall₂ fun p q => p.1 = q.1 ∧ S.expr p.2 q.2) (args.mapM Form.letBinding)
      (args'.mapM Form.letBinding) := by
  cases S.expr_like h with
  | list hitems _ =>
    cases hitems with
    | nil => exact .ok .nil
    | cons hfirst hrest =>
      have plain := S.expr_items h
      cases hfirst with
      | symbol name =>
        simp only [List.mapM_cons]
        exact .error _
      | _ => exact ExceptRel.mapM (plain rfl) fun _ _ => letBinding_related

theorem parseDefine_related (horigin : S.origin origin origin')
    (h : List.Forall₂ S.expr args args') :
    ExceptRel S.Forms (Form.parseDefine origin args) (Form.parseDefine origin' args') := by
  obtain _ | ⟨htarget, hrest⟩ := h
  · exact .error _
  · cases S.expr_like htarget with
    | symbol name =>
      obtain _ | ⟨hvalue, _ | _⟩ := hrest
      · exact .error _
      · exact .ok (.define name hvalue)
      · exact .error _
    | list hitems _ =>
      have hparams := S.expr_tail htarget
      obtain _ | ⟨hname, _⟩ := hitems
      · exact .error _
      · cases hname with
        | symbol name =>
          cases hrest with
          | nil => exact .error _
          | cons first rest =>
            exact .ok (.define name (S.expr_lambda hparams (.cons first rest) horigin))
        | _ => exact .error _
    | _ => exact .error _

theorem parseLambda_related (h : List.Forall₂ S.expr args args') :
    ExceptRel S.Forms (Form.parseLambda args) (Form.parseLambda args') := by
  obtain _ | ⟨hparams, hbody⟩ := h
  · exact .error _
  · cases S.expr_like hparams with
    | list hitems _ =>
      refine (paramNames_related hitems).bind fun names names' same => ?_
      subst same
      cases hbody with
      | nil => exact .error _
      | cons first rest => exact .ok (.lambda names (.cons first rest))
    | _ => exact .error _

theorem parseLet_related (h : List.Forall₂ S.expr args args') :
    ExceptRel S.Forms (Form.parseLet args) (Form.parseLet args') := by
  obtain _ | ⟨hbindings, hbody⟩ := h
  · exact .error _
  · cases S.expr_like hbindings with
    | list _ _ =>
      cases hbody with
      | nil => exact .error _
      | cons first rest =>
        exact (letBindings_related hbindings).bind fun _ _ related =>
          .ok (.letIn related (.cons first rest))
    | _ => exact .error _

theorem parse_related (k : Keyword) (horigin : S.origin origin origin')
    (h : List.Forall₂ S.expr args args') :
    ExceptRel S.Forms (Form.parse k origin args) (Form.parse k origin' args') := by
  cases k with
  | quote =>
    obtain _ | ⟨hdatum, _ | ⟨_, hrest⟩⟩ := h
    · exact .error _
    · exact .ok (.quote hdatum)
    · simp only [Form.parse, List.length_cons, hrest.length_eq]; exact .error _
  | define => exact parseDefine_related horigin h
  | lambda => exact parseLambda_related h
  | ifThen =>
    obtain _ | ⟨htest, _ | ⟨hthen, _ | ⟨helse, _ | ⟨_, hrest⟩⟩⟩⟩ := h
    · exact .error _
    · exact .error _
    · exact .ok (.ifThen htest hthen .none)
    · exact .ok (.ifThen htest hthen (.some helse))
    · simp only [Form.parse, List.length_cons, hrest.length_eq]; exact .error _
  | assign =>
    obtain _ | ⟨htarget, _ | ⟨hvalue, _ | ⟨_, _⟩⟩⟩ := h
    · exact .error _
    · cases S.expr_like htarget <;> exact .error _
    · cases S.expr_like htarget with
      | symbol name => exact .ok (.assign name hvalue)
      | _ => exact .error _
    · cases S.expr_like htarget <;> exact .error _
  | letIn => exact parseLet_related h

end Parsing

/-! ## The evaluator -/

/-- Contexts with the same limit, whose trees place corresponding reports in corresponding ways. -/
structure Contexts (S : Simulation) (c c' : Context) : Prop where
  limit : c.limit = c'.limit
  annotate : ∀ {origin origin' d d'}, S.origin origin origin' → S.report d d' →
    S.report (c.annotate origin d) (c'.annotate origin' d')

/-- The evaluators have corresponding outcomes on corresponding expressions, where `depth`
evaluations are under way. -/
def Evaluators (S : Simulation) (depth : Nat) (ev ev' : Evaluator) : Prop :=
  ∀ ⦃e e' : Value⦄ ⦃env env' : FrameId⦄, S.expr e e' → S.frame env env' →
    S.Related depth S.value (ev e env) (ev' e' env')

section Evaluation

variable {depth : Nat} {ev ev' : Evaluator} {env env' : FrameId}

theorem callFrame_related (frame : S.frame env env') (params : List String)
    {args args' : List Value} (h : List.Forall₂ S.value args args') :
    S.Frames (Eval.callFrame env params args) (Eval.callFrame env' params args') := by
  have sets : ∀ {f f' : Frame} (params : List String), S.Frames f f' →
      S.Frames ((params.zip args).foldl (fun f p => f.set p.1 (.value p.2)) f)
        ((params.zip args').foldl (fun f p => f.set p.1 (.value p.2)) f') := by
    induction h with
    | nil => intro f f' params frames; simpa using frames
    | cons head _ ih =>
      intro f f' params frames
      cases params with
      | nil => simpa using frames
      | cons name params => exact ih params (frames.set fun _ => .value head)
  exact sets params ⟨.some frame, .nil⟩

theorem letFrame_related (frame : S.frame env env') {bindings bindings' : List (String × Value)}
    (h : List.Forall₂ (fun p q => p.1 = q.1 ∧ S.expr p.2 q.2) bindings bindings') :
    S.Frames (Eval.letFrame env bindings) (Eval.letFrame env' bindings') := by
  have sets : ∀ {f f' : Frame}, S.Frames f f' →
      S.Frames (bindings.foldl (fun f p => f.setNew p.1 (.deferred p.2)) f)
        (bindings'.foldl (fun f p => f.setNew p.1 (.deferred p.2)) f') := by
    induction h with
    | nil => exact fun frames => frames
    | @cons p q _ _ head _ ih =>
      intro f f' frames
      obtain ⟨name, e⟩ := p
      obtain ⟨name', e'⟩ := q
      obtain ⟨rfl, he⟩ : name = name' ∧ S.expr e e' := head
      exact ih (frames.setNew fun _ => .deferred he)
  exact sets ⟨.some frame, .nil⟩

theorem sequence_related (h : S.Evaluators depth ev ev') (frame : S.frame env env')
    {start start' : Value} (hstart : S.value start start') {exprs exprs' : List Value}
    (hexprs : List.Forall₂ S.expr exprs exprs') :
    S.Related depth S.value (Eval.sequence ev env start exprs)
      (Eval.sequence ev' env' start' exprs') :=
  Runs.foldlM hexprs hstart fun _ _ _ _ _ he => h he frame

theorem body_related (h : S.Evaluators depth ev ev') (frame : S.frame env env')
    {exprs exprs' : List Value} (hexprs : List.Forall₂ S.expr exprs exprs') :
    S.Related depth S.value (Eval.body ev env exprs) (Eval.body ev' env' exprs') := by
  cases hexprs with
  | nil => exact Related.raise _
  | cons first rest => exact sequence_related h frame (S.value_atom rfl) (.cons first rest)

theorem resolve_related (h : S.Evaluators depth ev ev') (frame : S.frame env env')
    {name : String} (seen : ¬ S.hidden name) :
    S.Related depth S.value (Eval.resolve ev env name) (Eval.resolve ev' env' name) := by
  refine (Related.lookup frame seen).bind fun found found' related => ?_
  obtain ⟨b, owner⟩ := found
  obtain ⟨b', owner'⟩ := found'
  obtain ⟨bound, oframe⟩ := related
  cases bound with
  | value hv => exact Runs.pure hv
  | deferred he => exact (h he oframe).bind fun v v' hv => Related.force oframe seen hv

theorem apply_related (h : S.Evaluators depth ev ev') {f f' : Value} (hf : S.value f f')
    {args args' : List Value} (hargs : List.Forall₂ S.value args args') :
    S.Related depth S.value (Eval.apply ev f args) (Eval.apply ev' f' args') := by
  have display := (S.value_like hf).display
  cases S.value_like hf with
  | builtin b => exact Related.callBuiltin b hargs
  | closure _ _ frame =>
    simp only [Eval.apply, hargs.length_eq]
    split
    · exact (Related.newFrame (callFrame_related frame _ hargs)).bind fun _ _ new =>
        body_related h new (S.value_body hf)
    · exact Related.raise _
  | _ => simp only [Eval.apply, display]; exact Related.raise _

theorem form_related (h : S.Evaluators depth ev ev') (frame : S.frame env env') {f f' : Form}
    (hf : S.Forms f f') :
    S.Related depth S.value (Eval.form ev env f) (Eval.form ev' env' f') := by
  cases hf with
  | quote hdatum => exact Runs.pure (S.expr_quoted hdatum)
  | define name he =>
    exact (Related.define frame fun _ => .deferred he).bind fun _ _ _ =>
      Runs.pure (S.value_atom rfl)
  | lambda params hbody => exact Related.newClosure params hbody frame
  | ifThen htest hthen helse =>
    refine (h htest frame).bind fun v v' hv => ?_
    rw [(S.value_like hv).truthy]
    split
    · exact h hthen frame
    · cases helse with
      | none => exact Runs.pure (S.value_atom rfl)
      | some he => exact h he frame
  | assign name he =>
    exact (h he frame).bind fun v v' hv => (Related.assign frame name hv).bind fun _ _ _ =>
      Runs.pure (S.value_atom rfl)
  | letIn hbindings hbody =>
    exact (Related.newFrame (letFrame_related frame hbindings)).bind fun _ _ new =>
      body_related h new hbody

theorem application_related (h : S.Evaluators depth ev ev') (frame : S.frame env env')
    {items items' : List Value} (hitems : List.Forall₂ S.expr items items') :
    S.Related depth S.value (Eval.application ev env items)
      (Eval.application ev' env' items') := by
  refine (Runs.mapM hitems fun _ _ he => h he frame).bind fun vs vs' hvs => ?_
  cases hvs with
  | nil => exact Related.raise _
  | cons hf hargs => exact apply_related h hf hargs

theorem codeList_related (h : S.Evaluators depth ev ev') (frame : S.frame env env')
    {origin origin' : Option NodeId} {items items' : List Value}
    (he : S.expr (.list items .code origin) (.list items' .code origin')) :
    S.Related depth S.value (Eval.codeList ev env origin items)
      (Eval.codeList ev' env' origin' items') := by
  have plain := S.expr_items he
  have hargs := S.expr_tail he
  cases S.expr_like he with
  | list hitems horigin =>
    obtain _ | ⟨hhead, _⟩ := hitems
    · exact application_related h frame .nil
    · cases hhead with
      | symbol name =>
        simp only [Eval.codeList]
        cases keyword : Keyword.ofName? name with
        | none => exact application_related h frame (plain keyword)
        | some k =>
          have parsed := parse_related k horigin hargs
          simp only [List.tail_cons] at parsed
          obtain ⟨f, f', e, e', hf⟩ | ⟨m, e, e'⟩ := parsed.cases
          · simp only [e, e']
            exact form_related h frame hf
          · simp only [e, e']
            exact Related.raise _
      | _ => exact application_related h frame (plain rfl)

theorem step_related {c c' : Context} (contexts : S.Contexts c c')
    (h : S.Evaluators depth ev ev') :
    S.Evaluators depth (Eval.step c ev) (Eval.step c' ev') := by
  intro e e' env env' he frame
  have self := S.expr_self he
  cases S.expr_like he with
  | symbol name => exact resolve_related h frame (S.expr_symbol he)
  | @list items items' tag origin origin' _ horigin =>
    cases tag with
    | code =>
      exact (codeList_related h frame he).adaptExcept fun _ _ related =>
        contexts.annotate horigin related
    | _ => exact Runs.pure (self (by simp) (by simp))
  | _ => exact Runs.pure (self (by simp) (by simp))

/-- **The evaluator respects every simulation.** The bounds may differ where both are enough for the
evaluations that the limit still allows. -/
theorem eval_related {c c' : Context} (contexts : S.Contexts c c') {bound bound' depth : Nat}
    (bounds : min bound (c.limit - depth) = min bound' (c.limit - depth)) :
    S.Evaluators depth (eval c bound) (eval c' bound') := by
  induction bound generalizing bound' depth with
  | zero =>
    intro e e' env env' he frame
    cases bound' with
    | zero => simp only [eval_zero, contexts.limit]; exact Related.raise _
    | succ bound' =>
      intro m m' memories
      have full : c'.limit ≤ m'.depth := by
        rw [memories.depths.2, ← contexts.limit]
        omega
      simp only [eval_zero, eval_succ, EvalM.nested_of_full full, contexts.limit]
      exact Related.raise _ m m' memories
  | succ bound ih =>
    intro e e' env env' he frame
    cases bound' with
    | zero =>
      intro m m' memories
      have full : c'.limit ≤ m.depth := by
        rw [memories.depths.1, ← contexts.limit]
        omega
      simp only [eval_zero, eval_succ, contexts.limit, EvalM.nested_of_full full]
      exact Related.raise _ m m' memories
    | succ bound' =>
      simp only [eval_succ, contexts.limit]
      refine Related.nested _ fun free => step_related contexts (ih ?_) he frame
      rw [← contexts.limit] at free
      omega

/-- A program is not applied, so no keyword heads it: all its forms must correspond. -/
theorem program_related (h : S.Evaluators depth ev ev') (frame : S.frame env env')
    {program program' : Value} (hprogram : S.expr program program')
    (hforms : ∀ {items items' tag origin origin'}, S.expr (.list items tag origin)
      (.list items' tag origin') → List.Forall₂ S.expr items items') :
    S.Related depth S.value (Eval.program ev program env) (Eval.program ev' program' env') := by
  have whole := h hprogram frame
  cases S.expr_like hprogram with
  | list _ _ => exact sequence_related h frame (S.value_atom rfl) (hforms hprogram)
  | _ => exact whole

end Evaluation

end LazyLisp.Simulation
