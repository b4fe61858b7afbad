import LazyLisp.Proofs.Shape
import LazyLisp.Proofs.UnusedDefinition

/-!
# Defining a function

`(define (f params...) body...)` stands for `(define f (lambda (params...) body...))`. Both store a
`lambda` form under the name, and evaluate nothing of it: the one builds it, the other has it in
writing, and the two differ in origins alone. So whatever a session is asked afterwards, however
often, it answers alike but for the places of reports. That the parameters may not be symbols, or
that no evaluation may be left, is found out in both cases at the same point.

This rests on what sessions that agree but for origins have in common: they go on agreeing, call
after call.
-/

namespace LazyLisp

/-! ## Sessions up to origins -/

/-- The same source, read into two trees: the nodes are others, the forms are alike. -/
def Reader.Correspondence.anyTree : Reader.Correspondence where
  node _ _ := True
  tree _ _ := True
  value := Value.Like .anyOrigin
  tree_next _ := trivial
  tree_push _ _ _ := trivial
  tree_close _ _ _ _ := trivial
  value_int := .int
  value_symbol := .symbol
  value_list items _ := .list items trivial
  value_name h := by cases h <;> rfl

namespace Session

variable {s s' : Session}

theorem bare_eq_iff : s.bare = s'.bare ↔ s.limit = s'.limit ∧ s.memory.bare = s'.memory.bare ∧
    s.global = s'.global ∧ s.nextTree = s'.nextTree := by
  simp [Session.bare]

theorem bare_evalSource (states : s.bare = s'.bare) (source : String) :
    Outcome.bare (s.evalSource source) = Outcome.bare (s'.evalSource source) := by
  have global : s.global = s'.global := (bare_eq_iff.1 states).2.2.1
  have outcomes :=
    Reader.Correspondence.anyTree.readProgram_related source s.tree s'.tree trivial
  rw [evalSource_eq, evalSource_eq]
  obtain ⟨v, v', t, t', e, e', programs, -⟩ | ⟨d, d', t, t', e, e', reports, -⟩ := outcomes.cases
  · rw [e, e']
    have read : Session.bare { s with tree := t } = Session.bare { s' with tree := t' } := states
    exact bare_perform read (Simulation.program_related (evaluators_of_bare read) global programs
      fun alike => by cases alike with | list items _ => exact items)
  · rw [e, e', reports]
    exact Prod.ext rfl states

theorem bare_reset (states : s.bare = s'.bare) : s.reset.bare = s'.reset.bare := by
  obtain ⟨limit, memory, -, nextTree⟩ := bare_eq_iff.1 states
  simp only [Memory.bare, Memory.mk.injEq, Store.mk.injEq] at memory
  obtain ⟨frames, closures, output, -⟩ := memory
  have size : s.memory.store.size = s'.memory.store.size := by
    simpa [Store.size] using congrArg Array.size frames
  refine bare_eq_iff.2 ⟨limit, ?_, size, congrArg (· + 1) nextTree⟩
  simp [Session.reset, Memory.bare, Store.push, frames, closures, output]

theorem bare_emit {v v' : Value} (states : s.bare = s'.bare) (values : v.bare = v'.bare) :
    (s.emit v).bare = (s'.emit v').bare := by
  obtain ⟨limit, memory, global, nextTree⟩ := bare_eq_iff.1 states
  refine bare_eq_iff.2 ⟨limit, ?_, global, nextTree⟩
  simp only [Memory.bare, Memory.mk.injEq, Store.mk.injEq] at memory
  obtain ⟨frames, closures, output, depth⟩ := memory
  simp [Session.emit, Memory.emit, Memory.bare, frames, closures, output, depth, values]

/-- Both outcomes have values or both have reports, which agree. -/
theorem Outcome.cases_of_bare {outcome outcome' : Outcome Value}
    (h : Outcome.bare outcome = Outcome.bare outcome') :
    (∃ v v', outcome.1 = .ok v ∧ outcome'.1 = .ok v' ∧ v.bare = v'.bare) ∨
      ∃ d d', outcome.1 = .error d ∧ outcome'.1 = .error d' ∧ d.bare = d'.bare := by
  have results := congrArg Prod.fst h
  obtain ⟨_ | _, _⟩ := outcome <;> obtain ⟨_ | _, _⟩ := outcome'
  · exact .inr ⟨_, _, rfl, rfl, Except.error.inj results⟩
  · cases results
  · cases results
  · exact .inl ⟨_, _, rfl, rfl, Except.ok.inj results⟩

theorem bare_run (states : s.bare = s'.bare) (source : String) :
    Outcome.bare (s.run source) = Outcome.bare (s'.run source) := by
  have evaluated := bare_evalSource (bare_reset states) source
  have sessions : (s.reset.evalSource source).2.bare = (s'.reset.evalSource source).2.bare :=
    congrArg Prod.snd evaluated
  show Outcome.bare (s.reset.evalAndShow source) = Outcome.bare (s'.reset.evalAndShow source)
  rw [evalAndShow_eq, evalAndShow_eq]
  obtain ⟨v, v', e, e', values⟩ | ⟨d, d', e, e', reports⟩ := Outcome.cases_of_bare evaluated
  · rw [e, e']
    exact Prod.ext (congrArg Except.ok values) (bare_emit sessions values)
  · rw [e, e']
    exact Prod.ext (congrArg Except.error reports) sessions

/-- What a user sees of a result, but for where a report points. -/
def seen (result : Except Diagnostic Value) : Except Diagnostic Rendered :=
  (result.map Value.rendered).mapError Diagnostic.bare

theorem seen_of_bare {outcome outcome' : Outcome Value}
    (h : Outcome.bare outcome = Outcome.bare outcome') : seen outcome.1 = seen outcome'.1 := by
  obtain ⟨v, v', e, e', values⟩ | ⟨d, d', e, e', reports⟩ := Outcome.cases_of_bare h
  · rw [e, e']
    exact congrArg Except.ok (Value.like_iff_bare.2 values).rendered
  · rw [e, e']
    exact congrArg Except.error reports

/-- Sessions that agree but for origins answer a call alike, and go on agreeing. -/
theorem bare_call (states : s.bare = s'.bare) (c : Call) :
    (s.call c).1.map seen = (s'.call c).1.map seen ∧ (s.call c).2.bare = (s'.call c).2.bare := by
  have both : ∀ {outcome outcome' : Outcome Value}, Outcome.bare outcome = Outcome.bare outcome' →
      some (seen outcome.1) = some (seen outcome'.1) ∧ outcome.2.bare = outcome'.2.bare :=
    fun same => ⟨congrArg some (seen_of_bare same), congrArg Prod.snd same⟩
  cases c with
  | run source => exact both (bare_run states source)
  | runBytes bytes =>
    simp only [Session.call, Session.runBytes]
    cases Utf8.decode bytes with
    | error d => exact ⟨rfl, states⟩
    | ok source => exact both (bare_run states source)
  | evalSource source => exact both (bare_evalSource states source)
  | reset => exact ⟨rfl, bare_reset states⟩

/-- Calls that give the same and leave sessions that agree are answered alike. -/
theorem bare_answer {c c' : Call} (states : s.bare = s'.bare)
    (results : (s.call c).1.map seen = (s'.call c').1.map seen)
    (after : (s.call c).2.bare = (s'.call c').2.bare) :
    (s.answer c).bare = (s'.answer c').bare := by
  have size : s.memory.output.size = s'.memory.output.size := by
    simpa using congrArg List.length (bare_output states)
  have shown := (shownSince_of_bare after s).2
  have since : (s'.call c').2.shownSince s = (s'.call c').2.shownSince s' := by
    rw [shownSince, shownSince, size]
  rw [since] at shown
  have answered : ∀ (t : Session) (c : Call), (t.answer c).bare =
      ⟨(t.call c).1.map seen, ((t.call c).2.shownSince t).map Value.rendered⟩ := by
    intro t c
    simp only [Answer.bare, answer, Option.map_map]
    rfl
  rw [answered, answered, results, shown]

/-- And so they answer every sequence of calls alike. -/
theorem bare_answers (states : s.bare = s'.bare) (calls : List Call) :
    (s.answers calls).map Answer.bare = (s'.answers calls).map Answer.bare := by
  induction calls generalizing s s' with
  | nil => rfl
  | cons c calls ih =>
    obtain ⟨results, after⟩ := bare_call states c
    rw [answers, answers, List.map_cons, List.map_cons, bare_answer states results after, ih after]

end Session

/-! ## Lists in a text -/

/-- The parts, with spaces between them, as one list. -/
def listText (parts : List String) : String := "(" ++ " ".intercalate parts ++ ")"

namespace Value

theorem piecesAll_of_bare {vs ws : List Value}
    (each : ∀ v ∈ vs, ∀ w : Value, v.bare = w.bare → w.IsCode ∧ w.pieces = v.pieces)
    (same : vs.map bare = ws.map bare) :
    (∀ w ∈ ws, w.IsCode) ∧ piecesAll ws = piecesAll vs := by
  induction vs generalizing ws with
  | nil =>
    obtain rfl := List.map_eq_nil_iff.1 same.symm
    exact ⟨by simp, rfl⟩
  | cons v vs ih =>
    obtain ⟨w, ws, rfl, first, rest⟩ := List.map_eq_cons_iff.1 same.symm
    obtain ⟨here, others⟩ := List.forall_mem_cons.1 each
    obtain ⟨code, pieces⟩ := here w first.symm
    obtain ⟨codes, all⟩ := ih others rest.symm
    exact ⟨List.forall_mem_cons.2 ⟨code, codes⟩, by rw [piecesAll, piecesAll, pieces, all]⟩

/-- What agrees with code but for origins is code, and is written alike. -/
theorem IsCode.of_bare {v w : Value} (h : v.IsCode) (same : v.bare = w.bare) :
    w.IsCode ∧ w.pieces = v.pieces := by
  induction h generalizing w with
  | int n =>
    cases like_iff_bare.2 same
    exact ⟨.int n, rfl⟩
  | symbol name =>
    cases like_iff_bare.2 same
    exact ⟨.symbol name, rfl⟩
  | @list items origin _ ih =>
    cases like_iff_bare.2 same with
    | @list _ items' _ _ _ _ _ =>
      simp only [bare, bareAll_eq, list.injEq, and_true] at same
      obtain ⟨codes, all⟩ := piecesAll_of_bare (fun v member w => ih v member) same
      exact ⟨.list codes, by rw [pieces, pieces, all]⟩

end Value

namespace Reader

/-- A source is read as some forms if and only if they are code and the source says them, wherever
it stands. -/
theorem reads_iff {source : String} {forms : List Value} :
    Reads source forms ↔ (∀ v ∈ forms, v.IsCode) ∧ Says source (Value.piecesAll forms) := by
  constructor
  · rintro ⟨items, reads, alike⟩
    obtain ⟨spells, code⟩ := reads.spells
    obtain ⟨codes, same⟩ :=
      Value.piecesAll_of_bare (fun v member w => (code v member).of_bare) alike
    refine ⟨codes, fun offset => ?_⟩
    have layout : Layout 0 source.toList (tokenize source) := layout_iff_tokenize.2 rfl
    obtain ⟨tokens, elsewhere, moved⟩ := layout.moved offset
    exact ⟨tokens, elsewhere, same ▸ spells.congr moved⟩
  · rintro ⟨code, said⟩
    obtain ⟨items, t', read, alike⟩ :=
      exists_readTokens_of_spells code said.spells source.utf8ByteSize {}
    exact ⟨items, ⟨{}, t', _, read⟩, alike⟩

theorem reads_atom {text : String} {v : Value}
    (word : (!text.toList.isEmpty && text.toList.all isAtomChar) = true)
    (read : atom text = .ok v) : Reads text [v] := by
  simp only [Bool.and_eq_true, Bool.not_eq_true', List.isEmpty_eq_false_iff, List.all_eq_true]
    at word
  obtain ⟨code, pieces⟩ := isCode_of_atom read
  refine reads_iff.2 ⟨List.forall_mem_singleton.2 code, ?_⟩
  rw [Value.piecesAll, Value.piecesAll, List.append_nil, pieces]
  exact .word ⟨word.1, word.2⟩ read

theorem reads_intercalate {parts : List String} {groups : List (List Value)}
    (h : List.Forall₂ Reads parts groups) : Reads (" ".intercalate parts) groups.flatten := by
  induction h with
  | nil =>
    rw [String.intercalate_nil]
    exact reads_iff.2 ⟨by simp, .empty⟩
  | @cons part group parts groups here rest ih =>
    cases rest with
    | nil =>
      rw [String.intercalate_singleton, List.flatten_singleton]
      exact here
    | cons _ _ =>
      obtain ⟨code, said⟩ := reads_iff.1 here
      obtain ⟨codes, all⟩ := reads_iff.1 ih
      rw [String.intercalate_cons_cons, String.append_assoc, List.flatten_cons]
      refine reads_iff.2 ⟨List.forall_mem_append.2 ⟨code, codes⟩, ?_⟩
      rw [piecesAll_append]
      exact said.append all.after_space (by simp [isAtomChar, isSeparator])

/-- Sources side by side between parentheses are read as one list of all their forms. -/
theorem reads_listText {parts : List String} {groups : List (List Value)}
    (h : List.Forall₂ Reads parts groups) :
    Reads (listText parts) [.list groups.flatten .code none] := by
  obtain ⟨codes, said⟩ := reads_iff.1 (reads_intercalate h)
  refine reads_iff.2 ⟨List.forall_mem_singleton.2 (.list codes), ?_⟩
  rw [Value.piecesAll, Value.piecesAll, List.append_nil, Value.pieces]
  exact said.wrap

end Reader

/-! ## The two ways to write a definition -/

namespace Value

/-- The form `(lambda (params...) body...)`. -/
def lambdaForm (params body : List Value) : Value :=
  .list (.symbol "lambda" :: .list params .code none :: body) .code none

/-- The form `(define (f params...) body...)`. -/
def functionDefinition (f : String) (params body : List Value) : Value :=
  .list (.symbol "define" :: .list (.symbol f :: params) .code none :: body) .code none

theorem exists_of_bare_functionDefinition {v : Value} {f : String} {params body : List Value}
    (h : v.bare = (functionDefinition f params body).bare) :
    ∃ params' body' place origin,
      v = .list (.symbol "define" :: .list (.symbol f :: params') .code place :: body') .code
        origin ∧
      params'.map bare = params.map bare ∧ body'.map bare = body.map bare := by
  have each : ∀ vs : List Value, ∀ v ∈ vs, ∀ w, v.Like .anyOrigin w ↔ v.bare = w.bare :=
    fun _ _ _ _ => like_iff_bare
  have like : Like .anyOrigin (functionDefinition f params body) v := like_iff_bare.2 h.symm
  cases like with
  | list items _ =>
    obtain _ | ⟨define, _ | ⟨signature, exprs⟩⟩ := items
    cases define
    cases signature with
    | list names _ =>
      obtain _ | ⟨name, names⟩ := names
      cases name
      exact ⟨_, _, _, _, rfl, ((forall₂_iff_map_eq (each _)).1 names).symm,
        ((forall₂_iff_map_eq (each _)).1 exprs).symm⟩

end Value

namespace Reader

variable {f ps bs : String} {params body : List Value}

theorem reads_functionDefinition (name : Reads f [.symbol f]) (parameters : Reads ps params)
    (exprs : Reads bs body) :
    Reads (listText ["define", listText [f, ps], bs]) [.functionDefinition f params body] := by
  have keyword : Reads "define" [.symbol "define"] := reads_atom (by decide +kernel) rfl
  have signature := reads_listText (.cons name (.cons parameters .nil))
  have whole := reads_listText (.cons keyword (.cons signature (.cons exprs .nil)))
  simpa [Value.functionDefinition] using whole

theorem reads_definition_lambdaForm (name : Reads f [.symbol f]) (parameters : Reads ps params)
    (exprs : Reads bs body) :
    Reads (listText ["define", f, listText ["lambda", listText [ps], bs]])
      [.definition f (.lambdaForm params body)] := by
  have define : Reads "define" [.symbol "define"] := reads_atom (by decide +kernel) rfl
  have lambda : Reads "lambda" [.symbol "lambda"] := reads_atom (by decide +kernel) rfl
  have names := reads_listText (.cons parameters .nil)
  have function := reads_listText (.cons lambda (.cons names (.cons exprs .nil)))
  have whole := reads_listText (.cons define (.cons name (.cons function .nil)))
  simpa [Value.definition, Value.lambdaForm] using whole

end Reader

/-! ## Evaluating them -/

/-- Special forms that are understood alike are evaluated alike, however they are written. -/
theorem Simulation.special_related {S : Simulation} {c c' : Context} (contexts : S.Contexts c c')
    {env env' : FrameId} (frame : S.frame env env') {origin origin' : Option NodeId}
    (origins : S.origin origin origin') {name : String} {k : Keyword} {args args' : List Value}
    {f f' : Form} (special : Keyword.ofName? name = some k)
    (parsed : Form.parse k origin args = .ok f) (parsed' : Form.parse k origin' args' = .ok f')
    (forms : S.Forms f f') (bound depth : Nat) :
    S.Related depth S.value (eval c bound (.list (.symbol name :: args) .code origin) env)
      (eval c' bound (.list (.symbol name :: args') .code origin') env') := by
  cases bound with
  | zero =>
    simp only [eval_zero, contexts.limit]
    exact Related.raise _
  | succ bound =>
    simp only [eval_succ, Eval.step, contexts.limit, Eval.codeList_of_parsed special parsed,
      Eval.codeList_of_parsed special parsed']
    refine Related.nested _ fun _ => ?_
    exact (form_related (eval_related contexts rfl) frame forms).adaptExcept fun _ _ reports =>
      contexts.annotate origins reports

/-- A definition that is well shaped evaluates to its name, if an evaluation is left. -/
theorem eval_of_parsed_define {c : Context} {m : Memory} (spare : m.depth < c.limit)
    {origin : Option NodeId} {args : List Value} {name : String} {e : Value}
    (parsed : Form.parse .define origin args = .ok (.define name e)) (bound : Nat) (env : FrameId) :
    eval c (bound + 1) (.list (.symbol "define" :: args) .code origin) env m =
      .ok (.symbol name) { m with store := m.store.define env name (.deferred e) } := by
  have opened : Eval.codeList (eval c bound) env origin (.symbol "define" :: args) m.entered =
      .ok (.symbol name) { m.entered with store := m.store.define env name (.deferred e) } := by
    rw [Eval.codeList_of_parsed rfl parsed]
    rfl
  exact Eval.nested_of_ok spare opened

theorem parse_functionDefinition (f : String) (params : List Value) {body : List Value}
    (nonempty : body ≠ []) (place origin : Option NodeId) :
    Form.parse .define origin (.list (.symbol f :: params) .code place :: body) =
      .ok (.define f (Form.lambdaOf params body origin)) := by
  cases body with
  | nil => exact absurd rfl nonempty
  | cons b body => rfl

namespace Session

/-- A session evaluates a form alone as it does in a source of one form. -/
theorem evalForms_singleton (s : Session) (e : Value) (env : FrameId) :
    s.evalForms [e] env = s.eval e env := by
  have same : Eval.sequence (LazyLisp.eval s.context s.limit) env .void [e] =
      LazyLisp.eval s.context s.limit e env := by
    rw [Eval.sequence, List.foldlM_cons]
    exact bind_pure _
  rw [evalForms, same, eval]

theorem eval_of_parsed_define {s : Session} (spare : s.memory.depth < s.limit)
    {origin : Option NodeId} {args : List Value} {name : String} {e : Value}
    (parsed : Form.parse .define origin args = .ok (.define name e)) (env : FrameId) :
    (s.eval (.list (.symbol "define" :: args) .code origin) env).1 = .ok (.symbol name) := by
  obtain ⟨bound, limit⟩ : ∃ bound, s.limit = bound + 1 := ⟨s.limit - 1, by omega⟩
  have evaluated := LazyLisp.eval_of_parsed_define (c := s.context) spare parsed bound env
  rw [← limit] at evaluated
  rw [eval, perform_eq, evaluated]

theorem bare_eval_functionDefinition {s s' : Session} (states : s.bare = s'.bare) {f : String}
    {params body : List Value} (nonempty : body ≠ []) {e : Value}
    (lambda : e.bare = (Value.lambdaForm params body).bare) (place origin origin' : Option NodeId)
    (env : FrameId) :
    Outcome.bare
        (s.eval (.list (.symbol "define" :: .list (.symbol f :: params) .code place :: body) .code
          origin) env) =
      Outcome.bare (s'.eval (.list [.symbol "define", .symbol f, e] .code origin') env) := by
  obtain ⟨limit, -⟩ := agree_of_bare states
  have exprs : Simulation.anyOrigin.expr (Form.lambdaOf params body origin) e :=
    Value.like_iff_bare.2 lambda.symm
  refine bare_perform states ?_
  rw [context, context, ← limit]
  exact Simulation.special_related (Simulation.anyOrigin_contexts _ _ _) rfl trivial rfl
    (parse_functionDefinition f params nonempty place origin) rfl (.define f exprs) _ _

/-- **The function form of `define` is its expansion.** Take a name, parameters and a body that is
not empty, each as a source that is read as it; the parameters need not be symbols. Then there is
a source of either form, and whatever two sources are read so: in every session both evaluate to the
name, if an evaluation is left, and in any case have outcomes that agree but for origins and places.
So every sequence of calls after the one gets the answers that it gets after the other: the same
values as printed, reports of the same kind and message, and the same values shown. -/
theorem function_definition_expands {f ps bs : String} {params body : List Value}
    (name : Reader.Reads f [.symbol f]) (parameters : Reader.Reads ps params)
    (exprs : Reader.Reads bs body) (nonempty : body ≠ []) :
    Reader.Reads (listText ["define", listText [f, ps], bs])
        [.functionDefinition f params body] ∧
      Reader.Reads (listText ["define", f, listText ["lambda", listText [ps], bs]])
        [.definition f (.lambdaForm params body)] ∧
      ∀ source source', Reader.Reads source [.functionDefinition f params body] →
        Reader.Reads source' [.definition f (.lambdaForm params body)] → ∀ s : Session,
          (s.memory.depth < s.limit → (s.evalSource source).1 = .ok (.symbol f) ∧
            (s.evalSource source').1 = .ok (.symbol f)) ∧
          Outcome.bare (s.evalSource source) = Outcome.bare (s.evalSource source') ∧
          ∀ calls, (s.answers (.evalSource source :: calls)).map Answer.bare =
            (s.answers (.evalSource source' :: calls)).map Answer.bare := by
  refine ⟨Reader.reads_functionDefinition name parameters exprs,
    Reader.reads_definition_lambdaForm name parameters exprs, ?_⟩
  intro source source' reads reads' s
  obtain ⟨items, tree, read, alike, -⟩ := reads.exists_readProgram s.tree
  obtain ⟨items', tree', read', alike', -⟩ := reads'.exists_readProgram s.tree
  obtain ⟨v, rfl, form⟩ := List.map_eq_singleton_iff.1 alike
  obtain ⟨v', rfl, form'⟩ := List.map_eq_singleton_iff.1 alike'
  obtain ⟨params₁, body₁, place, origin, rfl, sameParams, sameBody⟩ :=
    Value.exists_of_bare_functionDefinition form
  obtain ⟨e, origin', rfl, lambda⟩ := Value.exists_of_bare_definition form'
  have nonempty₁ : body₁ ≠ [] := by
    rintro rfl
    exact nonempty (List.map_eq_nil_iff.1 sameBody.symm)
  -- the `lambda` form in writing is the one that is built, but for origins
  have lambda₁ : e.bare = (Value.lambdaForm params₁ body₁).bare := by
    rw [lambda]
    simp [Value.lambdaForm, Value.bare, Value.bareAll, Value.bareAll_eq, sameParams, sameBody]
  have first := evalSource_of_read read
  have second := evalSource_of_read read'
  rw [evalForms_singleton] at first second
  have outcomes : Outcome.bare (s.evalSource source) = Outcome.bare (s.evalSource source') := by
    have states : Session.bare { s with tree } = Session.bare { s with tree := tree' } := rfl
    rw [first, second]
    exact bare_eval_functionDefinition states nonempty₁ lambda₁ place origin origin' s.global
  refine ⟨fun spare => ?_, outcomes, fun calls => ?_⟩
  · have parsed := parse_functionDefinition f params₁ nonempty₁ place origin
    have parsed' : Form.parse .define origin' [.symbol f, e] = .ok (.define f e) := rfl
    rw [first, second]
    exact ⟨eval_of_parsed_define (s := { s with tree }) spare parsed s.global,
      eval_of_parsed_define (s := { s with tree := tree' }) spare parsed' s.global⟩
  · have after : (s.evalSource source).2.bare = (s.evalSource source').2.bare :=
      congrArg Prod.snd outcomes
    have answer : (s.answer (.evalSource source)).bare = (s.answer (.evalSource source')).bare :=
      bare_answer rfl (congrArg some (seen_of_bare outcomes)) after
    rw [answers, answers, List.map_cons, List.map_cons, answer]
    exact congrArg _ (bare_answers after calls)

/-- A parameter is a number. Both definitions succeed, and asking for the function fails. -/
theorem function_definition_expands_number :
    let s := Session.new 9
    let source := "(define (f a 7) (+ a b))"
    let source' := "(define f (lambda (a 7) (+ a b)))"
    ((s.evalSource source).1 = .ok (.symbol "f") ∧ (s.evalSource source').1 = .ok (.symbol "f")) ∧
      (((s.evalSource source).2.evalSource "f").1 matches .error ⟨.evaluation, _, _, _⟩) = true ∧
      ∀ calls, (s.answers (.evalSource source :: calls)).map Answer.bare =
        (s.answers (.evalSource source' :: calls)).map Answer.bare := by
  intro s source source'
  have f : Reader.Reads "f" [.symbol "f"] := Reader.reads_atom (by decide +kernel) rfl
  have a : Reader.Reads "a" [.symbol "a"] := Reader.reads_atom (by decide +kernel) rfl
  have b : Reader.Reads "b" [.symbol "b"] := Reader.reads_atom (by decide +kernel) rfl
  have plus : Reader.Reads "+" [.symbol "+"] := Reader.reads_atom (by decide +kernel) rfl
  have seven : Reader.Reads "7" [.int 7] := Reader.reads_atom (by decide +kernel) rfl
  have parameters := Reader.reads_intercalate (.cons a (.cons seven .nil))
  have exprs := Reader.reads_listText (.cons plus (.cons a (.cons b .nil)))
  obtain ⟨reads, reads', expands⟩ :=
    function_definition_expands f parameters exprs (List.cons_ne_nil _ _)
  have text : listText ["define", listText ["f", " ".intercalate ["a", "7"]],
      listText ["+", "a", "b"]] = source := by decide +kernel
  have text' : listText ["define", "f", listText ["lambda", listText [" ".intercalate ["a", "7"]],
      listText ["+", "a", "b"]]] = source' := by decide +kernel
  rw [text] at reads
  rw [text'] at reads'
  obtain ⟨values, -, answered⟩ := expands source source' reads reads' s
  exact ⟨values (by decide), by decide +kernel, answered⟩

end Session

end LazyLisp
