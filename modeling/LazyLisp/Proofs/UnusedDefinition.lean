import LazyLisp.Proofs.Concatenation
import LazyLisp.Proofs.Domain
import LazyLisp.Proofs.Printing

/-!
# Unused definitions have no effect

A definition only stores its expression. If its name occurs nowhere else in the program, nothing
looks it up, so the expression is never evaluated and might as well be another one.

The two runs keep stores that differ in what is bound to the one name, from the definition on. This
is a simulation that hides the name. What is evaluated does not look the name up: symbols computed
by `quote` are data and are never evaluated, and a `define` list stands for a `lambda` form whose
head is no item of the program, but a keyword.
-/

namespace LazyLisp

namespace Value

/-! ## Names in code -/

mutual

/-- The names of the symbols in code, at any depth. -/
def symbols : Value → List String
  | .symbol name => [name]
  | .list items _ _ => symbolsAll items
  | _ => []

/-- The names of the symbols in some code. -/
def symbolsAll : List Value → List String
  | [] => []
  | v :: vs => symbols v ++ symbolsAll vs

end

theorem symbolsAll_eq (vs : List Value) : symbolsAll vs = vs.flatMap symbols := by
  induction vs with
  | nil => rfl
  | cons v vs ih => rw [symbolsAll, ih, List.flatMap_cons]

theorem symbols_bare (v : Value) : v.bare.symbols = v.symbols := by
  induction v with
  | list items tag origin ih =>
    rw [bare, symbols, symbols, bareAll_eq, symbolsAll_eq, symbolsAll_eq, List.flatMap_map]
    exact List.flatMap_congr ih
  | _ => rfl

/-- Code that does not look `x` up: no symbol in it is `x`, unless it heads a special form. -/
inductive Avoids (x : String) : Value → Prop
  | int (n : Int64) : Avoids x (.int n)
  | symbol {name : String} : name ≠ x → Avoids x (.symbol name)
  | items {items : List Value} {origin : Option NodeId} :
    (∀ e ∈ items, Avoids x e) → Avoids x (.list items .code origin)
  | form {head : String} {k : Keyword} {args : List Value} {origin : Option NodeId} :
    Keyword.ofName? head = some k → (∀ e ∈ args, Avoids x e) →
      Avoids x (.list (.symbol head :: args) .code origin)

variable {x : String} {e : Value}

theorem IsCode.avoids (h : e.IsCode) (unused : x ∉ e.symbols) : e.Avoids x := by
  induction h with
  | int n => exact .int n
  | symbol name => exact .symbol fun same => unused (by simp [symbols, same])
  | list _ ih =>
    refine .items fun e member => ih e member fun used => unused ?_
    rw [symbols, symbolsAll_eq]
    exact List.mem_flatMap.2 ⟨e, member, used⟩

theorem Avoids.tail {items : List Value} {tag : ListTag} {origin : Option NodeId}
    (h : Avoids x (.list items tag origin)) : ∀ e ∈ items.tail, e.Avoids x := by
  cases h with
  | items inside => exact fun e member => inside e (List.mem_of_mem_tail member)
  | form _ inside => exact inside

theorem Avoids.of_no_keyword {items : List Value} {tag : ListTag} {origin : Option NodeId}
    (h : Avoids x (.list items tag origin)) (plain : Keyword.ofItems? items = none) :
    ∀ e ∈ items, e.Avoids x := by
  cases h with
  | items inside => exact inside
  | form keyword _ =>
    rw [Keyword.ofItems?, keyword] at plain
    cases plain

/-- No closure in it evaluates `x`. -/
abbrev Spares (x : String) (v : Value) : Prop := v.Inside (fun _ => True) (Avoids x)

/-- Data made of code holds no closures. -/
theorem Avoids.quoted (h : e.Avoids x) : e.quoted.Spares x := by
  have list : ∀ {items : List Value} {origin : Option NodeId},
      (∀ e ∈ items, e.quoted.Spares x) → (Value.list items .code origin).quoted.Spares x := by
    intro items origin inside
    rw [quoted_code]
    refine .list fun v member => ?_
    obtain ⟨e, given, rfl⟩ := List.mem_map.1 member
    exact inside e given
  induction h with
  | int n => exact .atom rfl
  | symbol _ => exact .atom rfl
  | items _ ih => exact list ih
  | form _ _ ih => exact list (List.forall_mem_cons.2 ⟨.atom rfl, ih⟩)

end Value

namespace Simulation

open Value

/-- Two evaluations of code that does not look `x` up; what `x` is bound to need not agree. -/
def unseen (x : String) : Simulation where
  toRenaming := .anyOrigin
  hidden name := name = x
  value v v' := v.Spares x ∧ v.Like .anyOrigin v'
  expr e e' := e.Avoids x ∧ e.Like .anyOrigin e'
  report d d' := d.bare = d'.bare
  before := []
  value_like h := h.2
  value_atom h := ⟨.atom h, like_iff_bare.2 rfl⟩
  value_items := by
    rintro items items' tag origin origin' ⟨spares, like⟩
    cases like with
    | list alike _ =>
      cases spares with
      | atom atom => cases atom
      | list inside => exact (List.forall₂_and_left _ _).2 ⟨inside, alike⟩
  value_cell := by
    intro items items' related
    obtain ⟨inside, alike⟩ := (List.forall₂_and_left _ _).1 related
    exact ⟨.list inside, .list alike trivial⟩
  value_body := by
    rintro id id' params body body' env env' ⟨spares, like⟩
    cases like with
    | closure _ alike _ =>
      cases spares with
      | atom atom => cases atom
      | closure _ inside => exact (List.forall₂_and_left _ _).2 ⟨inside, alike⟩
  value_closure := by
    intro id id' params body body' env env' sameId related sameEnv
    obtain ⟨inside, alike⟩ := (List.forall₂_and_left _ _).1 related
    exact ⟨.closure trivial inside, .closure sameId alike sameEnv⟩
  expr_like h := h.2
  expr_symbol := by
    rintro name ⟨avoids, -⟩
    cases avoids with
    | symbol other => exact other
  expr_items := by
    rintro items items' tag origin origin' ⟨avoids, like⟩ plain
    cases like with
    | list alike _ => exact (List.forall₂_and_left _ _).2 ⟨avoids.of_no_keyword plain, alike⟩
  expr_tail := by
    rintro items items' tag origin origin' ⟨avoids, like⟩
    cases like with
    | list alike _ =>
      have rest := List.forall₂_drop 1 alike
      rw [List.drop_one, List.drop_one] at rest
      exact (List.forall₂_and_left _ _).2 ⟨avoids.tail, rest⟩
  expr_lambda := by
    intro params params' body body' origin origin' hparams hbody _
    obtain ⟨inParams, params⟩ := (List.forall₂_and_left _ _).1 hparams
    obtain ⟨inBody, body⟩ := (List.forall₂_and_left _ _).1 hbody
    refine ⟨.form rfl (List.forall_mem_cons.2 ⟨.items inParams, inBody⟩), ?_⟩
    exact .list (.cons (.symbol "lambda") (.cons (.list params trivial) body)) trivial
  expr_self := by
    rintro e e' ⟨avoids, like⟩ notSymbol notCode
    cases avoids with
    | int n => exact ⟨.atom rfl, like⟩
    | symbol _ => exact (notSymbol _ rfl).elim
    | items _ => exact (notCode _ _ rfl).elim
    | form _ _ => exact (notCode _ _ rfl).elim
  expr_quoted h := ⟨h.1.quoted, h.2.quoted⟩
  report_fault _ := rfl

variable {S : Simulation} {c c' : Context} {depth : Nat} {env env' : FrameId}
  {origin origin' : Option NodeId} {x : String}

/-- Of two definitions of a hidden name it does not matter what they define it to be. -/
theorem definition_related (contexts : S.Contexts c c') (hidden : S.hidden x)
    (frame : S.frame env env') (origins : S.origin origin origin') (bound : Nat) (e e' : Value) :
    S.Related depth S.value
      (eval c bound (.list [.symbol "define", .symbol x, e] .code origin) env)
      (eval c' bound (.list [.symbol "define", .symbol x, e'] .code origin') env') := by
  cases bound with
  | zero =>
    simp only [eval_zero, contexts.limit]
    exact Related.raise _
  | succ bound =>
    have defined : S.Related (depth + 1) (fun _ _ => True) (EvalM.define env x (.deferred e))
        (EvalM.define env' x (.deferred e')) := Related.define frame fun seen => absurd hidden seen
    have named : S.Related (depth + 1) S.value
        (EvalM.define env x (.deferred e) >>= fun _ => pure (.symbol x))
        (EvalM.define env' x (.deferred e') >>= fun _ => pure (.symbol x)) :=
      defined.bind fun _ _ _ => Runs.pure (S.value_atom rfl)
    simp only [eval_succ, contexts.limit]
    exact Related.nested _ fun _ => named.adaptExcept fun _ _ reports =>
      contexts.annotate origins reports

end Simulation

/-! ## Programs that differ in one definition -/

namespace Reader

/-- The source is read as these forms, origins apart. -/
def Reads (source : String) (forms : List Value) : Prop :=
  ∃ items, ReadsAs source items ∧ items.map Value.bare = forms.map Value.bare

theorem Reads.exists_readProgram {source : String} {forms : List Value} (h : Reads source forms)
    (t : SourceTree) :
    ∃ items t', readProgram source t = .ok (.list items .code (some t.nextId)) t' ∧
      items.map Value.bare = forms.map Value.bare ∧ ∀ v ∈ items, v.Legible := by
  obtain ⟨given, reads, alike⟩ := h
  obtain ⟨items, t', read, same⟩ := reads.exists_readProgram t
  have legible := (accepted_of_readProgram read).legible
  exact ⟨items, t', read, same.trans alike, Value.legible_list.1 legible⟩

/-- What is legible is read back from its print. -/
theorem reads_writeItems {forms : List Value} (h : ∀ v ∈ forms, v.Legible) :
    Reads (Value.writeItems "" true forms) forms := by
  have print := Value.printed_writeItems (fun v member => (h v member).printed) true
  obtain ⟨items, t', read, alike⟩ := exists_readTokens_of_spells
    (fun v member => (h v member).isCode) print.spells
    (Value.writeItems "" true forms).utf8ByteSize {}
  exact ⟨items, ⟨{}, t', _, read⟩, alike⟩

end Reader

/-- The form `(define x e)`. -/
def Value.definition (x : String) (e : Value) : Value :=
  .list [.symbol "define", .symbol x, e] .code none

theorem Value.exists_of_bare_definition {v : Value} {x : String} {e : Value}
    (h : v.bare = (definition x e).bare) :
    ∃ e' origin, v = .list [.symbol "define", .symbol x, e'] .code origin ∧ e'.bare = e.bare := by
  have like : Like .anyOrigin (definition x e) v := like_iff_bare.2 h.symm
  cases like with
  | list items _ =>
    obtain _ | ⟨define, _ | ⟨name, _ | ⟨expr, _ | _⟩⟩⟩ := items
    cases define
    cases name
    exact ⟨_, _, rfl, (like_iff_bare.1 expr).symm⟩

/-- Forms that agree with a program around a definition are a program around a definition. -/
theorem exists_parts {items before after : List Value} {x : String} {e : Value}
    (h : items.map Value.bare = (before ++ .definition x e :: after).map Value.bare) :
    ∃ items₁ e' origin items₂,
      items = items₁ ++ .list [.symbol "define", .symbol x, e'] .code origin :: items₂ ∧
        items₁.map Value.bare = before.map Value.bare ∧ e'.bare = e.bare ∧
        items₂.map Value.bare = after.map Value.bare := by
  rw [List.map_append, List.map_cons] at h
  obtain ⟨items₁, rest, rfl, first, others⟩ := List.map_eq_append_iff.1 h
  obtain ⟨v, items₂, rfl, middle, last⟩ := List.map_eq_cons_iff.1 others
  obtain ⟨e', origin, rfl, expr⟩ := Value.exists_of_bare_definition middle
  exact ⟨items₁, e', origin, items₂, rfl, first, expr, last⟩

theorem Reader.exists_reads_redefined {source source₂ x : String} {e e₂ : Value}
    {before after : List Value} (program : Reads source (before ++ .definition x e :: after))
    (expression : Reads source₂ [e₂]) :
    ∃ source', Reads source' (before ++ .definition x e₂ :: after) := by
  obtain ⟨items, -, -, alike, legible⟩ := program.exists_readProgram {}
  obtain ⟨first, e₁, origin, last, rfl, hfirst, -, hlast⟩ := exists_parts alike
  obtain ⟨items₂, -, -, alike₂, legible₂⟩ := expression.exists_readProgram {}
  obtain ⟨e₂', rfl, expr⟩ := List.map_eq_singleton_iff.1 alike₂
  obtain ⟨firstLegible, rest⟩ := List.forall_mem_append.1 legible
  obtain ⟨middle, lastLegible⟩ := List.forall_mem_cons.1 rest
  obtain ⟨define, others⟩ := List.forall_mem_cons.1 (Value.legible_list.1 middle)
  obtain ⟨name, -⟩ := List.forall_mem_cons.1 others
  have redefined : (Value.definition x e₂').Legible :=
    .list (List.forall_mem_cons.2 ⟨define, List.forall_mem_cons.2 ⟨name, legible₂⟩⟩)
  obtain ⟨given, reads, same⟩ := reads_writeItems
    (List.forall_mem_append.2 ⟨firstLegible, List.forall_mem_cons.2 ⟨redefined, lastLegible⟩⟩)
  refine ⟨_, given, reads, same.trans ?_⟩
  simp [hfirst, hlast, Value.definition, Value.bare, Value.bareAll, expr]

namespace Session

open Simulation

/-- What a user sees of a call, but for where its report points. -/
def Answer.bare (a : Answer) : Answer :=
  { a with result := a.result.map (·.mapError Diagnostic.bare) }

/-- A `run` is answered as by a new session. -/
theorem answer_run (s : Session) (source : String) :
    let outcome := (Session.new s.limit).evalAndShow source
    s.answer (.run source) =
      ⟨some (outcome.1.map Value.rendered), outcome.2.memory.output.toList.map Value.rendered⟩ :=
  (List.cons.inj (answers_run s source [])).1

variable {x : String}

/-- A new memory beside itself. -/
theorem unseen_new (x : String) (limit : Nat) :
    (unseen x).Memories 0 (Session.new limit).memory (Session.new limit).memory :=
  (memories_iff_of_fixed rfl rfl rfl).2
    ⟨.cons (root_related _) .nil, rfl, .nil, rfl, rfl⟩

/-- Sources whose forms correspond one by one are run with the same answer, places of reports
apart. -/
theorem bare_answer_run (s : Session) {source source' : String} {items items' : List Value}
    {tag tag' : ListTag} {origin origin' : Option NodeId} {tree tree' : SourceTree}
    (read : Reader.readProgram source {} = .ok (.list items tag origin) tree)
    (read' : Reader.readProgram source' {} = .ok (.list items' tag' origin') tree')
    (forms : List.Forall₂ (fun e e' => (unseen x).Related 0 (unseen x).value
      (LazyLisp.eval ⟨s.limit, tree⟩ s.limit e 0) (LazyLisp.eval ⟨s.limit, tree'⟩ s.limit e' 0))
      items items') :
    (s.answer (.run source)).bare = (s.answer (.run source')).bare := by
  have start : (unseen x).value .void .void := (unseen x).value_atom rfl
  have sequences : (unseen x).Related 0 (unseen x).value
      (Eval.sequence (LazyLisp.eval ⟨s.limit, tree⟩ s.limit) 0 .void items)
      (Eval.sequence (LazyLisp.eval ⟨s.limit, tree'⟩ s.limit) 0 .void items') :=
    Runs.foldlM forms start fun _ _ _ _ _ related => related
  have shown : ∀ {m m' : Memory}, (unseen x).Memories 0 m m' →
      m.output.toList.map Value.rendered = m'.output.toList.map Value.rendered := by
    intro m m' memories
    obtain ⟨given, split, related⟩ := memories.output
    rw [split]
    exact map_eq_of_related (fun _ _ values => values.2.rendered) related
  rw [answer_run, answer_run, evalAndShow_eq, evalAndShow_eq, evalSource_of_read read,
    evalSource_of_read read']
  simp only [evalForms, perform_eq, context]
  obtain ⟨v, v', m, m', e, e', values, after⟩ | ⟨d, d', m, m', e, e', reports, after⟩ :=
    (sequences _ _ (unseen_new x s.limit)).cases
  · have all := shown (after.emit values)
    simp only [Session.new] at e e'
    simp only [Session.new, e, e']
    simp only [Answer.bare, values.2.rendered, Except.map, Session.emit, all]
  · have all := shown after
    simp only [Session.new] at e e'
    have same : d.bare = d'.bare := reports
    simp only [Session.new, e, e']
    simp only [Answer.bare, Except.map, Option.map_some, Except.mapError, same, all]

/-- Forms that agree but for origins, where the name occurs in none of them. -/
theorem forall₂_unseen {forms items items' : List Value} (unused : ∀ f ∈ forms, x ∉ f.symbols)
    (alike : items.map Value.bare = forms.map Value.bare)
    (alike' : items'.map Value.bare = forms.map Value.bare) (legible : ∀ v ∈ items, v.Legible) :
    List.Forall₂ (unseen x).expr items items' := by
  have each : ∀ e ∈ items, ∀ e', e.Like .anyOrigin e' ↔ e.bare = e'.bare :=
    fun _ _ _ => Value.like_iff_bare
  have avoids : ∀ e ∈ items, e.Avoids x := by
    intro e member
    obtain ⟨f, inside, same⟩ : ∃ f ∈ forms, f.bare = e.bare := by
      rw [← List.mem_map, ← alike]
      exact List.mem_map_of_mem member
    refine (legible e member).isCode.avoids ?_
    rw [← e.symbols_bare, ← same, f.symbols_bare]
    exact unused f inside
  have same := (forall₂_iff_map_eq each).2 (alike.trans alike'.symm)
  exact (List.forall₂_and_left _ _).2 ⟨avoids, same⟩

/-- **Unused definitions have no effect.** Take a program in a source, with a form `(define x e)`
among its forms and `x` in none of the others, and any expression `e₂` that can be read from a
source. Then some source is the program with `e₂` in place of `e`. Run in whatever session, with
whatever limit, such a source has the answer of the first: the same value as printed or a report of
the same kind and message, and the same values shown. -/
theorem unused_definition {source source₂ x : String} {e e₂ : Value} {before after : List Value}
    (program : Reader.Reads source (before ++ .definition x e :: after))
    (unused : ∀ f ∈ before ++ after, x ∉ f.symbols) (expression : Reader.Reads source₂ [e₂]) :
    (∃ source', Reader.Reads source' (before ++ .definition x e₂ :: after)) ∧
      ∀ source', Reader.Reads source' (before ++ .definition x e₂ :: after) → ∀ s : Session,
        (s.answer (.run source)).bare = (s.answer (.run source')).bare := by
  refine ⟨Reader.exists_reads_redefined program expression, ?_⟩
  intro source' program' s
  obtain ⟨items, tree, read, alike, legible⟩ := program.exists_readProgram {}
  obtain ⟨first, e₁, origin, last, rfl, hfirst, -, hlast⟩ := exists_parts alike
  obtain ⟨firstLegible, rest⟩ := List.forall_mem_append.1 legible
  obtain ⟨-, lastLegible⟩ := List.forall_mem_cons.1 rest
  obtain ⟨items', tree', read', alike', -⟩ := program'.exists_readProgram {}
  obtain ⟨first', e₂', origin', last', rfl, hfirst', -, hlast'⟩ := exists_parts alike'
  obtain ⟨unusedBefore, unusedAfter⟩ := List.forall_mem_append.1 unused
  have contexts : (unseen x).Contexts ⟨s.limit, tree⟩ ⟨s.limit, tree'⟩ :=
    contexts_of_bare rfl s.limit tree tree'
  have evaluators : (unseen x).Evaluators 0 (LazyLisp.eval ⟨s.limit, tree⟩ s.limit)
      (LazyLisp.eval ⟨s.limit, tree'⟩ s.limit) := eval_related contexts rfl
  have frame : (unseen x).frame 0 0 := rfl
  have firsts := (forall₂_unseen unusedBefore hfirst hfirst' firstLegible).imp
    fun _ _ he => evaluators he frame
  have lasts := (forall₂_unseen unusedAfter hlast hlast' lastLegible).imp
    fun _ _ he => evaluators he frame
  have middle : (unseen x).Related 0 (unseen x).value
      (LazyLisp.eval ⟨s.limit, tree⟩ s.limit
        (.list [.symbol "define", .symbol x, e₁] .code origin) 0)
      (LazyLisp.eval ⟨s.limit, tree'⟩ s.limit
        (.list [.symbol "define", .symbol x, e₂'] .code origin') 0) :=
    definition_related contexts rfl frame trivial s.limit e₁ e₂'
  exact bare_answer_run s read read' (List.rel_append firsts (.cons middle lasts))

/-- The name is `lambda`, and a function is defined by the short form, which stands for a `lambda`
form: neither the first definition nor another that refers to itself makes a difference. The display
and the value of the program are shown. -/
theorem unused_definition_lambda :
    let source := "(define (f a) (display a)) (define lambda (car x)) (f (quote x))"
    let source₂ := "(f lambda)"
    let f : Value := .list [.symbol "define", .list [.symbol "f", .symbol "a"] .code none,
      .list [.symbol "display", .symbol "a"] .code none] .code none
    let e : Value := .list [.symbol "car", .symbol "x"] .code none
    let g : Value := .list [.symbol "f", .list [.symbol "quote", .symbol "x"] .code none] .code none
    let e₂ : Value := .list [.symbol "f", .symbol "lambda"] .code none
    ((Session.new 4).run source).2.memory.output.size = 2 ∧
      Reader.Reads source ([f] ++ .definition "lambda" e :: [g]) ∧
      (∀ form ∈ [f] ++ [g], "lambda" ∉ form.symbols) ∧ Reader.Reads source₂ [e₂] ∧
      (∃ source', Reader.Reads source' ([f] ++ .definition "lambda" e₂ :: [g])) ∧
      ∀ source', Reader.Reads source' ([f] ++ .definition "lambda" e₂ :: [g]) → ∀ s : Session,
        (s.answer (.run source)).bare = (s.answer (.run source')).bare := by
  intro source source₂ f e g e₂
  have symbol : ∀ name ∈ ["define", "f", "a", "display", "lambda", "car", "quote", "x"],
      (Value.symbol name).Legible := by
    have words : ["define", "f", "a", "display", "lambda", "car", "quote", "x"].all (fun name =>
        !name.toList.isEmpty && name.toList.all isAtomChar &&
          (Reader.literal? name.toList).isNone) = true := by decide +kernel
    intro name member
    have word := List.all_eq_true.1 words name member
    simp only [Bool.and_eq_true, Bool.not_eq_true', List.isEmpty_eq_false_iff, List.all_eq_true,
      Option.isNone_iff_eq_none] at word
    obtain ⟨⟨nonempty, chars⟩, plain⟩ := word
    exact .symbol ⟨nonempty, chars⟩ (by rw [Reader.atom, plain])
  have program : Reader.Reads source ([f] ++ .definition "lambda" e :: [g]) := by
    have print : source = Value.writeItems "" true ([f] ++ .definition "lambda" e :: [g]) := by
      simp [source, f, e, g, Value.definition, Value.writeItems, Value.write, Value.gap]
    rw [print]
    exact Reader.reads_writeItems
      (by simp [f, e, g, Value.definition, Value.legible_list, symbol])
  have expression : Reader.Reads source₂ [e₂] := by
    have print : source₂ = Value.writeItems "" true [e₂] := by
      simp [source₂, e₂, Value.writeItems, Value.write, Value.gap]
    rw [print]
    exact Reader.reads_writeItems (by simp [e₂, Value.legible_list, symbol])
  have unused : ∀ form ∈ [f] ++ [g], "lambda" ∉ form.symbols := by decide +kernel
  exact ⟨by decide +kernel, program, unused, expression,
    unused_definition program unused expression⟩

end Session

end LazyLisp
