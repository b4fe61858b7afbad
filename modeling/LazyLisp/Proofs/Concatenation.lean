import LazyLisp.Proofs.Reset
import LazyLisp.Proofs.SourceNodes

/-!
# A program in pieces

Two sources with a line break between them are read as the forms of the first and then those of the
second, since no atom goes on across the break. So evaluating the whole is evaluating the first
source and then, if that succeeded, the second one. The nodes of the second source have other
numbers in the whole than alone, which is why the two agree up to origins.
-/

namespace LazyLisp

namespace Reader

/-- The source can be read, and these are its forms. -/
def ReadsAs (source : String) (forms : List Value) : Prop :=
  ∃ t t' origin, readProgram source t = .ok (.list forms .code origin) t'

/-- The forms of a source that is read into an empty tree. -/
def forms? (source : String) : Option (List Value) :=
  match readProgram source {} with
  | .ok (.list forms .code _) _ => some forms
  | _ => none

theorem readsAs_of_forms? {source : String} {forms : List Value} (h : forms? source = some forms) :
    ReadsAs source forms := by
  unfold forms? at h
  split at h
  · next items origin tree read =>
    cases h
    exact ⟨{}, tree, origin, read⟩
  · cases h

/-- The tokens of a readable source say its forms, which are code. -/
theorem ReadsAs.spells {source : String} {forms : List Value} (h : ReadsAs source forms) :
    Spells (tokenize source) (Value.piecesAll forms) ∧ ∀ v ∈ forms, v.IsCode := by
  obtain ⟨t, t', origin, read⟩ := h
  obtain ⟨items, same, recorded⟩ := (accepted_of_readProgram read).recorded
  cases same
  exact ⟨recorded.spells, recorded.isCode⟩

/-- Into whatever tree a readable source is read, its forms are the same but for origins. -/
theorem ReadsAs.exists_readProgram {source : String} {forms : List Value}
    (h : ReadsAs source forms) (t : SourceTree) :
    ∃ items t', readProgram source t = .ok (.list items .code (some t.nextId)) t' ∧
      items.map Value.bare = forms.map Value.bare := by
  obtain ⟨spells, code⟩ := h.spells
  exact exists_readTokens_of_spells code spells source.utf8ByteSize t

/-- After a line break a text is laid out as it is alone. -/
theorem exists_layout_append (a b : String) :
    ∃ tokens, tokenize (a ++ "\n" ++ b) = tokenize a ++ tokens ∧
      tokens.map (fun t => (t.kind, t.lexeme)) =
        (tokenize b).map fun t => (t.kind, t.lexeme) := by
  have first : Layout 0 a.toList (tokenize a) := layout_iff_tokenize.2 rfl
  have second : Layout 0 b.toList (tokenize b) := layout_iff_tokenize.2 rfl
  obtain ⟨tokens, elsewhere, same⟩ := second.moved (0 + bytes a.toList + '\n'.utf8Size)
  have broken : Layout (0 + bytes a.toList) ('\n' :: b.toList) tokens := .separator rfl elsewhere
  have whole := first.append broken (by simp [isAtomChar, isSeparator])
  have text : a.toList ++ '\n' :: b.toList = (a ++ "\n" ++ b).toList := by simp
  rw [text] at whole
  exact ⟨tokens, layout_iff_tokenize.1 whole, same⟩

theorem piecesAll_append (vs ws : List Value) :
    Value.piecesAll (vs ++ ws) = Value.piecesAll vs ++ Value.piecesAll ws := by
  induction vs with
  | nil => rfl
  | cons v vs ih => rw [List.cons_append, Value.piecesAll, Value.piecesAll, ih, List.append_assoc]

/-- Two sources with a line break between them are read as the forms of both, in order. -/
theorem ReadsAs.exists_readProgram_append {a b : String} {forms forms' : List Value}
    (ha : ReadsAs a forms) (hb : ReadsAs b forms') (t : SourceTree) :
    ∃ items items' t',
      readProgram (a ++ "\n" ++ b) t = .ok (.list (items ++ items') .code (some t.nextId)) t' ∧
        items.map Value.bare = forms.map Value.bare ∧
        items'.map Value.bare = forms'.map Value.bare := by
  obtain ⟨tokens, tokenized, same⟩ := exists_layout_append a b
  have code : ∀ v ∈ forms ++ forms', v.IsCode := List.forall_mem_append.2 ⟨ha.spells.2, hb.spells.2⟩
  have spells : Spells (tokenize (a ++ "\n" ++ b)) (Value.piecesAll (forms ++ forms')) := by
    rw [tokenized, piecesAll_append]
    exact ha.spells.1.append (hb.spells.1.congr same)
  obtain ⟨all, t', read, alike⟩ :=
    exists_readTokens_of_spells code spells (a ++ "\n" ++ b).utf8ByteSize t
  rw [List.map_append] at alike
  obtain ⟨items, items', rfl, first, second⟩ := List.map_eq_append_iff.1 alike
  exact ⟨items, items', t', read, first, second⟩

end Reader

namespace Session

/-- Evaluates forms one after the other. -/
def evalForms (s : Session) (forms : List Value) (env : FrameId) : Outcome Value :=
  s.perform (Eval.sequence (LazyLisp.eval s.context s.limit) env .void forms)

theorem evalSource_of_read {s : Session} {source : String} {forms : List Value} {tag : ListTag}
    {origin : Option NodeId} {t : SourceTree}
    (read : Reader.readProgram source s.tree = .ok (.list forms tag origin) t) :
    s.evalSource source = { s with tree := t }.evalForms forms s.global := by
  rw [evalSource_eq, read]
  rfl

section

variable {α β : Type} {s : Session} {x : EvalM α} {f : α → EvalM β}

theorem perform_bind_of_ok {a : α} (h : (s.perform x).1 = .ok a) :
    s.perform (x >>= f) = (s.perform x).2.perform (f a) := by
  simp only [perform_eq] at h ⊢
  cases ended : x s.memory with
  | ok b m =>
    rw [ended] at h
    obtain rfl := Except.ok.inj h
    rw [bind_of_ok ended]
  | error d m =>
    rw [ended] at h
    cases h

theorem perform_bind_of_error {d : Diagnostic} (h : (s.perform x).1 = .error d) :
    s.perform (x >>= f) = (.error d, (s.perform x).2) := by
  simp only [perform_eq] at h ⊢
  cases ended : x s.memory with
  | ok b m =>
    rw [ended] at h
    cases h
  | error d' m =>
    rw [ended] at h
    obtain rfl := Except.error.inj h
    rw [bind_of_error ended]

theorem context_perform (s : Session) (x : EvalM α) : (s.perform x).2.context = s.context := by
  rw [perform_eq]
  cases x s.memory <;> rfl

theorem global_perform (s : Session) (x : EvalM α) : (s.perform x).2.global = s.global := by
  rw [perform_eq]
  cases x s.memory <;> rfl

end

/-- Forms in two parts, the second of which has some. Of the first part no value counts. -/
theorem sequence_append (ev : Evaluator) (env : FrameId) (start : Value) (forms : List Value)
    {forms' : List Value} (nonempty : forms' ≠ []) :
    Eval.sequence ev env start (forms ++ forms') =
      Eval.sequence ev env start forms >>= fun _ => Eval.sequence ev env .void forms' := by
  have last : (fun v => Eval.sequence ev env v forms') = fun _ =>
      Eval.sequence ev env .void forms' := by
    funext v
    cases forms' with
    | nil => exact absurd rfl nonempty
    | cons e rest => rfl
  rw [← last, Eval.sequence, List.foldlM_append]
  rfl

/-- The second part of the forms is evaluated after the first. -/
theorem evalForms_append_of_ok {s : Session} {forms forms' : List Value} (nonempty : forms' ≠ [])
    {env : FrameId} {v : Value} (h : (s.evalForms forms env).1 = .ok v) :
    s.evalForms (forms ++ forms') env = (s.evalForms forms env).2.evalForms forms' env := by
  simp only [evalForms] at h ⊢
  rw [sequence_append _ env _ forms nonempty, perform_bind_of_ok h, context_perform, limit_perform]

variable {s s' : Session}

/-- Sessions and forms that agree but for origins have outcomes that do. -/
theorem bare_evalForms {forms forms' : List Value} (states : s.bare = s'.bare)
    (alike : forms.map Value.bare = forms'.map Value.bare) (env : FrameId) :
    Outcome.bare (s.evalForms forms env) = Outcome.bare (s'.evalForms forms' env) := by
  have each : ∀ e ∈ forms, ∀ e', Simulation.anyOrigin.expr e e' ↔ e.bare = e'.bare :=
    fun _ _ _ => Value.like_iff_bare
  exact bare_perform states (Simulation.sequence_related (evaluators_of_bare states) rfl .void
    ((forall₂_iff_map_eq each).2 alike))

/-! ## What is shown -/

/-- What a source shows is added to what was shown before. -/
theorem output_evalSource (s : Session) (source : String) :
    s.memory.output.toList <+: (s.evalSource source).2.memory.output.toList := by
  rw [evalSource_eq]
  cases Reader.readProgram source s.tree with
  | error d tree => exact List.prefix_refl _
  | ok program tree =>
    simp only [evalProgram, memory_perform]
    exact ((evalProgram_approximates rfl le_rfl le_rfl program s.global).left s.memory).output

theorem shownSince_append {s₀ s₁ s₂ : Session}
    (h : s₀.memory.output.toList <+: s₁.memory.output.toList)
    (h' : s₁.memory.output.toList <+: s₂.memory.output.toList) :
    s₂.shownSince s₀ = s₁.shownSince s₀ ++ s₂.shownSince s₁ := by
  obtain ⟨shown, first⟩ := h
  obtain ⟨more, second⟩ := h'
  simp only [shownSince, ← Array.length_toList, ← second, ← first, List.drop_left]
  rw [List.append_assoc, List.drop_left]

/-- Where sessions agree but for origins, so does what they have shown, and its text is the same. -/
theorem shownSince_of_bare (states : s.bare = s'.bare) (before : Session) :
    (s.shownSince before).map Value.bare = (s'.shownSince before).map Value.bare ∧
      (s.shownSince before).map Value.rendered = (s'.shownSince before).map Value.rendered := by
  have bare : (s.shownSince before).map Value.bare = (s'.shownSince before).map Value.bare := by
    simp only [shownSince, List.map_drop, bare_output states]
  have each : ∀ v ∈ s.shownSince before, ∀ v', v.Like .anyOrigin v' ↔ v.bare = v'.bare :=
    fun _ _ _ => Value.like_iff_bare
  exact ⟨bare, map_eq_of_related (fun _ _ alike => alike.rendered)
    ((forall₂_iff_map_eq each).2 bare)⟩

section

variable {outcome outcome' : Outcome Value}

theorem exists_ok_of_bare (h : Outcome.bare outcome = Outcome.bare outcome') {v : Value}
    (ended : outcome'.1 = .ok v) : ∃ w, outcome.1 = .ok w := by
  have results := congrArg Prod.fst h
  cases given : outcome.1 with
  | ok w => exact ⟨w, rfl⟩
  | error d => simp [Outcome.bare, given, ended, Except.map, Except.mapError] at results

theorem exists_error_of_bare (h : Outcome.bare outcome = Outcome.bare outcome') {d : Diagnostic}
    (ended : outcome'.1 = .error d) : ∃ d', outcome.1 = .error d' := by
  have results := congrArg Prod.fst h
  cases given : outcome.1 with
  | ok w => simp [Outcome.bare, given, ended, Except.map, Except.mapError] at results
  | error d' => exact ⟨d', rfl⟩

end

/-- **A program may be fed in pieces.** Take two sources that can be read, of which the second has
some form. If the first succeeds, then the whole, with a line break between the two, has the outcome
that the second has after the first, up to origins: the value, or the kind and message of the
report, and the bindings in all frames. It shows what the first shows and then what the second
shows. If the first fails, the whole fails as it does, having shown the same and left the same
bindings; and of the second nothing is evaluated, since whatever were done in place of its forms
would make no difference. -/
theorem evalSource_in_pieces (s : Session) {a b : String} {forms forms' : List Value}
    (ha : Reader.ReadsAs a forms) (hb : Reader.ReadsAs b forms') (nonempty : forms' ≠ []) :
    let first := s.evalSource a
    let whole := s.evalSource (a ++ "\n" ++ b)
    (∀ v, first.1 = .ok v →
      let second := first.2.evalSource b
      let shown := first.2.shownSince s ++ second.2.shownSince first.2
      Outcome.bare whole = Outcome.bare second ∧
        (whole.2.shownSince s).map Value.bare = shown.map Value.bare ∧
        (whole.2.shownSince s).map Value.rendered = shown.map Value.rendered) ∧
      ∀ d, first.1 = .error d →
        Outcome.bare whole = Outcome.bare first ∧
          (whole.2.shownSince s).map Value.bare = (first.2.shownSince s).map Value.bare ∧
          (whole.2.shownSince s).map Value.rendered = (first.2.shownSince s).map Value.rendered ∧
          ∃ items items' tree,
            Reader.readProgram (a ++ "\n" ++ b) s.tree =
                .ok (.list (items ++ items') .code (some s.tree.nextId)) tree ∧
              items.map Value.bare = forms.map Value.bare ∧
              items'.map Value.bare = forms'.map Value.bare ∧
              ∀ rest : Value → EvalM Value, { s with tree }.perform
                (Eval.sequence (LazyLisp.eval ⟨s.limit, tree⟩ s.limit) s.global .void items >>=
                  rest) = whole := by
  intro first whole
  obtain ⟨items, items', tree, read, alike, alike'⟩ := ha.exists_readProgram_append hb s.tree
  obtain ⟨itemsA, treeA, readA, alikeA⟩ := ha.exists_readProgram s.tree
  have nonempty' : items' ≠ [] := by
    rintro rfl
    exact nonempty (List.map_eq_nil_iff.1 alike'.symm)
  have firstIs : first = { s with tree := treeA }.evalForms itemsA s.global :=
    evalSource_of_read readA
  have wholeIs : whole = { s with tree }.evalForms (items ++ items') s.global :=
    evalSource_of_read read
  -- in the whole the forms of the first source come first, and go as they go alone
  have states : Session.bare { s with tree } = Session.bare { s with tree := treeA } := rfl
  have beginning :
      Outcome.bare ({ s with tree }.evalForms items s.global) = Outcome.bare first := by
    rw [firstIs]
    exact bare_evalForms states (alike.trans alikeA.symm) s.global
  constructor
  · intro v succeeded second shown
    obtain ⟨w, begun⟩ := exists_ok_of_bare beginning succeeded
    obtain ⟨itemsB, treeB, readB, alikeB⟩ := hb.exists_readProgram first.2.tree
    have global : first.2.global = s.global := by
      rw [firstIs]
      exact global_perform _ _
    have secondIs : second = { first.2 with tree := treeB }.evalForms itemsB s.global := by
      rw [← global]
      exact evalSource_of_read readB
    have between : ({ s with tree }.evalForms items s.global).2.bare =
        Session.bare { first.2 with tree := treeB } := congrArg Prod.snd beginning
    have outcomes : Outcome.bare whole = Outcome.bare second := by
      rw [wholeIs, secondIs, evalForms_append_of_ok nonempty' begun]
      exact bare_evalForms between (alike'.trans alikeB.symm) s.global
    have same := shownSince_of_bare (congrArg Prod.snd outcomes) s
    rw [shownSince_append (s.output_evalSource a) (first.2.output_evalSource b)] at same
    exact ⟨outcomes, same⟩
  · intro d failed
    obtain ⟨d', stopped⟩ := exists_error_of_bare beginning failed
    have ends : ∀ rest : Value → EvalM Value, { s with tree }.perform
        (Eval.sequence (LazyLisp.eval ⟨s.limit, tree⟩ s.limit) s.global .void items >>= rest) =
          { s with tree }.evalForms items s.global :=
      fun rest => (perform_bind_of_error stopped).trans (Prod.ext stopped.symm rfl)
    have only : whole = { s with tree }.evalForms items s.global := by
      rw [wholeIs, evalForms, sequence_append _ _ _ items nonempty']
      exact ends _
    have outcomes : Outcome.bare whole = Outcome.bare first := only ▸ beginning
    obtain ⟨same, text⟩ := shownSince_of_bare (congrArg Prod.snd outcomes) s
    exact ⟨outcomes, same, text, items, items', tree, read, alike, alike', fun rest =>
      (ends rest).trans only.symm⟩

/-- The second of two sources shows what the first defined, and one that fails at its second form
keeps the next source from being evaluated. -/
theorem evalSource_in_pieces_define :
    let s := Session.new 9
    let define := "(define x (quote (y z)))"
    let failing := "(display (quote y)) (car z)"
    let display := "(display x)"
    let first := s.evalSource define
    let second := first.2.evalSource display
    (∃ forms forms' forms'', Reader.ReadsAs define forms ∧ Reader.ReadsAs failing forms' ∧
        Reader.ReadsAs display forms'' ∧ forms'' ≠ []) ∧
      first.1.isOk = true ∧ second.2.memory.output.size = 1 ∧
      Outcome.bare (s.evalSource (define ++ "\n" ++ display)) = Outcome.bare second ∧
      (s.evalSource failing).1.isOk = false ∧
      (s.evalSource failing).2.memory.output.size = 1 ∧
      Outcome.bare (s.evalSource (failing ++ "\n" ++ display)) =
        Outcome.bare (s.evalSource failing) := by
  intro s define failing display first second
  have readable : ∀ source, (Reader.forms? source).any (!·.isEmpty) = true →
      ∃ forms, Reader.ReadsAs source forms ∧ forms ≠ [] := by
    intro source shape
    obtain ⟨forms, read, nonempty⟩ := Option.any_eq_true _ _ |>.1 shape
    exact ⟨forms, Reader.readsAs_of_forms? read, by simpa using nonempty⟩
  obtain ⟨forms, reads, -⟩ := readable define (by decide +kernel)
  obtain ⟨forms', reads', -⟩ := readable failing (by decide +kernel)
  obtain ⟨forms'', reads'', nonempty⟩ := readable display (by decide +kernel)
  have fine : first.1.isOk = true := by decide +kernel
  have fails : (s.evalSource failing).1.isOk = false := by decide +kernel
  refine ⟨⟨forms, forms', forms'', reads, reads', reads'', nonempty⟩, fine, by decide +kernel, ?_,
    fails, by decide +kernel, ?_⟩
  · cases ended : first.1 with
    | ok v => exact ((evalSource_in_pieces s reads reads'' nonempty).1 v ended).1
    | error d => rw [ended] at fine; cases fine
  · cases ended : (s.evalSource failing).1 with
    | ok v => rw [ended] at fails; cases fails
    | error d => exact ((evalSource_in_pieces s reads' reads'' nonempty).2 d ended).1

end Session

end LazyLisp
