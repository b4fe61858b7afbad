import LazyLisp.Proofs.Numbering
import LazyLisp.Proofs.Origins
import LazyLisp.Proofs.Shape

/-!
# A `let` is a call

`(let ((name expr)...) body...)` does what `((lambda () (define name expr)... body...))` does, if no
name is bound twice. The `let` makes one frame and evaluates the body in it. The call first makes a
function, which nothing refers to afterwards, then an empty frame, which the definitions fill. At
that point the two memories differ in the count of closures alone, so the bodies are evaluated
alike, with each closure made from then on numbered one higher by the call.

One more evaluation must be allowed inside the expression, for the body on the one side and for the
`lambda` on the other. Where the limit does not allow it, both fail with the same report; the frame
of the `let` has been made then, and nothing refers to it.
-/

namespace LazyLisp

/-! ## The two expressions -/

/-- `(let ((name expr)...) body...)` -/
def letExpr (bindings : List (String × Value)) (body : List Value) : Value :=
  .list (.symbol "let" ::
    .list (bindings.map fun p => .list [.symbol p.1, p.2] .code none) .code none :: body) .code none

/-- `(define name expr)` -/
def defineExpr (name : String) (e : Value) : Value :=
  .list [.symbol "define", .symbol name, e] .code none

/-- `((lambda () (define name expr)... body...))` -/
def callExpr (bindings : List (String × Value)) (body : List Value) : Value :=
  .list [.list (.symbol "lambda" :: .list [] .code none ::
    (bindings.map (fun p => defineExpr p.1 p.2) ++ body)) .code none] .code none

/-- The expression is `(define name expr)`, of any origin. -/
def Value.Defines (d : Value) (p : String × Value) : Prop :=
  ∃ origin, d = .list [.symbol "define", .symbol p.1, p.2] .code origin

/-- The binding without origins. -/
def bareBinding (p : String × Value) : String × Value := (p.1, p.2.bare)

section

variable {bindings : List (String × Value)} {body : List Value} {e : Value}

theorem parse_letExpr (nonempty : body ≠ []) :
    Form.parse .letIn none (.list (bindings.map fun p => .list [.symbol p.1, p.2] .code none)
      .code none :: body) = .ok (.letIn bindings body) := by
  refine Form.parse_let (Form.bindings_eq_ok_iff.2 ?_) nonempty
  exact List.forall₂_map_left_iff.2 (List.forall₂_same.2 fun p _ => ⟨.code, none, rfl⟩)

theorem exists_list_of_like {r : Renaming} {v : Value} {items : List Value} {tag : ListTag}
    {origin : Option NodeId} (h : v.Like r (.list items tag origin)) :
    ∃ items' origin', v = .list items' tag origin' ∧ List.Forall₂ (Value.Like r) items' items := by
  cases h with
  | list hitems _ => exact ⟨_, _, rfl, hitems⟩

theorem map_bare_eq {vs vs' : List Value} (h : List.Forall₂ Simulation.anyOrigin.expr vs vs') :
    vs.map Value.bare = vs'.map Value.bare :=
  map_eq_of_related (fun _ _ alike => Value.like_iff_bare.1 alike) h

/-- Whatever its origins, a `let` makes the form that is meant. -/
theorem exists_let (same : e.bare = (letExpr bindings body).bare) (nonempty : body ≠ []) :
    ∃ args origin bindings' body', e = .list (.symbol "let" :: args) .code origin ∧
      Form.parse .letIn origin args = .ok (.letIn bindings' body') ∧
      bindings'.map bareBinding = bindings.map bareBinding ∧
      body'.map Value.bare = body.map Value.bare := by
  obtain ⟨items, origin, rfl, hitems⟩ := exists_list_of_like (Value.like_iff_bare.2 same)
  obtain _ | @⟨_, _, args, _, head, hargs⟩ := hitems
  cases head
  have origins : Simulation.anyOrigin.origin origin none := trivial
  have parsed := Simulation.parse_related .letIn origins hargs
  rw [parse_letExpr nonempty] at parsed
  obtain ⟨f, f', made, made', forms⟩ | ⟨cause, -, wrong⟩ := parsed.cases
  · cases made'
    cases forms with
    | letIn hbindings hbody =>
      refine ⟨args, origin, _, _, rfl, made, ?_, map_bare_eq hbody⟩
      exact map_eq_of_related (fun p q related => Prod.ext related.1
        (Value.like_iff_bare.1 related.2)) hbindings
  · cases wrong

/-- Whatever its origins, a definition of a name by an expression is one. -/
theorem exists_definition {d : Value} {p : String × Value}
    (alike : d.Like .anyOrigin (defineExpr p.1 p.2)) :
    ∃ p', d.Defines p' ∧ bareBinding p' = bareBinding p := by
  obtain ⟨items, origin, rfl, hitems⟩ := exists_list_of_like alike
  obtain _ | ⟨head, _ | ⟨name, _ | @⟨value, _, _, _, hvalue, _ | _⟩⟩⟩ := hitems
  cases head
  cases name
  exact ⟨(p.1, value), ⟨origin, rfl⟩, Prod.ext rfl (Value.like_iff_bare.1 hvalue)⟩

theorem exists_definitions {defs : List Value}
    (alike : List.Forall₂ (Value.Like .anyOrigin) defs
      (bindings.map fun p => defineExpr p.1 p.2)) :
    ∃ bindings', List.Forall₂ Value.Defines defs bindings' ∧
      bindings'.map bareBinding = bindings.map bareBinding := by
  induction bindings generalizing defs with
  | nil =>
    cases alike
    exact ⟨[], .nil, rfl⟩
  | cons p bindings ih =>
    obtain _ | ⟨first, rest⟩ := alike
    obtain ⟨p', defines, same⟩ := exists_definition first
    obtain ⟨bindings', each, sames⟩ := ih rest
    exact ⟨p' :: bindings', .cons defines each, by rw [List.map_cons, List.map_cons, same, sames]⟩

/-- Whatever its origins, the call is one of a function that makes the definitions that are
meant. -/
theorem exists_call (same : e.bare = (callExpr bindings body).bare) (nonempty : body ≠ []) :
    ∃ args place origin defs bindings' body',
      e = .list [.list (.symbol "lambda" :: args) .code place] .code origin ∧
      Form.parse .lambda place args = .ok (.lambda [] (defs ++ body')) ∧
      List.Forall₂ Value.Defines defs bindings' ∧
      bindings'.map bareBinding = bindings.map bareBinding ∧
      body'.map Value.bare = body.map Value.bare := by
  obtain ⟨items, origin, rfl, hitems⟩ := exists_list_of_like (Value.like_iff_bare.2 same)
  obtain _ | ⟨hfunction, _ | _⟩ := hitems
  obtain ⟨parts, place, rfl, hparts⟩ := exists_list_of_like hfunction
  obtain _ | ⟨head, _ | @⟨params, _, exprs, _, hparams, hexprs⟩⟩ := hparts
  cases head
  obtain ⟨_, _, rfl, _ | _⟩ := exists_list_of_like hparams
  have hdefs := List.forall₂_take_append _ _ _ hexprs
  have hbody := List.forall₂_drop_append _ _ _ hexprs
  obtain ⟨bindings', defines, sames⟩ := exists_definitions hdefs
  refine ⟨_, place, origin, _, bindings', _, rfl, ?_, defines, sames, map_bare_eq hbody⟩
  rw [List.take_append_drop]
  have some_left : exprs ≠ [] := by
    rintro rfl
    exact nonempty (List.append_eq_nil_iff.1 (List.forall₂_nil_left_iff.1 hexprs)).2
  exact Form.parse_lambda rfl some_left

end

/-! ## The frame -/

theorem Store.ext_get? {s s' : Store} (h : ∀ id, s.get? id = s'.get? id) : s = s' :=
  congrArg Store.mk (Array.ext_getElem? h)

/-- Defining in the frame made last is the same as making the frame with the definition. -/
theorem Store.define_push (s : Store) (f : Frame) (name : String) (b : Binding) :
    (s.push f).define s.size name b = s.push (f.set name b) := by
  refine Store.ext_get? fun id => ?_
  rw [Store.define, Store.get?_modify, Store.get?_push, Store.get?_push]
  by_cases last : id = s.size
  · simp [last]
  · simp [last, Ne.symm last]

/-- The frame that the definitions fill. -/
def definedFrame (f : Frame) (bindings : List (String × Value)) : Frame :=
  bindings.foldl (fun f p => f.set p.1 (.deferred p.2)) f

theorem Store.define_all (s : Store) (f : Frame) (bindings : List (String × Value)) :
    bindings.foldl (fun s' p => s'.define s.size p.1 (.deferred p.2)) (s.push f) =
      s.push (definedFrame f bindings) := by
  induction bindings generalizing f with
  | nil => rfl
  | cons p bindings ih =>
    rw [List.foldl_cons, Store.define_push, ih]
    rfl

/-- Where no name is bound twice, it does not matter that the first binding of a name counts for a
`let` and the last for definitions. -/
theorem definedFrame_eq_letFrame {bindings : List (String × Value)}
    (distinct : (bindings.map Prod.fst).Nodup) (env : FrameId) :
    definedFrame { parent := some env } bindings = Eval.letFrame env bindings := by
  have folds : ∀ f : Frame, (∀ p ∈ bindings, f.contains p.1 = false) →
      definedFrame f bindings =
        bindings.foldl (fun f p => f.setNew p.1 (.deferred p.2)) f := by
    induction bindings with
    | nil => exact fun _ _ => rfl
    | cons p bindings ih =>
      intro f free
      obtain ⟨new, rest⟩ := List.forall_mem_cons.1 free
      rw [List.map_cons, List.nodup_cons] at distinct
      have first : f.setNew p.1 (.deferred p.2) = f.set p.1 (.deferred p.2) := by
        rw [Frame.setNew, new]
        rfl
      rw [List.foldl_cons, first, ← ih distinct.2]
      · rfl
      · intro q member
        have other : q.1 ≠ p.1 := fun same =>
          distinct.1 (same ▸ List.mem_map_of_mem member)
        rw [Frame.contains, Frame.get?_set, if_neg other]
        exact rest q member
  exact folds { parent := some env } fun p _ => rfl

/-! ## The call -/

section

variable {c : Context} {bound : Nat} {m : Memory} {env : FrameId}

theorem eval_define (spare : m.depth < c.limit) (name : String) (e : Value)
    (origin : Option NodeId) :
    eval c (bound + 1) (.list [.symbol "define", .symbol name, e] .code origin) env m =
      .ok (.symbol name) { m with store := m.store.define env name (.deferred e) } := by
  have opened : Eval.codeList (eval c bound) env origin [.symbol "define", .symbol name, e]
      m.entered = .ok (.symbol name)
        { m.entered with store := m.store.define env name (.deferred e) } := rfl
  exact Eval.nested_of_ok spare opened

/-- Definitions before a body bind their names, and nothing else comes of them. -/
theorem sequence_definitions (bound : Nat) (env : FrameId) {defs rest : List Value}
    {bindings : List (String × Value)} (defines : List.Forall₂ Value.Defines defs bindings)
    (spare : m.depth < c.limit) (nonempty : rest ≠ []) (start : Value) :
    Eval.sequence (eval c (bound + 1)) env start (defs ++ rest) m =
      Eval.body (eval c (bound + 1)) env rest { m with
        store := bindings.foldl (fun s p => s.define env p.1 (.deferred p.2)) m.store } := by
  induction defines generalizing m start with
  | nil =>
    obtain ⟨e, rest, rfl⟩ := List.exists_cons_of_ne_nil nonempty
    rfl
  | @cons d p defs bindings first _ ih =>
    obtain ⟨origin, rfl⟩ := first
    unfold Eval.sequence
    rw [List.cons_append, List.foldlM_cons, bind_of_ok (eval_define spare p.1 p.2 origin)]
    exact ih (m := { m with store := m.store.define env p.1 (.deferred p.2) }) spare (.symbol p.1)

/-- The call makes a function and a frame, and evaluates the body in it. -/
theorem codeList_call {args exprs : List Value} {place origin : Option NodeId}
    (parsed : Form.parse .lambda place args = .ok (.lambda [] exprs)) (spare : m.depth < c.limit) :
    Eval.codeList (eval c (bound + 1)) env origin [.list (.symbol "lambda" :: args) .code place] m =
      Eval.body (eval c (bound + 1)) m.store.size exprs { m with
        store := m.store.push { parent := some env }
        closures := m.closures + 1 } := by
  have opened : Eval.codeList (eval c bound) env place (.symbol "lambda" :: args) m.entered =
      .ok (.closure m.closures [] exprs env)
        { m.entered with closures := m.closures + 1 } := by
    rw [Eval.codeList_of_parsed rfl parsed]
    rfl
  have made : eval c (bound + 1) (.list (.symbol "lambda" :: args) .code place) env m =
      .ok (.closure m.closures [] exprs env) { m with closures := m.closures + 1 } :=
    Eval.nested_of_ok spare opened
  have items : [Value.list (.symbol "lambda" :: args) .code place].mapM
      (eval c (bound + 1) · env) m = .ok [.closure m.closures [] exprs env]
        { m with closures := m.closures + 1 } := by
    rw [List.mapM_cons, bind_of_ok made]
    rfl
  change Eval.application (eval c (bound + 1)) env _ m = _
  rw [Eval.application, bind_of_ok items]
  rfl

theorem body_call {defs body : List Value} {bindings : List (String × Value)}
    (defines : List.Forall₂ Value.Defines defs bindings)
    (distinct : (bindings.map Prod.fst).Nodup) (nonempty : body ≠ [])
    (spare : m.depth < c.limit) (made : Nat) :
    Eval.body (eval c (bound + 1)) m.store.size (defs ++ body) { m with
        store := m.store.push { parent := some env }
        closures := made } =
      Eval.body (eval c (bound + 1)) m.store.size body { m with
        store := m.store.push (Eval.letFrame env bindings)
        closures := made } := by
  let start : Memory := { m with store := m.store.push { parent := some env }, closures := made }
  have opened : Eval.body (eval c (bound + 1)) m.store.size (defs ++ body) start =
      Eval.sequence (eval c (bound + 1)) m.store.size .void (defs ++ body) start := by
    have whole : defs ++ body ≠ [] := List.append_ne_nil_of_right_ne_nil _ nonempty
    obtain ⟨e, rest, split⟩ := List.exists_cons_of_ne_nil whole
    rw [split]
    rfl
  have spare' : start.depth < c.limit := spare
  have defined := sequence_definitions bound m.store.size defines spare' nonempty .void
  rw [Store.define_all, definedFrame_eq_letFrame distinct] at defined
  exact opened.trans defined

end

/-! ## Beside each other -/

/-- Numbers below `start` stay, the others are moved up by `count`. -/
def Moved (start count i i' : Nat) : Prop := i < start ∧ i' = i ∨ start ≤ i ∧ i' = i + count

theorem moved_iff {start count a a' b b' : Nat} (ha : Moved start count a a')
    (hb : Moved start count b b') : a = b ↔ a' = b' := by
  unfold Moved at ha hb
  omega

/-- What was made before keeps its number. Frames made later are numbered higher by `frames` in the
first run, and closures by `closures` in the second. -/
def Renaming.since (m : Memory) (frames closures : Nat) : Renaming where
  origin _ _ := True
  frame i i' := Moved m.store.size frames i' i
  closure i i' := Moved m.closures closures i i'
  origin_none := trivial
  frame_iff ha hb := (moved_iff ha hb).symm
  closure_iff := moved_iff

/-- Reports that differ at most in their places and notes. -/
def Diagnostic.Same (d d' : Diagnostic) : Prop := d.bare = d'.bare

theorem Diagnostic.Same.refl (d : Diagnostic) : d.Same d := rfl

theorem Diagnostic.same_iff {d d' : Diagnostic} :
    d.Same d' ↔ d.kind = d'.kind ∧ d.message = d'.message := by
  simp [Diagnostic.Same, Diagnostic.bare]

/-- The simulation up to the renaming, with reports that differ at most in their places and
notes. -/
def Renaming.upToPlaces (r : Renaming) : Simulation :=
  r.simulation Diagnostic.Same Diagnostic.Same.refl []

/-- A value that is like itself is like every value that agrees with it but for origins. -/
theorem Value.Like.of_bare {r : Renaming} (anyOrigin : ∀ o o', r.origin o o') {v v' : Value}
    (self : v.Like r v) (same : v.bare = v'.bare) : v.Like r v' := by
  replace same := Value.like_iff_bare.2 same
  induction v generalizing v' with
  | list items tag origin ih =>
    cases self with
    | list selves _ =>
      cases same with
      | list sames _ =>
        refine .list (forall₂_imp_of_mem (fun v member _ => ?_) sames) (anyOrigin _ _)
        exact ih v member (List.forall₂_same.1 selves v member)
  | closure id params body env ih =>
    cases self with
    | closure ids selves frames =>
      cases same with
      | closure sameId sames sameEnv =>
        obtain rfl : id = _ := sameId
        obtain rfl : env = _ := sameEnv
        refine .closure ids (forall₂_imp_of_mem (fun v member _ => ?_) sames) frames
        exact ih v member (List.forall₂_same.1 selves v member)
  | _ =>
    cases same
    exact self

section

variable {m : Memory} {frames closures : Nat}

theorem Memory.below_le_since :
    (Renaming.below m.store.size m.closures).Le (.since m frames closures) where
  origin := id
  frame := fun ⟨same, made⟩ => .inl ⟨same ▸ made, same⟩
  closure := fun ⟨same, made⟩ => .inl ⟨made, same.symm⟩

theorem Memory.Knows.like_since {v v' : Value} (known : m.Knows v) (same : v.bare = v'.bare) :
    v.Like (.since m frames closures) v' :=
  Value.Like.of_bare (fun _ _ => trivial) (Value.Like.mono below_le_since known) same

/-- A memory beside itself, with some frames more on the one side that nothing refers to, and some
closures more on the other. -/
theorem Memory.Numbered.memories (h : m.Numbered) {store : Store}
    (old : ∀ id < m.store.size, store.get? id = m.store.get? id)
    (size : store.size = m.store.size + frames) :
    (Renaming.since m frames closures).upToPlaces.Memories m.depth { m with store }
      { m with closures := m.closures + closures } where
  frames := by
    rintro id id' (⟨made, rfl⟩ | ⟨later, rfl⟩)
    · change Option.Rel _ (store.get? id) (m.store.get? id)
      rw [old id made]
      cases found : m.store.get? id with
      | none => exact .none
      | some f => exact .some ((h.frames found).mono below_le_since)
    · have none' : m.store.get? id' = none := Array.getElem?_eq_none later
      have none : store.get? (id' + frames) = none :=
        Array.getElem?_eq_none (by change store.size ≤ _; omega)
      change Option.Rel _ (store.get? (id' + frames)) (m.store.get? id')
      rw [none, none']
      exact .none
  fresh := by
    intro k
    refine .inr ⟨Nat.le_add_right _ _, ?_⟩
    change store.size + k = m.store.size + k + frames
    omega
  closures := by
    intro k
    refine .inr ⟨Nat.le_add_right _ _, ?_⟩
    change m.closures + closures + k = m.closures + k + closures
    omega
  output := by
    refine ⟨_, (List.nil_append _).symm, List.forall₂_same.2 fun v member => ?_⟩
    exact Value.Like.mono below_le_since (h.output v member)
  depths := ⟨rfl, rfl⟩

end

/-- The values are alike up to the renaming, or the reports have the same kind and message; and the
memories correspond. -/
abbrev Renaming.Outcomes (r : Renaming) (depth : Nat) :
    EStateM.Result Diagnostic Memory Value → EStateM.Result Diagnostic Memory Value → Prop :=
  LazyLisp.Outcomes (r.upToPlaces.Memories depth) Diagnostic.Same (Value.Like r)

section

variable {c : Context} {bound : Nat} {m : Memory} {env : FrameId}
  {bindings bindings' : List (String × Value)} {body body' defs args args' : List Value}
  {place origin origin' : Option NodeId}

/-- What code lists do inside one more evaluation; their reports are placed on the way out. -/
theorem outcomes_codeLists {r : Renaming} {items items' : List Value} (spare : m.depth < c.limit)
    (h : r.Outcomes (m.depth + 1) (Eval.codeList (eval c bound) env origin items m.entered)
      (Eval.codeList (eval c bound) env origin' items' m.entered)) :
    r.Outcomes m.depth (eval c (bound + 1) (.list items .code origin) env m)
      (eval c (bound + 1) (.list items' .code origin') env m) := by
  change r.Outcomes m.depth
    (EvalM.nested c.limit (Eval.step c (eval c bound) (.list items .code origin) env) m)
    (EvalM.nested c.limit (Eval.step c (eval c bound) (.list items' .code origin') env) m)
  obtain ⟨v, v', t, t', e, e', values, after⟩ | ⟨d, d', t, t', e, e', reports, after⟩ := h.cases
  · rw [Eval.nested_of_ok spare e, Eval.nested_of_ok spare e', after.depths.1, after.depths.2]
    exact .ok values (after.withDepth m.depth)
  · rw [Eval.nested_of_error spare e, Eval.nested_of_error spare e', after.depths.1,
      after.depths.2]
    refine .error ?_ (after.withDepth m.depth)
    rw [Diagnostic.Same, Context.bare_annotate, Context.bare_annotate, reports]

theorem codeList_let (ev : Evaluator)
    (parsed : Form.parse .letIn origin args = .ok (.letIn bindings body)) :
    Eval.codeList ev env origin (.symbol "let" :: args) m =
      Eval.body ev m.store.size body
        { m with store := m.store.push (Eval.letFrame env bindings) } := by
  rw [Eval.codeList_of_parsed rfl parsed]
  rfl

/-- Without room for the evaluations inside, the `let` has made its frame when it fails. -/
theorem let_call_full (numbered : m.Numbered) (nonempty : body ≠ [])
    (full : NoRoom c bound m.entered) (spare : m.depth < c.limit)
    (parsed : Form.parse .letIn origin args = .ok (.letIn bindings body)) (items : List Value) :
    (Renaming.since m 1 0).Outcomes m.depth
      (eval c (bound + 1) (.list (.symbol "let" :: args) .code origin) env m)
      (eval c (bound + 1) (.list [.list items .code place] .code origin') env m) := by
  refine outcomes_codeLists spare ?_
  have failed : Eval.codeList (eval c bound) env origin (.symbol "let" :: args) m.entered =
      .error (Fault.depth c.limit).diagnostic
        { m.entered with store := m.store.push (Eval.letFrame env bindings) } := by
    have full' : NoRoom c bound
        { m.entered with store := m.store.push (Eval.letFrame env bindings) } := full
    obtain ⟨e, rest, rfl⟩ := List.exists_cons_of_ne_nil nonempty
    rw [codeList_let _ parsed]
    exact bind_of_error (eval_of_noRoom full' e _)
  have failed' : Eval.codeList (eval c bound) env origin' [.list items .code place] m.entered =
      .error (Fault.depth c.limit).diagnostic m.entered :=
    bind_of_error (bind_of_error (eval_of_noRoom full _ env))
  rw [failed, failed']
  have old : ∀ id < m.store.size, (m.store.push (Eval.letFrame env bindings)).get? id =
      m.store.get? id := fun id made => m.store.get?_push_old _ made
  exact .error rfl ((numbered.memories old (m.store.size_push _)).withDepth (m.depth + 1))

/-- With room for them, both sides come to evaluate the body in like frames. -/
theorem let_call_free (numbered : m.Numbered) (frame : env < m.store.size)
    (distinct : (bindings'.map Prod.fst).Nodup) (nonempty : body' ≠ [])
    (free : m.entered.depth < c.limit)
    (hbindings : List.Forall₂ (fun p q => p.1 = q.1 ∧ p.2.Like (.since m 0 1) q.2) bindings
      bindings')
    (hbody : List.Forall₂ (Value.Like (.since m 0 1)) body body')
    (parsed : Form.parse .letIn origin args = .ok (.letIn bindings body))
    (parsed' : Form.parse .lambda place args' = .ok (.lambda [] (defs ++ body')))
    (defines : List.Forall₂ Value.Defines defs bindings') :
    (Renaming.since m 0 1).Outcomes m.depth
      (eval c (bound + 2) (.list (.symbol "let" :: args) .code origin) env m)
      (eval c (bound + 2) (.list [.list (.symbol "lambda" :: args') .code place] .code origin')
        env m) := by
  refine outcomes_codeLists (Nat.lt_of_succ_lt free) ?_
  rw [codeList_let _ parsed, codeList_call parsed' free, body_call defines distinct nonempty free]
  let S := (Renaming.since m 0 1).upToPlaces
  have starts : S.Memories m.depth m { m with closures := m.closures + 1 } :=
    numbered.memories (fun _ _ => rfl) rfl
  have inside : S.frame env env := .inl ⟨frame, rfl⟩
  have evaluators : S.Evaluators (m.depth + 1) (eval c (bound + 1)) (eval c (bound + 1)) :=
    Simulation.eval_related (Simulation.contexts_of_bare rfl c.limit c.tree c.tree) rfl
  have frames : S.Frames (Eval.letFrame env bindings) (Eval.letFrame env bindings') :=
    Simulation.letFrame_related inside hbindings
  exact Simulation.body_related evaluators (starts.fresh 0) hbody _ _
    ((starts.withDepth (m.depth + 1)).push frames)

end

/-- What is known of a `let` is known of its bindings and its body. -/
theorem knows_of_let {m : Memory} {args body : List Value} {origin : Option NodeId}
    {bindings : List (String × Value)}
    (known : m.Knows (.list (.symbol "let" :: args) .code origin))
    (parsed : Form.parse .letIn origin args = .ok (.letIn bindings body)) :
    (∀ p ∈ bindings, m.Knows p.2) ∧ ∀ e ∈ body, m.Knows e := by
  have inside := (List.forall_mem_cons.1 (Memory.knows_list_iff.1 known)).2
  have self : m.self.origin origin origin := trivial
  have forms := Simulation.parse_related .letIn self (Memory.knowsAll_iff.2 inside)
  rw [parsed] at forms
  cases forms with
  | ok forms =>
    cases forms with
    | letIn hbindings hbody =>
      exact ⟨fun p member => (List.forall₂_same.1 hbindings p member).2,
        Memory.knowsAll_iff.1 hbody⟩

/-- The two evaluations, in any memory and whatever the bound. -/
theorem let_call_outcomes (c : Context) (bound : Nat) {m : Memory} {env : FrameId}
    {bindings : List (String × Value)} {body : List Value} {e e' : Value}
    (isLet : e.bare = (letExpr bindings body).bare)
    (isCall : e'.bare = (callExpr bindings body).bare)
    (distinct : (bindings.map Prod.fst).Nodup) (nonempty : body ≠ []) (numbered : m.Numbered)
    (frame : env < m.store.size) (known : m.Knows e) :
    ∃ frames closures, (Renaming.since m frames closures).Outcomes m.depth
      (eval c bound e env m) (eval c bound e' env m) := by
  obtain ⟨args, origin, bindings₁, body₁, rfl, parsed, same₁, sameBody₁⟩ :=
    exists_let isLet nonempty
  obtain ⟨args', place, origin', defs, bindings₂, body₂, rfl, parsed', defines, same₂, sameBody₂⟩ :=
    exists_call isCall nonempty
  have filled : ∀ {exprs : List Value}, exprs.map Value.bare = body.map Value.bare →
      exprs ≠ [] := by
    rintro _ same rfl
    exact nonempty (List.map_eq_nil_iff.1 same.symm)
  by_cases full : NoRoom c bound m
  · refine ⟨0, 0, ?_⟩
    rw [eval_of_noRoom full, eval_of_noRoom full]
    exact .error rfl (numbered.memories (fun _ _ => rfl) rfl)
  obtain ⟨bound, rfl, spare⟩ := exists_of_room full
  by_cases full' : NoRoom c bound m.entered
  · exact ⟨1, 0, let_call_full numbered (filled sameBody₁) full' spare parsed _⟩
  obtain ⟨bound, rfl, free⟩ := exists_of_room full'
  obtain ⟨knownBindings, knownBody⟩ := knows_of_let known parsed
  have names : (bindings₂.map Prod.fst).Nodup := by
    have sames := congrArg (List.map Prod.fst) same₂
    rw [List.map_map, List.map_map] at sames
    exact (show bindings₂.map Prod.fst = bindings.map Prod.fst from sames) ▸ distinct
  have hbindings : List.Forall₂ (fun p q => p.1 = q.1 ∧ p.2.Like (.since m 0 1) q.2) bindings₁
      bindings₂ := by
    refine forall₂_of_map_eq (same₁.trans same₂.symm) fun p member q same => ?_
    obtain ⟨name, expr⟩ := Prod.ext_iff.1 same
    exact ⟨name, (knownBindings p member).like_since expr⟩
  have hbody : List.Forall₂ (Value.Like (.since m 0 1)) body₁ body₂ :=
    forall₂_of_map_eq (sameBody₁.trans sameBody₂.symm) fun e member _ same =>
      (knownBody e member).like_since same
  exact ⟨0, 1, let_call_free numbered frame names (filled sameBody₂) free hbindings hbody parsed
    parsed' defines⟩

/-! ## Sessions -/

/-- Values alike up to the renaming, or reports of the same kind and message. -/
inductive Renaming.Results (r : Renaming) :
    Except Diagnostic Value → Except Diagnostic Value → Prop
  | ok {v v' : Value} : v.Like r v' → Results r (.ok v) (.ok v')
  | error {d d' : Diagnostic} : d.kind = d'.kind → d.message = d'.message →
    Results r (.error d) (.error d')

/-- Sessions that agree up to the renaming. Frames that correspond have parents that correspond, and
bind the same names to values and expressions that are alike; the values shown are alike; frames and
closures made from now on correspond again. -/
structure Renaming.Sessions (r : Renaming) (s s' : Session) : Prop where
  limit : s.limit = s'.limit
  global : r.frame s.global s'.global
  tree : s.tree = s'.tree
  nextTree : s.nextTree = s'.nextTree
  memory : r.upToPlaces.Memories s.memory.depth s.memory s'.memory

/-- What has been shown since then on either side is alike. -/
theorem Renaming.Sessions.shownSince {r : Renaming} {s s' : Session} (h : r.Sessions s s')
    (before : Session) :
    List.Forall₂ (Value.Like r) (s.shownSince before) (s'.shownSince before) := by
  obtain ⟨shown, split, alike⟩ := h.memory.output
  obtain rfl : s'.memory.output.toList = shown := split
  exact List.forall₂_drop _ alike

/-! ## Frames that can be reached -/

section

variable {r : Renaming} {id : FrameId}

/-- The frame has a counterpart. -/
def Renaming.Matched (r : Renaming) (id : FrameId) : Prop := ∃ id', r.frame id id'

theorem Value.Like.matched {v v' : Value} (h : v.Like r v') : v.CapturedIn r.Matched := by
  induction v generalizing v' with
  | list items tag origin ih =>
    cases h with
    | list related _ =>
      refine Value.capturedIn_list_iff.2 fun v member => ?_
      obtain ⟨v', alike⟩ := exists_forall₂_iff.1 ⟨_, related⟩ v member
      exact ih v member alike
  | closure id params body env ih =>
    cases h with
    | closure _ related frames =>
      refine Value.capturedIn_closure_iff.2 ⟨⟨_, frames⟩, fun v member => ?_⟩
      obtain ⟨v', alike⟩ := exists_forall₂_iff.1 ⟨_, related⟩ v member
      exact ih v member alike
  | _ => simp [Value.CapturedIn, Value.captured]

theorem matched_of_bound {b b' : Binding} (h : r.upToPlaces.Bound b b') :
    ∀ i ∈ b.captured, r.Matched i := by
  cases h with
  | value alike => exact Value.Like.matched alike
  | deferred alike => exact Value.Like.matched alike

/-- What corresponds refers only to what corresponds, so a frame without a counterpart is not
reached from frames that have one. -/
theorem Renaming.Sessions.matched {s s' : Session} (h : r.Sessions s s') {roots : List FrameId}
    (starts : ∀ i ∈ roots, r.Matched i) (reached : s.memory.store.Reaches roots id) :
    r.Matched id := by
  have inside : ∀ {i f}, r.Matched i → s.memory.store.get? i = some f →
      ∃ f', r.upToPlaces.Frames f f' := by
    rintro i f ⟨i', related⟩ found
    obtain ⟨none, -⟩ | ⟨g, f', present, -, frames⟩ := optionRel_cases (h.memory.frames related)
    · cases found.symm.trans none
    · cases found.symm.trans present
      exact ⟨f', frames⟩
  induction reached with
  | root member => exact starts _ member
  | parent _ found isParent ih =>
    obtain ⟨f', frames⟩ := inside ih found
    obtain ⟨none, -⟩ | ⟨p, p', present, -, related⟩ := optionRel_cases frames.parent
    · cases isParent.symm.trans none
    · cases isParent.symm.trans present
      exact ⟨p', related⟩
  | binding _ found member captured ih =>
    obtain ⟨f', frames⟩ := inside ih found
    obtain ⟨entry', -, bound⟩ := exists_forall₂_iff.1 ⟨_, frames.bindings⟩ _ member
    exact matched_of_bound (bound not_false) _ captured

end

namespace Session

theorem results_perform {s : Session} {r : Renaming} {x y : EvalM Value}
    (global : r.frame s.global s.global)
    (h : r.Outcomes s.memory.depth (x s.memory) (y s.memory)) :
    r.Results (s.perform x).1 (s.perform y).1 ∧ r.Sessions (s.perform x).2 (s.perform y).2 := by
  rw [perform_eq, perform_eq]
  obtain ⟨v, v', m, m', e, e', values, after⟩ | ⟨d, d', m, m', e, e', reports, after⟩ := h.cases
  · rw [e, e']
    exact ⟨.ok values, rfl, global, rfl, rfl, after.depths.1 ▸ after⟩
  · rw [e, e']
    obtain ⟨kinds, messages⟩ := Diagnostic.same_iff.1 reports
    exact ⟨.error kinds messages, rfl, global, rfl, rfl, after.depths.1 ▸ after⟩

/-- Where one can go on from: the frames that were there before, and those that closures in the
value given or in the values shown were made in. -/
def Outcome.roots (before : Session) (outcome : Outcome Value) : List FrameId :=
  List.range before.memory.store.size ++ (outcome.1.toOption.toList ++
    outcome.2.memory.output.toList).flatMap Value.captured

theorem matched_roots {r : Renaming} {s : Session} {outcome outcome' : Outcome Value}
    (fixed : ∀ i < s.memory.store.size, r.frame i i) (results : r.Results outcome.1 outcome'.1)
    (sessions : r.Sessions outcome.2 outcome'.2) : ∀ i ∈ outcome.roots s, r.Matched i := by
  intro i member
  rcases List.mem_append.1 member with old | later
  · exact ⟨i, fixed i (List.mem_range.1 old)⟩
  · obtain ⟨v, among, captured⟩ := List.mem_flatMap.1 later
    rcases List.mem_append.1 among with given | shown
    · generalize outcome.1 = result, outcome'.1 = result' at given results
      cases results with
      | ok alike =>
        obtain rfl := List.mem_singleton.1 given
        exact alike.matched i captured
      | error _ _ => cases given
    · obtain ⟨_, -, alike⟩ := sessions.memory.output
      obtain ⟨v', like⟩ := exists_forall₂_iff.1 ⟨_, alike⟩ v shown
      exact Value.Like.matched like i captured

/-- **A `let` is a call of a function with internal definitions.** Take a session in which nothing
refers to what has not been made yet, which holds after any calls on a new session, one of its
frames, distinct names, expressions for them and a body. Whatever the limit and the number of
evaluations under way, the `let` and the call give values that are alike or reports of the same kind
and message, show values that are alike, and leave sessions that agree, up to origins and a renaming
of frames and closures that leaves those from before as they are. Every frame of the call has a
counterpart, and so has every frame of the `let` that can still be reached. -/
theorem let_as_call (s : Session) (env : FrameId) (bindings : List (String × Value))
    (body : List Value) (e e' : Value) (isLet : e.bare = (letExpr bindings body).bare)
    (isCall : e'.bare = (callExpr bindings body).bare)
    (distinct : (bindings.map Prod.fst).Nodup) (nonempty : body ≠ []) (numbered : s.Numbered)
    (frame : env < s.memory.store.size) (known : s.memory.Knows e) :
    ∃ r : Renaming, (∀ i < s.memory.store.size, r.frame i i) ∧
      (∀ i < s.memory.closures, r.closure i i) ∧
      r.Results (s.eval e env).1 (s.eval e' env).1 ∧
      List.Forall₂ (Value.Like r) ((s.eval e env).2.shownSince s)
        ((s.eval e' env).2.shownSince s) ∧
      r.Sessions (s.eval e env).2 (s.eval e' env).2 ∧
      (∀ i', ∃ i, r.frame i i') ∧
      ∀ i, (s.eval e env).2.memory.store.Reaches (Outcome.roots s (s.eval e env)) i →
        ∃ i', r.frame i i' := by
  obtain ⟨frames, closures, outcomes⟩ := let_call_outcomes s.context s.limit isLet isCall distinct
    nonempty numbered.memory frame known
  let r := Renaming.since s.memory frames closures
  have fixed : ∀ i < s.memory.store.size, r.frame i i := fun i made => .inl ⟨made, rfl⟩
  have found : ∀ i', ∃ i, r.frame i i' := by
    intro i'
    rcases Nat.lt_or_ge i' s.memory.store.size with old | new
    · exact ⟨i', fixed i' old⟩
    · exact ⟨i' + frames, .inr ⟨new, rfl⟩⟩
  obtain ⟨results, sessions⟩ := results_perform (fixed s.global numbered.global) outcomes
  have roots := matched_roots fixed results sessions
  exact ⟨r, fixed, fun i made => .inl ⟨made, rfl⟩, results, sessions.shownSince s, sessions, found,
    fun i reached => sessions.matched roots reached⟩

/-- A function made inside the `let` is number 1 there, and number 2 inside the call, where number 1
is the function that is called. The function from before keeps its number. -/
theorem let_as_call_function :
    let s := (Session.new 9).after [.evalSource "(define f (lambda () 1)) f"]
    let function : Value := .list [.symbol "lambda", .list [] .code none, .symbol "x"] .code none
    let e := letExpr [("x", .int 1)] [function]
    let e' := callExpr [("x", .int 1)] [function]
    ((s.eval e 0).1 matches .ok (.closure 1 _ _ _)) = true ∧
      ((s.eval e' 0).1 matches .ok (.closure 2 _ _ _)) = true ∧
      ∃ r : Renaming, r.closure 0 0 ∧ r.closure 1 2 ∧
        r.Sessions (s.eval e 0).2 (s.eval e' 0).2 := by
  intro s function e e'
  have ended : ((s.eval e 0).1 matches .ok (.closure 1 _ _ _)) = true := by decide +kernel
  have ended' : ((s.eval e' 0).1 matches .ok (.closure 2 _ _ _)) = true := by decide +kernel
  have made : 0 < s.memory.closures := by decide +kernel
  have numbered : s.Numbered := numbered_after 9 _
  have frame : 0 < s.memory.store.size := by decide +kernel
  have known : s.memory.Knows e := by
    have symbol : ∀ name, s.memory.Knows (.symbol name) := .symbol
    have int : ∀ n, s.memory.Knows (.int n) := .int
    simp [e, function, letExpr, Memory.knows_list_iff, symbol, int]
  obtain ⟨r, -, fixed, results, -, sessions, -⟩ := let_as_call s 0 [("x", .int 1)] [function] e e'
    rfl rfl (by simp) (by simp) numbered frame known
  refine ⟨ended, ended', r, fixed 0 made, ?_, sessions⟩
  generalize (s.eval e 0).1 = result at ended results
  generalize (s.eval e' 0).1 = result' at ended' results
  split at ended
  · split at ended'
    · cases results with
      | ok alike =>
        cases alike with
        | closure ids _ _ => exact ids
    · cases ended'
  · cases ended

end Session

end LazyLisp
