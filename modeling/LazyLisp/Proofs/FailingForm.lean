import LazyLisp.Proofs.Active
import LazyLisp.Proofs.Confinement
import LazyLisp.Proofs.SourceNodes

/-!
# Reports point at the form that failed

Everything that is evaluated while a source is run was written in that source: the domain of a
program has the parts of the program for its expressions, and the frames made since the session
started over. So each list whose evaluation is under way at a failure has its node in the source
tree, and the report stands at the innermost of them, with a note for it and for each list around
it.
-/

namespace LazyLisp

/-! ## What a program can evaluate -/

/-- The expression `e` is written as `place`: it stands there itself, or it is the function that the
`define` list there stands for. -/
inductive WrittenAs : (e place : Value) → Prop
  | itself (e : Value) : WrittenAs e e
  | function {name : String} {params body : List Value} {tag : ListTag}
    {signature origin : Option NodeId} :
    WrittenAs (Form.lambdaOf params body origin)
      (.list (.symbol "define" :: .list (.symbol name :: params) tag signature :: body) .code
        origin)

theorem WrittenAs.exists_list {items : List Value} {origin : Option NodeId} {place : Value}
    (h : WrittenAs (.list items .code origin) place) :
    ∃ items', place = .list items' .code origin := by
  cases h with
  | itself => exact ⟨items, rfl⟩
  | function => exact ⟨_, rfl⟩

/-- The expression is written in the program. -/
def PartOf (program e : Value) : Prop :=
  ∃ place outer around, Nested program (place :: outer :: around) ∧ WrittenAs e place

theorem Nested.isCode {program : Value} (code : program.IsCode) {path : List Value}
    (h : Nested program path) : ∀ v ∈ path, v.IsCode := by
  induction h with
  | program => exact List.forall_mem_singleton.2 code
  | item outside member ih =>
    refine List.forall_mem_cons.2 ⟨?_, ih⟩
    cases (List.forall_mem_cons.1 ih).1 with
    | list inside => exact inside _ member

theorem Nested.tail {program v outer : Value} {around : List Value}
    (h : Nested program (v :: outer :: around)) : Nested program (outer :: around) := by
  cases h with
  | item outside _ => exact outside

/-- Quoted code has no closures in it. -/
theorem Value.IsCode.inside_quoted {frame : FrameId → Prop} {expr : Value → Prop} {e : Value}
    (h : e.IsCode) : e.quoted.Inside frame expr := by
  induction h with
  | int n => exact .atom rfl
  | symbol name => exact .atom rfl
  | list _ ih =>
    rw [quoted_code]
    refine .list fun v member => ?_
    obtain ⟨e, inside, rfl⟩ := List.mem_map.1 member
    exact ih e inside

theorem Keyword.eq_of_ofItems?_define {items : List Value}
    (h : Keyword.ofItems? items = some .define) : items = .symbol "define" :: items.tail := by
  unfold Keyword.ofItems? at h
  split at h
  · next name args =>
    unfold Keyword.ofName? at h
    split at h <;> first | rfl | cases h
  · cases h

/-- The function that a `define` list stands for is a `lambda` form. -/
theorem Form.lambda_of_implicit {k : Keyword} {origin : Option NodeId} {params body : List Value}
    {f : Form}
    (headed : Keyword.ofItems? (.symbol "lambda" :: .list params .code none :: body) = some k)
    (parsed : Form.parse k origin (.list params .code none :: body) = .ok f) :
    ∃ names, f = .lambda names body := by
  obtain rfl : Keyword.lambda = k := Option.some.inj headed
  have lambda : parseLambda (.list params .code none :: body) = .ok f := parsed
  exact lambda_of_parse lambda

/-- The value stands somewhere inside the program. -/
def Occurs (program v : Value) : Prop := ∃ outer around, Nested program (v :: outer :: around)

theorem Occurs.item {program : Value} {items : List Value} {tag : ListTag}
    {origin : Option NodeId} (h : Occurs program (.list items tag origin)) :
    ∀ v ∈ items, Occurs program v := by
  obtain ⟨outer, around, nested⟩ := h
  exact fun v member => ⟨_, _, .item nested member⟩

/-- An item of a list in the program, as a part of the program. -/
theorem Nested.partOf {program : Value} {items : List Value} {tag : ListTag}
    {origin : Option NodeId} {around : List Value}
    (h : Nested program (.list items tag origin :: around)) {v : Value} (member : v ∈ items) :
    PartOf program v :=
  ⟨v, _, around, .item h member, .itself v⟩

/-- What a form of the program quotes stands in the program. -/
theorem PartOf.datum {program : Value} {items : List Value} {origin : Option NodeId} {k : Keyword}
    {datum : Value} (h : PartOf program (.list items .code origin))
    (headed : Keyword.ofItems? items = some k)
    (parsed : Form.parse k origin items.tail = .ok (.quote datum)) : Occurs program datum := by
  obtain ⟨place, outer, around, nested, written⟩ := h
  cases written with
  | itself =>
    have member : datum ∈ items := by
      refine List.mem_of_mem_tail ?_
      rw [Form.eq_of_parse_quote parsed]
      exact List.mem_singleton_self datum
    exact ⟨_, _, .item nested member⟩
  | function =>
    obtain ⟨names, other⟩ := Form.lambda_of_implicit headed parsed
    cases other

/-- The frames from `base` on, and the expressions written in a program. -/
def Domain.ofProgram {program : Value} (code : program.IsCode) (base : FrameId) : Domain where
  frame id := base ≤ id
  expr := PartOf program
  expr_self := by
    rintro e ⟨place, outer, around, nested, written⟩ notSymbol notCode
    cases written with
    | itself =>
      cases (List.forall_mem_cons.1 (nested.isCode code)).1 with
      | int n => exact .atom rfl
      | symbol name => exact (notSymbol name rfl).elim
      | list _ => exact (notCode _ _ rfl).elim
    | function => exact (notCode _ _ rfl).elim
  expr_items := by
    rintro items origin ⟨place, outer, around, nested, written⟩ headed e member
    cases written with
    | itself => exact nested.partOf member
    | function => cases headed
  expr_form := by
    rintro items origin k f ⟨place, outer, around, nested, written⟩ headed parsed e member
    cases written with
    | itself =>
      have args : ∀ e ∈ items.tail, Occurs program e := fun e member =>
        ⟨_, _, .item nested (List.mem_of_mem_tail member)⟩
      rcases Form.exprs_of_parse Occurs.item args parsed e member with
        ⟨outer, around, nested⟩ | ⟨rfl, name, params, tag, signature, body, split, rfl⟩
      · exact ⟨e, outer, around, nested, .itself e⟩
      · rw [Keyword.eq_of_ofItems?_define headed, split] at nested
        exact ⟨_, outer, around, nested, .function⟩
    | function =>
      obtain ⟨names, rfl⟩ := Form.lambda_of_implicit headed parsed
      exact nested.partOf (List.mem_cons_of_mem _ (List.mem_cons_of_mem _ member))
  expr_quoted := by
    intro items origin k datum part headed parsed
    obtain ⟨outer, around, nested⟩ := part.datum headed parsed
    exact (List.forall_mem_cons.1 (nested.isCode code)).1.inside_quoted

/-! ## Places and notes -/

/-- The list `v` of the program stands at `span` in the source. It is the one that opens after
`rank` others, the program apart. -/
def LocatedAt (source : String) (program v : Value) (span : Span) : Prop :=
  ∃ rank, program.origins[rank + 1]? = some v.origin? ∧ Reader.StandsAt source v rank span

/-- One note for a list and for each list around it, innermost first, without the program. -/
inductive Noted (source : String) (program : Value) : List Value → List String → Prop
  | program : Noted source program [program] []
  | list {items : List Value} {tag : ListTag} {origin : Option NodeId} {outer : Value}
    {around : List Value} {span : Span} {notes : List String} :
    LocatedAt source program (.list items tag origin) span →
      Noted source program (outer :: around) notes →
      Noted source program (.list items tag origin :: outer :: around)
        (("within (" ++ (items.head?.bind Value.symbol?).getD "..." ++ " ...) at " ++ span.text) ::
          notes)

namespace Reader

variable {source : String} {t t' : SourceTree} {program : Value}

theorem Accepted.located (h : Accepted (tokenize source) source.utf8ByteSize t program t')
    {items : List Value} {tag : ListTag} {origin : Option NodeId} {outer : Value}
    {around : List Value} (nested : Nested program (.list items tag origin :: outer :: around)) :
    ∃ id span, origin = some id ∧ t.size < id.index ∧ id.index < t'.size ∧
      t'.get? id = some ⟨span, outer.origin?, items.head?.bind Value.symbol?⟩ ∧
      LocatedAt source program (.list items tag origin) span := by
  obtain ⟨-, rank, span, rfl, node, stands⟩ := h.node nested
  have present : t.size + 1 + rank < t'.size := by
    unfold SourceTree.get? at node
    split at node
    · exact (Array.getElem?_eq_some_iff.1 node).1
    · cases node
  refine ⟨_, span, rfl, by simp only; omega, present, node, rank, ?_, stands⟩
  rw [h.origins, List.getElem?_map, List.getElem?_range' (by omega)]
  simp [Value.origin?]
  omega

theorem Accepted.origin_program (h : Accepted (tokenize source) source.utf8ByteSize t program t') :
    program.origin? = some t.nextId := by
  obtain ⟨forms, rfl, -⟩ := h.recorded
  rfl

/-- Every list has an origin, the program too. -/
theorem Accepted.exists_origin (h : Accepted (tokenize source) source.utf8ByteSize t program t')
    {v outer : Value} {around : List Value} (nested : Nested program (v :: outer :: around)) :
    ∃ p, outer.origin? = some p := by
  cases nested with
  | item outside _ =>
    cases outside with
    | program => exact ⟨_, h.origin_program⟩
    | item further member =>
      obtain ⟨id, _, same, -⟩ := h.located (.item further member)
      exact ⟨id, same⟩

theorem Accepted.index_parent_lt (h : Accepted (tokenize source) source.utf8ByteSize t program t')
    {id p : NodeId} {n : Node} (new : t.size < id.index) (node : t'.get? id = some n)
    (inside : n.parent = some p) : p.index < id.index := by
  have size : (rooted (tokenize source) source.utf8ByteSize t).size = t.size + 1 :=
    SourceTree.size_push ..
  unfold SourceTree.get? at node
  split at node
  · exact (h.grown.parents id.index n p (by omega) node inside).2
  · cases node

/-- Going outward from a list, a tree gives the notes for it. Each list further out has a smaller
index, so the steps suffice. -/
theorem Accepted.noted (h : Accepted (tokenize source) source.utf8ByteSize t program t')
    {v : Value} {around : List Value} (nested : Nested program (v :: around)) {id : NodeId}
    (origin : v.origin? = some id) {steps : Nat} (enough : id.index ≤ t.size + steps) :
    Noted source program (v :: around) (t'.notesFrom steps id) := by
  induction around generalizing v id steps with
  | nil =>
    cases nested with
    | program =>
      obtain rfl : t.nextId = id := Option.some.inj (h.origin_program.symm.trans origin)
      have none : t'.notesFrom steps t.nextId = [] := by
        cases steps with
        | zero => rfl
        | succ steps => simp [SourceTree.notesFrom, h.root]
      rw [none]
      exact .program
  | cons outer around ih =>
    cases v with
    | list items tag listOrigin =>
      obtain ⟨id', span, same, new, -, node, located⟩ := h.located nested
      obtain rfl : id' = id := Option.some.inj (same.symm.trans origin)
      obtain ⟨p, inside⟩ : ∃ p, outer.origin? = some p := h.exists_origin nested
      have earlier : p.index < id'.index := h.index_parent_lt new node inside
      obtain ⟨steps, rfl⟩ : ∃ k, steps = k + 1 := ⟨steps - 1, by omega⟩
      have further := ih nested.tail inside (by omega : p.index ≤ t.size + steps)
      simp only [SourceTree.notesFrom, node, inside]
      exact .list located further
    | _ => cases origin

end Reader

/-! ## The place of a report -/

theorem Context.foldl_place (c : Context) {d : Diagnostic} {span : Span}
    (placed : d.span = some span) (lists : List Value) : lists.foldl c.place d = d := by
  induction lists with
  | nil => rfl
  | cons v lists ih =>
    have same : c.place d v = d := by
      cases v with
      | list items tag origin => simp only [Context.place, Context.annotate, placed]
      | _ => rfl
    rw [List.foldl_cons, same, ih]

/-- The innermost list places the report, if it has a node. -/
theorem Context.foldl_place_cons (c : Context) (f : Fault) {v : Value} {id : NodeId} {n : Node}
    (origin : v.origin? = some id) (node : c.tree.get? id = some n) (lists : List Value) :
    let d := (v :: lists).foldl c.place f.diagnostic
    d.span = some n.span ∧ d.notes = c.tree.traceback id := by
  cases v with
  | list items tag o =>
    obtain rfl : o = some id := origin
    have here : c.place f.diagnostic (.list items tag (some id)) =
        { f.diagnostic with span := some n.span, notes := c.tree.traceback id } := by
      simp [Context.place, Context.annotate, node, Fault.diagnostic]
    simp only [List.foldl_cons, here]
    rw [c.foldl_place rfl]
    exact ⟨rfl, rfl⟩
  | _ => cases origin

/-- The report points at the list `v` of the program, which is not the program itself: it stands
exactly where `v` is written, and has one note for the list there and for each list around it. -/
def PointsAt (source : String) (program v : Value) (d : Diagnostic) : Prop :=
  ∃ place outer around span, WrittenAs v place ∧ Nested program (place :: outer :: around) ∧
    LocatedAt source program place span ∧ d.span = some span ∧
    Noted source program (place :: outer :: around) d.notes

theorem Reader.Accepted.pointsAt {source : String} {t t' : SourceTree} {program : Value}
    (h : Accepted (tokenize source) source.utf8ByteSize t program t') {items : List Value}
    {origin : Option NodeId} (part : PartOf program (.list items .code origin)) (limit : Nat)
    (f : Fault) (others : List Value) :
    PointsAt source program (.list items .code origin)
      ((.list items .code origin :: others).foldl (Context.place ⟨limit, t'⟩) f.diagnostic) := by
  obtain ⟨place, outer, around, nested, written⟩ := part
  obtain ⟨items', rfl⟩ := written.exists_list
  obtain ⟨id, span, rfl, -, within, node, located⟩ := h.located nested
  have origin : Value.origin? (.list items .code (some id)) = some id := rfl
  obtain ⟨spanned, noted⟩ := Context.foldl_place_cons ⟨limit, t'⟩ f origin node others
  have enough : id.index ≤ t.size + t'.size := by omega
  refine ⟨_, outer, around, span, written, nested, located, spanned, ?_⟩
  rw [noted]
  exact h.noted nested rfl enough

namespace Session

/-- After a reset, the only frame of the domain binds builtins and truth values. -/
theorem inv_reset (s : Session) {program : Value} (code : program.IsCode) :
    (Domain.ofProgram code s.memory.store.size).Inv s.reset.memory s.reset.memory := by
  have store : s.reset.memory.store = s.memory.store.push { bindings := rootBindings } := rfl
  refine ⟨⟨?_, fun _ => rfl, ?_, Nat.le_refl _⟩, [], by simp, by simp⟩
  · intro id f inside found
    have root : f = { bindings := rootBindings } := by
      rw [store, Store.get?_push] at found
      split at found
      · exact (Option.some.inj found).symm
      · have old : id < s.memory.store.size := (Array.getElem?_eq_some_iff.1 found).1
        exact absurd old (Nat.not_lt.2 inside)
    rw [root]
    exact Domain.closed_root _
  · intro id le
    rw [store, Store.size_push] at le
    exact Nat.le_of_succ_le le

/-- The evaluation of a source that was read, but whose run failed. -/
theorem evalProgram_of_run {s : Session} {source : String} {program : Value} {tree : SourceTree}
    {d : Diagnostic} (read : Reader.readProgram source s.reset.tree = .ok program tree)
    (failed : (s.run source).1 = .error d) :
    ∃ m, LazyLisp.evalProgram ⟨s.limit, tree⟩ s.limit program s.reset.global s.reset.memory =
      .error d m := by
  have evaluated : (s.reset.evalSource source).1 = .error d := by
    unfold run at failed
    split at failed
    · next ended =>
      rw [ended]
      exact failed
    · cases failed
  rw [evalSource_eq, read] at evaluated
  obtain ⟨m, ended⟩ := exists_of_perform_error (s := { s.reset with tree }) evaluated
  exact ⟨m, ended⟩

/-- **Reports point at the form that failed.** Run a source that can be read, and let an evaluation
fail, in whatever session and under whatever limit. Take the lists whose evaluation had been entered
and not left when the fault arose. If there are none, the report has neither place nor notes; then
the limit is zero, or the form at the top is no list. Otherwise the report points at the innermost
of them. -/
theorem run_points_at_failing_form (s : Session) (source : String) {program : Value}
    {tree : SourceTree} {d : Diagnostic}
    (read : Reader.readProgram source s.reset.tree = .ok program tree)
    (failed : (s.run source).1 = .error d) :
    ∃ forms origin form m, program = .list forms .code origin ∧
      Eval.firstFailing (LazyLisp.eval ⟨s.limit, tree⟩ s.limit) s.reset.global forms
        s.reset.memory = some ⟨form, s.reset.global, m⟩ ∧
      let lists := Eval.active ⟨s.limit, tree⟩ s.limit ⟨form, s.reset.global, m⟩
      (lists = [] ∧ d.span = none ∧ d.notes = [] ∧ (s.limit = 0 ∨ form.items? = none)) ∨
        ∃ innermost others, lists = innermost :: others ∧ PointsAt source program innermost d := by
  obtain ⟨m', ended⟩ := evalProgram_of_run read failed
  have accepted := Reader.accepted_of_readProgram read
  have code := Reader.isCode_of_readProgram read
  obtain ⟨forms, rfl, -⟩ := accepted.recorded
  obtain ⟨form, member, m, found, failure⟩ := Eval.exists_firstFailing ended
  refine ⟨forms, _, form, m, rfl, found, ?_⟩
  intro lists
  obtain ⟨f, placed⟩ : ∃ f : Fault, d = lists.foldl (Context.place ⟨s.limit, tree⟩) f.diagnostic :=
    report_of_failed _ _ ⟨form, s.reset.global, m⟩ failure
  let D := Domain.ofProgram code s.memory.store.size
  have begins : D.Begins s.reset.memory ⟨form, s.reset.global, m⟩ := by
    refine Domain.begins_firstFailing (D.keeps_eval _ _ _) (Nat.le_refl _) (fun e inside => ?_)
      (s.inv_reset code) found
    exact Nested.program.partOf inside
  have parts : ∀ v ∈ lists, D.expr v ∧ ∃ items origin, v = .list items .code origin :=
    fun v inside => Domain.expr_of_mem_active begins inside
  cases under : lists with
  | nil =>
    rw [under] at placed
    refine .inl ⟨rfl, by rw [placed]; rfl, by rw [placed]; rfl, ?_⟩
    by_cases none : s.limit = 0
    · exact .inl none
    · right
      cases form with
      | list items tag origin =>
        have depth : m.depth = 0 := Eval.depth_firstFailing (growing_eval _ _ · _) found
        have isCode := (List.forall_mem_cons.1 ((Nested.item .program member).isCode code)).1
        cases isCode with
        | list _ => exact absurd under (Eval.active_ne_nil (by omega) (by simp only; omega))
      | _ => rfl
  | cons innermost others =>
    rw [under] at placed parts
    obtain ⟨part, items, origin, rfl⟩ := parts innermost List.mem_cons_self
    rw [placed]
    exact .inr ⟨_, others, rfl, accepted.pointsAt part s.limit f others⟩

/-- The body of `f` is at fault, not its call: the report stands at `(car x)`. -/
theorem run_points_at_failing_form_body :
    let s := Session.new 9
    let source := "(define (f x) (car x)) (f 1)"
    ∃ program tree d, Reader.readProgram source s.reset.tree = .ok program tree ∧
      (s.run source).1 = .error d ∧ d.span = some ⟨14, 21⟩ ∧ ∃ v, PointsAt source program v d := by
  intro s source
  have reads : ((Reader.readProgram source).run' s.reset.tree).isSome = true := by decide +kernel
  have fails : ((s.run source).1.mapError Diagnostic.span).map (fun _ => ()) =
      .error (some ⟨14, 21⟩) := by decide +kernel
  cases read : Reader.readProgram source s.reset.tree with
  | error d tree =>
    delta EStateM.run' EStateM.run at reads
    rw [read] at reads
    cases reads
  | ok program tree =>
    cases failed : (s.run source).1 with
    | ok v =>
      rw [failed] at fails
      cases fails
    | error d =>
      rw [failed] at fails
      have placed : d.span = some ⟨14, 21⟩ := Except.error.inj fails
      refine ⟨program, tree, d, rfl, rfl, placed, ?_⟩
      obtain ⟨_, _, _, _, -, -, ⟨-, unplaced, -⟩ | ⟨v, _, -, points⟩⟩ :=
        run_points_at_failing_form s source read failed
      · rw [placed] at unplaced
        cases unplaced
      · exact ⟨v, points⟩

end Session

end LazyLisp
