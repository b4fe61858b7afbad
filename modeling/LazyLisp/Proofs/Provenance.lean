import LazyLisp.Proofs.FailingForm

/-!
# Where lists come from

A list that bears an origin was read from a source, or made from such a list: quoting it turns it
and the lists inside it into data, and a `define` list may stand for a function. Each time the
origin is kept. The lists that builtins make bear none. So whatever is computed from sources holds
only lists whose origin leads back to a list of one of the sources; this is the domain of the
sources.
-/

namespace LazyLisp

/-- A source that was read, with the source tree before and after it. -/
structure Source where
  text : String
  before : SourceTree
  program : Value
  tree : SourceTree
  read : Reader.readProgram text before = .ok program tree

/-- The source of this text, read into the tree, if it can be read. -/
def Source.ofText? (before : SourceTree) (text : String) : Option Source :=
  match read : Reader.readProgram text before with
  | .ok program tree => some { text, before, program, tree, read }
  | .error _ _ => none

namespace Source

theorem ofText?_of_ok {before tree : SourceTree} {text : String} {program : Value}
    (read : Reader.readProgram text before = .ok program tree) :
    ofText? before text = some { text, before, program, tree, read } := by
  unfold ofText?
  split
  · next program' tree' again =>
    rw [read] at again
    cases again
    rfl
  · next again =>
    rw [read] at again
    cases again

theorem ofText?_of_error {before tree : SourceTree} {text : String} {d : Diagnostic}
    (read : Reader.readProgram text before = .error d tree) : ofText? before text = none := by
  unfold ofText?
  split
  · next again =>
    rw [read] at again
    cases again
  · rfl

theorem eq_of_ofText? {before : SourceTree} {text : String} {src : Source}
    (h : ofText? before text = some src) : src.text = text ∧ src.before = before := by
  cases read : Reader.readProgram text before with
  | ok program tree =>
    rw [ofText?_of_ok read] at h
    cases h
    exact ⟨rfl, rfl⟩
  | error d tree =>
    rw [ofText?_of_error read] at h
    cases h

variable (src : Source)

theorem isCode : src.program.IsCode := Reader.isCode_of_readProgram src.read

theorem accepted : Reader.Accepted (tokenize src.text) src.text.utf8ByteSize src.before src.program
    src.tree :=
  Reader.accepted_of_readProgram src.read

/-- Each list of the program has its node in the tree. -/
theorem exists_node {items : List Value} {tag : ListTag} {origin : Option NodeId}
    {around : List Value} (nested : Nested src.program (.list items tag origin :: around)) :
    ∃ id node, origin = some id ∧ src.tree.get? id = some node := by
  cases around with
  | nil =>
    have root := src.accepted.root
    have origin := src.accepted.origin_program
    generalize src.program = program at nested origin
    cases nested
    exact ⟨_, _, origin, root⟩
  | cons outer around =>
    obtain ⟨id, span, same, -, -, node, -⟩ := src.accepted.located nested
    exact ⟨id, _, same, node⟩

end Source

/-! ## What is written and what is computed -/

/-- The expression is written in one of the sources. -/
def WrittenIn (sources : List Source) (e : Value) : Prop := ∃ src ∈ sources, PartOf src.program e

/-- Evaluation of the sources can give the value: it is an atom, a list that a builtin made of such
values, the quotation of something that stands in a source, or a function written in one. -/
inductive Derived (sources : List Source) : Value → Prop
  | atom {v : Value} : v.isAtom = true → Derived sources v
  | cell {items : List Value} :
    (∀ v ∈ items, Derived sources v) → Derived sources (.list items .cons none)
  | quoted {src : Source} {datum v : Value} :
    src ∈ sources → Occurs src.program datum → v = datum.quoted → Derived sources v
  | closure {id : Nat} {params : List String} {body : List Value} {env : FrameId} :
    (∀ e ∈ body, WrittenIn sources e ∨ e.isAtom = true) →
      Derived sources (.closure id params body env)

section

variable {sources : List Source} {items : List Value} {tag : ListTag} {origin : Option NodeId}

theorem Occurs.isCode {src : Source} {v : Value} (h : Occurs src.program v) : v.IsCode := by
  obtain ⟨outer, around, nested⟩ := h
  exact (List.forall_mem_cons.1 (nested.isCode src.isCode)).1

/-- A quoted list is the quotation of a list, item by item. -/
theorem Value.IsCode.exists_of_quoted {datum : Value} (code : datum.IsCode)
    (same : .list items tag origin = datum.quoted) :
    ∃ items', datum = .list items' .code origin ∧ items = items'.map Value.quoted ∧
      tag = .quoted := by
  cases code with
  | int n => cases same
  | symbol name => cases same
  | list _ =>
    rw [Value.quoted_code] at same
    cases same
    exact ⟨_, rfl, rfl, rfl⟩

theorem Derived.item (h : Derived sources (.list items tag origin)) :
    ∀ v ∈ items, Derived sources v := by
  cases h with
  | atom atom => cases atom
  | cell inside => exact inside
  | quoted known occurs same =>
    obtain ⟨items', rfl, rfl, -⟩ := occurs.isCode.exists_of_quoted same
    intro v member
    obtain ⟨e, inside, rfl⟩ := List.mem_map.1 member
    exact .quoted known (occurs.item e inside) rfl

/-- What is computed is no code. -/
theorem Derived.tag_ne (h : Derived sources (.list items tag origin)) : tag ≠ .code := by
  rintro rfl
  cases h with
  | atom atom => cases atom
  | quoted known occurs same =>
    obtain ⟨-, -, -, other⟩ := occurs.isCode.exists_of_quoted same
    cases other

theorem Derived.body {id : Nat} {params : List String} {body : List Value} {env : FrameId}
    (h : Derived sources (.closure id params body env)) :
    ∀ e ∈ body, WrittenIn sources e ∨ e.isAtom = true := by
  cases h with
  | atom atom => cases atom
  | closure inside => exact inside
  | quoted known occurs same =>
    cases occurs.isCode with
    | int n => cases same
    | symbol name => cases same
    | list _ =>
      rw [Value.quoted_code] at same
      cases same

/-- All frames, the expressions written in the sources, and what can be computed from them. -/
def Domain.ofSources (sources : List Source) : Domain where
  frame _ := True
  expr e := WrittenIn sources e ∨ e.isAtom = true
  value := Derived sources
  atoms := .atom
  cells := .cell
  items := Derived.item
  made _ inside := .closure inside
  body h := ⟨trivial, h.body⟩
  expr_self := by
    rintro e (⟨src, known, place, outer, around, nested, written⟩ | atom) notSymbol notCode
    · cases written with
      | itself =>
        cases (List.forall_mem_cons.1 (nested.isCode src.isCode)).1 with
        | int n => exact .atom rfl
        | symbol name => exact (notSymbol name rfl).elim
        | list _ => exact (notCode _ _ rfl).elim
      | function => exact (notCode _ _ rfl).elim
    · exact .atom atom
  expr_items := by
    rintro items origin (⟨src, known, part⟩ | atom) headed e member
    · exact .inl ⟨src, known, (ofProgram src.isCode 0).expr_items part headed e member⟩
    · cases atom
  expr_form := by
    rintro items origin k f (⟨src, known, part⟩ | atom) headed parsed e member
    · exact .inl ⟨src, known, (ofProgram src.isCode 0).expr_form part headed parsed e member⟩
    · cases atom
  expr_quoted := by
    rintro items origin k datum (⟨src, known, part⟩ | atom) headed parsed
    · exact .quoted known (part.datum headed parsed) rfl
    · cases atom

/-! ## More sources -/

variable {more : List Source}

theorem WrittenIn.mono (sub : sources ⊆ more) {e : Value} (h : WrittenIn sources e) :
    WrittenIn more e := by
  obtain ⟨src, known, part⟩ := h
  exact ⟨src, sub known, part⟩

theorem Derived.mono (sub : sources ⊆ more) {v : Value} (h : Derived sources v) :
    Derived more v := by
  induction h with
  | atom atom => exact .atom atom
  | cell _ ih => exact .cell ih
  | quoted known occurs same => exact .quoted (sub known) occurs same
  | closure inside => exact .closure fun e member => (inside e member).imp_left (.mono sub)

theorem Domain.Closed.mono (sub : sources ⊆ more) {f : Frame}
    (h : (Domain.ofSources sources).Closed f) : (Domain.ofSources more).Closed f where
  parent _ _ := trivial
  bindings := by
    intro entry member
    have bound := h.bindings entry member
    unfold Domain.bound at bound ⊢
    split at bound
    · exact Derived.mono sub bound
    · exact Or.imp_left (WrittenIn.mono sub) bound

/-! ## The way back to a source -/

/-- The value `w` stands in `v`: it is `v` itself, or stands in an item of the list or in the body
of the closure that `v` is. -/
inductive Value.Contains : (v w : Value) → Prop
  | self (v : Value) : Contains v v
  | item {v w : Value} {items : List Value} {tag : ListTag} {origin : Option NodeId} :
    v ∈ items → Contains v w → Contains (.list items tag origin) w
  | body {e w : Value} {id : Nat} {params : List String} {body : List Value} {env : FrameId} :
    e ∈ body → Contains e w → Contains (.closure id params body env) w

/-- The list was read as `place`, or made from it: it is its quotation, or the function that it
stands for. -/
inductive CopyOf : (l place : Value) → Prop
  | written {l place : Value} : WrittenAs l place → CopyOf l place
  | quoted (place : Value) : CopyOf place.quoted place

/-- The list goes back to a list of one of the sources, which has the same origin. -/
def Traced (sources : List Source) (l : Value) : Prop :=
  ∃ src ∈ sources, ∃ place around, Nested src.program (place :: around) ∧ CopyOf l place ∧
    place.origin? = l.origin?

theorem Value.eq_of_contains_atom {v w : Value} (atom : v.isAtom = true) (h : v.Contains w) :
    w = v := by
  cases h with
  | self => rfl
  | item _ _ => cases atom
  | body _ _ => cases atom

/-- What stands in a part of a program stands in the program. -/
theorem Nested.contains {program v w : Value} (code : program.IsCode) (h : v.Contains w)
    {around : List Value} (nested : Nested program (v :: around)) :
    ∃ around', Nested program (w :: around') := by
  induction h generalizing around with
  | self v => exact ⟨around, nested⟩
  | item member _ ih => exact ih (.item nested member)
  | body member _ _ => cases (List.forall_mem_cons.1 (nested.isCode code)).1

/-- What stands in a quotation is the quotation of what stands there. -/
theorem Value.IsCode.exists_contains {datum w : Value} (code : datum.IsCode)
    (h : datum.quoted.Contains w) : ∃ e, datum.Contains e ∧ w = e.quoted := by
  induction code generalizing w with
  | int n =>
    obtain rfl := eq_of_contains_atom rfl h
    exact ⟨_, .self _, rfl⟩
  | symbol name =>
    obtain rfl := eq_of_contains_atom rfl h
    exact ⟨_, .self _, rfl⟩
  | @list items origin _ ih =>
    rw [quoted_code] at h
    cases h with
    | self => exact ⟨_, .self _, (quoted_code items origin).symm⟩
    | item member inside =>
      obtain ⟨e, place, rfl⟩ := List.mem_map.1 member
      obtain ⟨e', deeper, same⟩ := ih e place inside
      exact ⟨e', .item place deeper, same⟩

theorem Value.origin?_quoted (v : Value) : v.quoted.origin? = v.origin? := by
  cases v with
  | list items tag origin =>
    cases tag with
    | code =>
      rw [quoted_code]
      rfl
    | _ => rfl
  | _ => rfl

variable {id : NodeId}

theorem Nested.traced {src : Source} (known : src ∈ sources) {v : Value} {around : List Value}
    (nested : Nested src.program (v :: around)) {l : Value} (inside : v.Contains l) :
    Traced sources l := by
  obtain ⟨around', place⟩ := nested.contains src.isCode inside
  exact ⟨src, known, l, around', place, .written (.itself l), rfl⟩

theorem WrittenIn.traced {e : Value} (h : WrittenIn sources e)
    (inside : e.Contains (.list items tag (some id))) :
    Traced sources (.list items tag (some id)) := by
  obtain ⟨src, known, place, outer, around, nested, written⟩ := h
  cases written with
  | itself => exact nested.traced known inside
  | function =>
    cases inside with
    | self => exact ⟨src, known, _, _, nested, .written .function, rfl⟩
    | item member deeper =>
      -- the parameter list is made anew and has no origin, but its items were read
      rcases List.mem_cons.1 member with rfl | member
      · cases Value.eq_of_contains_atom rfl deeper
      rcases List.mem_cons.1 member with rfl | member
      · have signature := Nested.item nested (List.mem_cons_of_mem _ List.mem_cons_self)
        cases deeper with
        | item parameter deepest =>
          exact (Nested.item signature (List.mem_cons_of_mem _ parameter)).traced known deepest
      · have form := Nested.item nested (List.mem_cons_of_mem _ (List.mem_cons_of_mem _ member))
        exact form.traced known deeper

/-- **Every list with an origin goes back to a source.** -/
theorem Derived.traced {v : Value} (h : Derived sources v)
    (inside : v.Contains (.list items tag (some id))) :
    Traced sources (.list items tag (some id)) := by
  induction h with
  | atom atom =>
    obtain rfl := Value.eq_of_contains_atom atom inside
    cases atom
  | cell _ ih =>
    cases inside with
    | item member deeper => exact ih _ member deeper
  | @quoted src datum v known occurs same =>
    subst same
    obtain ⟨e, place, copy⟩ := occurs.isCode.exists_contains inside
    obtain ⟨outer, around, nested⟩ := occurs
    obtain ⟨around', nested'⟩ := nested.contains src.isCode place
    refine ⟨src, known, e, around', nested', ?_, ?_⟩
    · rw [copy]
      exact .quoted e
    · rw [copy]
      exact e.origin?_quoted.symm
  | closure body =>
    cases inside with
    | body member deeper =>
      rcases body _ member with written | atom
      · exact written.traced deeper
      · cases Value.eq_of_contains_atom atom deeper
        cases atom

end

end LazyLisp
