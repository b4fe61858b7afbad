import LazyLisp.Proofs.Layout

/-!
# The tokens of a text

What the tokens of a text are is said here by where they stand, without a word about how they are
found: a token is a piece of the text, the pieces follow each other, all else is separators, and two
atoms never touch. The lexer finds such tokens in every text, and a text has no other.

`Layout` says the same from left to right, so the way leads through it. A layout adds one token or
separator in front of a rest; from a decomposition the first token is taken off.
-/

namespace LazyLisp

/-- Space, tab, carriage return and line feed. -/
def separators : List Char := [' ', '\t', '\r', '\n']

theorem isSeparator_iff (c : Char) : isSeparator c = true ↔ c ∈ separators := by
  simp [isSeparator, separators, or_assoc]

theorem isAtomChar_iff (c : Char) :
    isAtomChar c = true ↔ c ∉ separators ∧ c ≠ '(' ∧ c ≠ ')' := by
  rw [← isSeparator_iff]
  simp [isAtomChar, and_assoc]

/-- In the text `cs`, which begins at byte `offset`, the characters `part` stand from byte `start`
on. -/
def Stands (offset : Nat) (cs : List Char) (start : Nat) (part : List Char) : Prop :=
  ∃ before after, cs = before ++ part ++ after ∧ start = offset + bytes before

/-- The text `cs`, which begins at byte `offset`, consists of the tokens and of separators. -/
structure Decomposition (offset : Nat) (cs : List Char) (tokens : List Token) : Prop where
  nonempty : ∀ t ∈ tokens, t.span.start < t.span.stop
  slice : ∀ t ∈ tokens, Stands offset cs t.span.start t.lexeme.toList ∧
    t.span.stop = t.span.start + bytes t.lexeme.toList
  ordered : tokens.Pairwise fun t t' => t.span.stop ≤ t'.span.start
  /-- What belongs to no token is a separator. -/
  gaps : ∀ start c, Stands offset cs start [c] →
    c ∈ separators ∨ ∃ t ∈ tokens, t.span.start ≤ start ∧ start < t.span.stop
  opening : ∀ t ∈ tokens, t.kind = .opening → t.lexeme = "("
  closing : ∀ t ∈ tokens, t.kind = .closing → t.lexeme = ")"
  atom : ∀ t ∈ tokens, t.kind = .atom → ∀ c ∈ t.lexeme.toList,
    c ∉ separators ∧ c ≠ '(' ∧ c ≠ ')'
  /-- A separator stands between two atoms. -/
  apart : ∀ t t', [t, t'] <:+: tokens → t.kind = .atom → t'.kind = .atom →
    ∃ start, ∃ c ∈ separators, Stands offset cs start [c] ∧
      t.span.stop ≤ start ∧ start < t'.span.start

theorem Token.Kind.bracket?_eq_none_iff {kind : Token.Kind} :
    kind.bracket? = none ↔ kind = .atom := by
  cases kind <;> simp [bracket?]

theorem Token.Kind.bracket_cases {kind : Token.Kind} {c : Char} (h : kind.bracket? = some c) :
    c = '(' ∨ c = ')' := by
  cases kind with
  | opening => exact .inl (Option.some.inj h).symm
  | closing => exact .inr (Option.some.inj h).symm
  | atom => cases h

/-! ## Places in a text -/

theorem bytes_eq_zero_iff {cs : List Char} : bytes cs = 0 ↔ cs = [] := by
  cases cs with
  | nil => simp
  | cons c cs =>
    have positive := c.utf8Size_pos
    simp only [bytes_cons, reduceCtorEq, iff_false]
    omega

namespace Stands

variable {offset start : Nat} {cs x y part : List Char}

theorem le (h : Stands offset cs start part) :
    offset ≤ start ∧ start + bytes part ≤ offset + bytes cs := by
  obtain ⟨before, after, rfl, rfl⟩ := h
  simp only [bytes_append]
  omega

/-- What stands in the second part of a text stands in the text. -/
theorem append_left (h : Stands (offset + bytes x) y start part) :
    Stands offset (x ++ y) start part := by
  obtain ⟨before, after, rfl, rfl⟩ := h
  exact ⟨x ++ before, after, by simp, by rw [bytes_append]; omega⟩

/-- What stands in a text past its first part stands in the second. -/
theorem of_le (h : Stands offset (x ++ y) start part) (past : offset + bytes x ≤ start) :
    Stands (offset + bytes x) y start part := by
  obtain ⟨before, after, split, rfl⟩ := h
  rw [List.append_assoc] at split
  obtain ⟨rest, rfl, rfl⟩ : ∃ rest, before = x ++ rest ∧ y = rest ++ (part ++ after) := by
    rcases List.append_eq_append_iff.1 split with ⟨rest, longer, same⟩ | ⟨rest, longer, same⟩
    · exact ⟨rest, longer, same⟩
    · have none : bytes rest = 0 := by
        rw [longer, bytes_append] at past
        omega
      obtain rfl := bytes_eq_zero_iff.1 none
      exact ⟨[], by simpa using longer.symm, by simpa using same.symm⟩
  exact ⟨rest, after, by simp, by rw [bytes_append]; omega⟩

/-- A single character stands in the first part of a text or in the second. -/
theorem one_append {c : Char} (h : Stands offset (x ++ y) start [c]) :
    c ∈ x ∧ start < offset + bytes x ∨ Stands (offset + bytes x) y start [c] := by
  by_cases past : offset + bytes x ≤ start
  · exact .inr (h.of_le past)
  · obtain ⟨before, after, split, rfl⟩ := h
    refine .inl ⟨?_, by omega⟩
    rw [List.append_assoc, List.singleton_append] at split
    rcases List.append_eq_append_iff.1 split with ⟨rest, rfl, rfl⟩ | ⟨rest, rfl, same⟩
    · rw [bytes_append] at past
      omega
    · cases rest with
      | nil => simp at past
      | cons d rest =>
        obtain ⟨rfl, -⟩ := List.cons.inj same
        simp

end Stands

namespace Decomposition

variable {offset : Nat} {cs x y : List Char} {t : Token} {tokens : List Token}

theorem le_start (h : Decomposition offset cs tokens) (member : t ∈ tokens) :
    offset ≤ t.span.start :=
  (h.slice t member).1.le.1

/-- No token begins before the first one. -/
theorem first_le (h : Decomposition offset cs (t :: tokens)) :
    ∀ u ∈ t :: tokens, t.span.start ≤ u.span.start := by
  intro u member
  rcases List.mem_cons.1 member with rfl | later
  · exact Nat.le_refl _
  · have nonempty := h.nonempty t List.mem_cons_self
    have after := List.rel_of_pairwise_cons h.ordered later
    omega

/-- Where no token has begun there are only separators. -/
theorem blank (h : Decomposition offset (x ++ y) tokens)
    (before : ∀ t ∈ tokens, offset + bytes x ≤ t.span.start) : ∀ c ∈ x, c ∈ separators := by
  intro c member
  obtain ⟨front, back, rfl⟩ := List.append_of_mem member
  have stands : Stands offset (front ++ c :: back ++ y) (offset + bytes front) [c] :=
    ⟨front, back ++ y, by simp, rfl⟩
  rcases h.gaps _ c stands with separator | ⟨t, inside, begun, -⟩
  · exact separator
  · have later := before t inside
    have positive := c.utf8Size_pos
    simp only [bytes_append, bytes_cons] at later
    omega

/-- A token that is a parenthesis is that character. -/
theorem spelled {c : Char} (h : Decomposition offset cs tokens) (member : t ∈ tokens)
    (isBracket : t.kind.bracket? = some c) : t.lexeme.toList = [c] := by
  cases kind : t.kind with
  | opening =>
    rw [kind] at isBracket
    rw [h.opening t member kind, ← Option.some.inj isBracket]
    rfl
  | closing =>
    rw [kind] at isBracket
    rw [h.closing t member kind, ← Option.some.inj isBracket]
    rfl
  | atom =>
    rw [kind] at isBracket
    cases isBracket

/-! ## A layout is a decomposition -/

/-- Separators in front. -/
theorem skip (h : Decomposition (offset + bytes x) y tokens) (blank : ∀ c ∈ x, c ∈ separators) :
    Decomposition offset (x ++ y) tokens where
  nonempty := h.nonempty
  slice t member := ⟨(h.slice t member).1.append_left, (h.slice t member).2⟩
  ordered := h.ordered
  gaps start c stands := by
    rcases stands.one_append with ⟨member, -⟩ | later
    · exact .inl (blank c member)
    · exact h.gaps start c later
  opening := h.opening
  closing := h.closing
  atom := h.atom
  apart t t' adjacent atom atom' := by
    obtain ⟨start, c, separator, stands, between⟩ := h.apart t t' adjacent atom atom'
    exact ⟨start, c, separator, stands.append_left, between⟩

/-- If the text does not begin with an atom but its first token is one, it begins with a
separator. -/
theorem exists_separator (h : Decomposition offset cs (t :: tokens)) (atom : t.kind = .atom)
    (ends : ∀ c ∈ cs.head?, isAtomChar c = false) :
    ∃ c ∈ separators, Stands offset cs offset [c] ∧ offset < t.span.start := by
  obtain ⟨⟨before, after, split, start⟩, stop⟩ := h.slice t List.mem_cons_self
  have nonempty := h.nonempty t List.mem_cons_self
  obtain ⟨d, lexeme, spelled⟩ : ∃ d lexeme, t.lexeme.toList = d :: lexeme := by
    refine List.exists_cons_of_ne_nil fun empty => ?_
    rw [empty, bytes_nil] at stop
    omega
  cases before with
  | nil =>
    -- the atom would stand at the very beginning
    have inside : isAtomChar d = true :=
      (isAtomChar_iff d).2 (h.atom t List.mem_cons_self atom d (by simp [spelled]))
    have first := ends d (by simp [split, spelled])
    rw [inside] at first
    cases first
  | cons c before =>
    have positive := c.utf8Size_pos
    rw [List.append_assoc] at split
    have blank : ∀ e ∈ c :: before, e ∈ separators := by
      rw [split] at h
      exact h.blank (start ▸ h.first_le)
    refine ⟨c, blank c List.mem_cons_self, ⟨[], before ++ (t.lexeme.toList ++ after), ?_, rfl⟩, ?_⟩
    · simpa using split
    · rw [start, bytes_cons]
      omega

/-- A token in front. -/
theorem token {kind : Token.Kind} {word : List Char}
    (h : Decomposition (offset + bytes word) y tokens) (nonempty : word ≠ [])
    (opening : kind = .opening → word = ['(']) (closing : kind = .closing → word = [')'])
    (atom : kind = .atom → ∀ c ∈ word, isAtomChar c = true)
    (ends : kind = .atom → ∀ c ∈ y.head?, isAtomChar c = false) :
    Decomposition offset (word ++ y) (Token.at kind word offset :: tokens) where
  nonempty := by
    refine List.forall_mem_cons.2 ⟨?_, h.nonempty⟩
    have some := mt bytes_eq_zero_iff.1 nonempty
    simp only [Token.at]
    omega
  slice := by
    refine List.forall_mem_cons.2 ⟨⟨⟨[], y, by simp [Token.at], rfl⟩, by simp [Token.at]⟩, ?_⟩
    exact fun t member => ⟨(h.slice t member).1.append_left, (h.slice t member).2⟩
  ordered := List.pairwise_cons.2 ⟨fun t member => h.le_start member, h.ordered⟩
  gaps start c stands := by
    rcases stands.one_append with ⟨-, inside⟩ | later
    · exact .inr ⟨_, List.mem_cons_self, stands.le.1, inside⟩
    · refine (h.gaps start c later).imp_right ?_
      rintro ⟨t, member, covers⟩
      exact ⟨t, List.mem_cons_of_mem _ member, covers⟩
  opening :=
    List.forall_mem_cons.2 ⟨fun isOpening => by simp [Token.at, opening isOpening], h.opening⟩
  closing :=
    List.forall_mem_cons.2 ⟨fun isClosing => by simp [Token.at, closing isClosing], h.closing⟩
  atom := by
    refine List.forall_mem_cons.2 ⟨fun isAtom c member => ?_, h.atom⟩
    exact (isAtomChar_iff c).1 (atom isAtom c (by simpa [Token.at] using member))
  apart t t' adjacent isAtom isAtom' := by
    rcases List.infix_cons_iff.1 adjacent with first | later
    · obtain ⟨rfl, rest⟩ := List.cons_prefix_cons.1 first
      obtain ⟨more, rfl⟩ := rest
      obtain ⟨c, separator, stands, before⟩ := h.exists_separator isAtom' (ends isAtom)
      exact ⟨_, c, separator, stands.append_left, Nat.le_refl _, before⟩
    · obtain ⟨start, c, separator, stands, between⟩ := h.apart t t' later isAtom isAtom'
      exact ⟨start, c, separator, stands.append_left, between⟩

theorem of_layout (h : Layout offset cs tokens) : Decomposition offset cs tokens := by
  induction h with
  | @done offset =>
    constructor
    · simp
    · simp
    · exact .nil
    · rintro start c ⟨before, after, split, -⟩
      simp at split
    · simp
    · simp
    · simp
    · intro t t' adjacent
      simp at adjacent
  | @separator offset c cs tokens separator _ ih =>
    have blank : ∀ d ∈ [c], d ∈ separators :=
      List.forall_mem_singleton.2 ((isSeparator_iff c).1 separator)
    have behind : Decomposition (offset + bytes [c]) cs tokens := by simpa using ih
    exact behind.skip blank
  | @bracket offset c kind cs tokens isBracket _ ih =>
    have behind : Decomposition (offset + bytes [c]) cs tokens := by simpa using ih
    refine behind.token (List.cons_ne_nil _ _) ?_ ?_ ?_ ?_
    · rintro rfl
      rw [← Option.some.inj isBracket]
    · rintro rfl
      rw [← Option.some.inj isBracket]
    · rintro rfl
      cases isBracket
    · rintro rfl
      cases isBracket
  | atom nonempty inside maximal _ ih =>
    exact ih.token nonempty (by simp) (by simp) (fun _ => inside) fun _ => maximal

/-! ## A decomposition is a layout -/

/-- The text after the first token. -/
theorem rest (h : Decomposition offset (x ++ y) (t :: tokens))
    (ends : t.span.stop = offset + bytes x) : Decomposition (offset + bytes x) y tokens where
  nonempty := (List.forall_mem_cons.1 h.nonempty).2
  slice u member := by
    obtain ⟨stands, stop⟩ := h.slice u (List.mem_cons_of_mem t member)
    exact ⟨stands.of_le (ends ▸ List.rel_of_pairwise_cons h.ordered member), stop⟩
  ordered := (List.pairwise_cons.1 h.ordered).2
  gaps start c stands := by
    refine (h.gaps start c stands.append_left).imp_right ?_
    rintro ⟨u, member, begun, open'⟩
    rcases List.mem_cons.1 member with rfl | later
    · have past := stands.le.1
      omega
    · exact ⟨u, later, begun, open'⟩
  opening := (List.forall_mem_cons.1 h.opening).2
  closing := (List.forall_mem_cons.1 h.closing).2
  atom := (List.forall_mem_cons.1 h.atom).2
  apart u u' adjacent isAtom isAtom' := by
    obtain ⟨start, c, separator, stands, after, before⟩ :=
      h.apart u u' (adjacent.trans (List.infix_cons List.infix_rfl)) isAtom isAtom'
    have member : u ∈ tokens := adjacent.subset (by simp)
    have nonempty := h.nonempty u (List.mem_cons_of_mem t member)
    have past := List.rel_of_pairwise_cons h.ordered member
    exact ⟨start, c, separator, stands.of_le (by omega), after, before⟩

/-- What follows an atom at once is no part of an atom: it would belong to a token that begins
there, and that token would be an atom too. -/
theorem maximal (h : Decomposition offset (x ++ y) (t :: tokens))
    (ends : t.span.stop = offset + bytes x) (atom : t.kind = .atom) :
    ∀ c ∈ y.head?, isAtomChar c = false := by
  intro c first
  by_contra goesOn
  obtain ⟨notSeparator, notOpening, notClosing⟩ := (isAtomChar_iff c).1 (by simpa using goesOn)
  obtain ⟨y, rfl⟩ : ∃ y', y = c :: y' := by
    cases y with
    | nil => simp at first
    | cons d y => exact ⟨y, by simpa using first⟩
  have behind := h.rest ends
  have stands : Stands (offset + bytes x) (c :: y) (offset + bytes x) [c] := ⟨[], y, rfl, rfl⟩
  rcases behind.gaps _ c stands with separator | ⟨u, member, begun, -⟩
  · exact notSeparator separator
  · cases tokens with
    | nil => cases member
    | cons t' tokens =>
      have least := behind.first_le u member
      have here : t'.span.start = offset + bytes x :=
        Nat.le_antisymm (by omega) (behind.le_start List.mem_cons_self)
      obtain ⟨⟨before, after, split, start⟩, stop⟩ := behind.slice t' List.mem_cons_self
      have nonempty := behind.nonempty t' List.mem_cons_self
      obtain rfl : before = [] := bytes_eq_zero_iff.1 (by omega)
      have spelled : t'.lexeme.toList.head? = some c := by
        cases word : t'.lexeme.toList with
        | nil =>
          rw [word, bytes_nil] at stop
          omega
        | cons d word =>
          rw [word] at split
          simp only [List.nil_append, List.cons_append] at split
          simp [(List.cons.inj split).1]
      cases isBracket : t'.kind.bracket? with
      | some d =>
        rw [behind.spelled List.mem_cons_self isBracket] at spelled
        obtain rfl : d = c := Option.some.inj spelled
        rcases Token.Kind.bracket_cases isBracket with rfl | rfl
        · exact notOpening rfl
        · exact notClosing rfl
      | none =>
        have kind := Token.Kind.bracket?_eq_none_iff.1 isBracket
        have adjacent : [t, t'] <:+: t :: t' :: tokens := ⟨[], tokens, rfl⟩
        obtain ⟨start, -, -, -, after, before⟩ := h.apart t t' adjacent atom kind
        omega

end Decomposition

theorem Token.eq_at {t : Token} (stop : t.span.stop = t.span.start + bytes t.lexeme.toList) :
    t = Token.at t.kind t.lexeme.toList t.span.start := by
  obtain ⟨kind, lexeme, ⟨start, last⟩⟩ := t
  have same : last = start + bytes lexeme.toList := stop
  simp [Token.at, same]

/-- Separators in front of a layout. -/
theorem Layout.skip {offset : Nat} {x y : List Char} {tokens : List Token}
    (blank : ∀ c ∈ x, c ∈ separators) (h : Layout (offset + bytes x) y tokens) :
    Layout offset (x ++ y) tokens := by
  induction x generalizing offset with
  | nil => simpa using h
  | cons c x ih =>
    obtain ⟨first, rest⟩ := List.forall_mem_cons.1 blank
    refine .separator ((isSeparator_iff c).2 first) (ih rest ?_)
    simpa [Nat.add_assoc] using h

/-- The first token is taken off, and the separators before it. -/
theorem Decomposition.layout {offset : Nat} {cs : List Char} {tokens : List Token}
    (h : Decomposition offset cs tokens) : Layout offset cs tokens := by
  induction tokens generalizing offset cs with
  | nil =>
    rw [← List.append_nil cs] at h ⊢
    exact .skip (h.blank (by simp)) .done
  | cons t tokens ih =>
    obtain ⟨⟨before, after, rfl, begins⟩, ends⟩ := h.slice t List.mem_cons_self
    have blank : ∀ c ∈ before, c ∈ separators := by
      rw [List.append_assoc] at h
      exact h.blank (begins ▸ h.first_le)
    have stops : t.span.stop = offset + bytes (before ++ t.lexeme.toList) := by
      rw [bytes_append]
      omega
    have behind := ih (h.rest stops)
    rw [bytes_append, ← Nat.add_assoc, ← begins] at behind
    rw [List.append_assoc]
    refine .skip blank ?_
    rw [← begins]
    have placed := Token.eq_at ends
    cases isBracket : t.kind.bracket? with
    | some c =>
      have spelled := h.spelled List.mem_cons_self isBracket
      rw [spelled] at placed behind ⊢
      have whole := Layout.bracket isBracket (by simpa using behind)
      rwa [← placed] at whole
    | none =>
      have kind := Token.Kind.bracket?_eq_none_iff.1 isBracket
      have nonempty : t.lexeme.toList ≠ [] := by
        intro empty
        have some := h.nonempty t List.mem_cons_self
        rw [empty, bytes_nil] at ends
        omega
      have inside : ∀ c ∈ t.lexeme.toList, isAtomChar c = true := fun c member =>
        (isAtomChar_iff c).2 (h.atom t List.mem_cons_self kind c member)
      have whole := Layout.atom nonempty inside (h.maximal stops kind) behind
      rwa [← kind, ← placed] at whole

/-- **The lexer finds the one decomposition of a text into tokens.** Each token is a piece of the
text that is not empty, at the bytes of its span; the tokens follow each other without overlap; all
around them are separators; parentheses are tokens of their own, an atom has neither parentheses nor
separators in it, and between two atoms there is a separator. There is exactly one list of tokens
like that, and it is what `tokenize` gives. -/
theorem tokenize_decomposes (source : String) (tokens : List Token) :
    Decomposition 0 source.toList tokens ↔ tokenize source = tokens :=
  ⟨fun h => layout_iff_tokenize.1 h.layout, fun h => .of_layout (layout_iff_tokenize.2 h)⟩

end LazyLisp
