import Mathlib.Data.Nat.Digits.Defs
import LazyLisp.Reader.Program
import LazyLisp.Value.Printer

/-!
# Integer literals

`Literal text n` is the grammar of integer literals: an optional minus sign and decimal digits, at
least one, that spell the number `n`. The reader recognises exactly these texts, and refuses an atom
exactly if it is a literal whose number fits no word. Every other literal is its number, and every
other text is a symbol.
-/

namespace LazyLisp.Reader

/-- The value of a decimal digit. -/
def digitValue (c : Char) : Nat := c.toNat - '0'.toNat

/-- One or more of the characters from `0` to `9`. -/
structure Digits (text : List Char) : Prop where
  nonempty : text ≠ []
  decimal : ∀ c ∈ text, '0' ≤ c ∧ c ≤ '9'

/-- The number that decimal digits spell, the first one being the most significant. -/
def numeral (digits : List Char) : Nat := Nat.ofDigits 10 (digits.reverse.map digitValue)

/-- Integer literals and their numbers. -/
inductive Literal : List Char → Int → Prop
  | natural {digits : List Char} : Digits digits → Literal digits (numeral digits)
  | negative {digits : List Char} : Digits digits → Literal ('-' :: digits) (-numeral digits)

/-- The text is an integer literal whose number does not fit 64 bits. -/
def TooLarge (lexeme : String) : Prop :=
  ∃ n, Literal lexeme.toList n ∧ (n < -2 ^ 63 ∨ 2 ^ 63 - 1 < n)

theorem isDigit_iff (c : Char) : c.isDigit = true ↔ '0' ≤ c ∧ c ≤ '9' := by
  simp [Char.isDigit, Char.le_def]

theorem naturalOf_eq_numeral (digits : List Char) : naturalOf digits = numeral digits := by
  unfold naturalOf numeral
  rw [← List.foldr_reverse, Nat.ofDigits_eq_foldr, List.foldr_map]
  congr 1
  funext c n
  simp only [digitValue, Nat.cast_id]
  omega

theorem natural?_eq_some_iff {text : List Char} {n : Nat} :
    natural? text = some n ↔ Digits text ∧ numeral text = n := by
  have digits : (text ≠ [] ∧ text.all Char.isDigit) ↔ Digits text := by
    simp only [List.all_eq_true, isDigit_iff]
    exact ⟨fun h => ⟨h.1, h.2⟩, fun h => ⟨h.nonempty, h.decimal⟩⟩
  unfold natural?
  simp only [digits, naturalOf_eq_numeral, Option.ite_none_right_eq_some, Option.some.injEq]

theorem literal?_eq_some_iff {text : List Char} {n : Int} :
    literal? text = some n ↔ Literal text n := by
  constructor
  · intro h
    unfold literal? at h
    split at h
    · obtain ⟨k, read, rfl⟩ := Option.map_eq_some_iff.1 h
      obtain ⟨j, found, same⟩ := Option.bind_eq_some_iff.1 read
      obtain rfl : (j : Int) = k := Option.some.inj same
      obtain ⟨digits, rfl⟩ := natural?_eq_some_iff.1 found
      exact .negative digits
    · obtain ⟨k, found, rfl⟩ := Option.map_eq_some_iff.1 h
      obtain ⟨digits, rfl⟩ := natural?_eq_some_iff.1 found
      exact .natural digits
  · intro h
    cases h with
    | natural digits =>
      have found := natural?_eq_some_iff.2 ⟨digits, rfl⟩
      -- a sign in front would be one of the digits
      have unsigned : ∀ rest, text ≠ '-' :: rest := by
        rintro rest rfl
        exact absurd (digits.decimal '-' List.mem_cons_self).1 (by decide)
      unfold literal?
      split
      · exact absurd rfl (unsigned _)
      · rw [found]
        rfl
    | negative digits =>
      have found := natural?_eq_some_iff.2 ⟨digits, rfl⟩
      simp [literal?, found]

/-- A text spells at most one number. -/
theorem Literal.unique {text : List Char} {m n : Int} (h : Literal text m) (h' : Literal text n) :
    m = n := by
  have same := (literal?_eq_some_iff.2 h).symm.trans (literal?_eq_some_iff.2 h')
  exact Option.some.inj same

theorem word?_eq_none_iff (n : Int) : Number.word? n = none ↔ n < -2 ^ 63 ∨ 2 ^ 63 - 1 < n := by
  unfold Number.word?
  rw [Int64.toInt_minValue, Int64.toInt_maxValue]
  split
  · simp only [reduceCtorEq, false_iff]
    omega
  · simp only [true_iff]
    omega

/-- The reader refuses exactly the literals that are too large. -/
theorem atom_eq_error_iff {lexeme : String} {f : Fault} :
    atom lexeme = .error f ↔ TooLarge lexeme ∧ f = .integerRange lexeme := by
  unfold atom TooLarge
  cases found : literal? lexeme.toList with
  | none =>
    have noLiteral : ∀ n, ¬ Literal lexeme.toList n := by
      intro n h
      have same := found.symm.trans (literal?_eq_some_iff.2 h)
      exact absurd same (by simp)
    simp [noLiteral]
  | some n =>
    have spelled := literal?_eq_some_iff.1 found
    have range : (∃ k, Literal lexeme.toList k ∧ (k < -2 ^ 63 ∨ 2 ^ 63 - 1 < k)) ↔
        Number.word? n = none := by
      rw [word?_eq_none_iff]
      constructor
      · intro h
        obtain ⟨k, other, large⟩ := h
        rw [spelled.unique other]
        exact large
      · intro large
        exact ⟨n, spelled, large⟩
    rw [range]
    cases fits : Number.word? n with
    | none => simp [fits, eq_comm]
    | some w => simp [fits]

theorem exists_atom_iff {lexeme : String} : (∃ v, atom lexeme = .ok v) ↔ ¬ TooLarge lexeme := by
  constructor
  · intro h large
    obtain ⟨v, read⟩ := h
    have refused := atom_eq_error_iff.2 ⟨large, rfl⟩
    rw [read] at refused
    cases refused
  · intro fits
    cases read : atom lexeme with
    | ok v => exact ⟨v, rfl⟩
    | error f => exact absurd (atom_eq_error_iff.1 read).1 fits

/-! ## Numbers as they are printed -/

theorem digits_toDigits (n : Nat) : Digits (Nat.toDigits 10 n) where
  nonempty := Nat.toDigits_ne_nil
  decimal c member := (isDigit_iff c).1 (Nat.isDigit_of_mem_toDigits (by decide) (by decide) member)

theorem numeral_toDigits (n : Nat) : numeral (Nat.toDigits 10 n) = n := by
  have back : Nat.ofDigitChars 10 (Nat.toDigits 10 n) 0 = n := Nat.ofDigitChars_ten_toDigits
  rw [← naturalOf_eq_numeral, naturalOf]
  simpa only [Nat.ofDigitChars_eq_foldl, Nat.mul_comm 10] using back

/-- A printed number is a literal that spells it. -/
theorem literal_repr (n : Int) : Literal n.repr.toList n := by
  rw [Int.repr_eq_if]
  split
  · next natural =>
    have spelled := Literal.natural (digits_toDigits n.toNat)
    rw [numeral_toDigits, Int.toNat_of_nonneg natural] at spelled
    rwa [Nat.toList_repr]
  · next negative =>
    have spelled := Literal.negative (digits_toDigits (-n).toNat)
    rw [numeral_toDigits, Int.toNat_of_nonneg (by omega), Int.neg_neg] at spelled
    simpa [Nat.toList_repr] using spelled

theorem atom_of_literal {lexeme : String} {w : Int64} (spelled : Literal lexeme.toList w.toInt) :
    atom lexeme = .ok (.int w) := by
  simp only [atom, literal?_eq_some_iff.2 spelled, Number.word?_toInt]

/-- A printed word is read as that word. -/
theorem atom_repr (n : Int64) : atom n.toInt.repr = .ok (.int n) :=
  atom_of_literal (literal_repr n.toInt)

/-! ## What an atom is -/

/-- The value of an atom that stands at `span`, or the report that it has none. -/
def atomAt (lexeme : String) (span : Span) : Except Diagnostic Value :=
  (atom lexeme).mapError fun f => f.diagnosticAt span

theorem atom_of_not_literal {lexeme : String} (other : ∀ n, ¬ Literal lexeme.toList n) :
    atom lexeme = .ok (.symbol lexeme) := by
  have none : literal? lexeme.toList = none := by
    apply Option.eq_none_iff_forall_ne_some.2
    intro n found
    exact other n (literal?_eq_some_iff.1 found)
  simp only [atom, none]

/-- The reader takes the value of an atom, or stops with the report. -/
theorem Reading.feed_atom (r : Reading) (lexeme : String) (span : Span) (tree : SourceTree) :
    r.feed ⟨.atom, lexeme, span⟩ tree =
      match atomAt lexeme span with
      | .ok v => .ok { r with innermost := r.innermost.add v } tree
      | .error d => .error d tree := by
  unfold feed atomAt
  cases atom lexeme <;> rfl

/-- **What an atom is.** An optional minus sign and one or more decimal digits, zeros in front
allowed, are the integer that they spell if it fits 64 bits; if it does not, the atom is reported
where it stands. Every other text is the symbol of this name. So a printed integer is read as
itself. What the reader does with an atom follows this in every state. -/
theorem atoms_classified (lexeme : String) (span : Span) :
    (∀ n, Literal lexeme.toList n → -2 ^ 63 ≤ n → n ≤ 2 ^ 63 - 1 →
      ∃ w : Int64, w.toInt = n ∧ atomAt lexeme span = .ok (.int w)) ∧
    (∀ n, Literal lexeme.toList n → n < -2 ^ 63 ∨ 2 ^ 63 - 1 < n →
      atomAt lexeme span = .error
        { kind := .reading
          message := "integer literal `" ++ lexeme ++ "` is out of range"
          span := some span }) ∧
    ((∀ n, ¬ Literal lexeme.toList n) → atomAt lexeme span = .ok (.symbol lexeme)) ∧
    (∀ w : Int64, atomAt (Value.int w).display span = .ok (.int w)) ∧
    ∀ (r : Reading) (tree : SourceTree), r.feed ⟨.atom, lexeme, span⟩ tree =
      match atomAt lexeme span with
      | .ok v => .ok { r with innermost := r.innermost.add v } tree
      | .error d => .error d tree := by
  refine ⟨?_, ?_, ?_, ?_, fun r tree => r.feed_atom lexeme span tree⟩
  · intro n spelled low high
    have fits : Number.word? n ≠ none := by
      rw [Ne, word?_eq_none_iff]
      omega
    obtain ⟨w, held⟩ := Option.ne_none_iff_exists'.1 fits
    have same : w.toInt = n := Number.toInt_of_word? held
    refine ⟨w, same, ?_⟩
    rw [atomAt, atom_of_literal (same ▸ spelled)]
    rfl
  · intro n spelled large
    rw [atomAt, atom_eq_error_iff.2 ⟨⟨n, spelled, large⟩, rfl⟩]
    rfl
  · intro other
    rw [atomAt, atom_of_not_literal other]
    rfl
  · intro w
    have text : (Value.int w).display = w.toInt.repr := by
      rw [Value.display, Value.write, String.empty_append]
    rw [text, atomAt, atom_repr]
    rfl

/-- The least word with zeros in front is read; its magnitude alone does not fit; a digit of another
script makes a symbol. -/
theorem atoms_classified_boundary :
    let least := "-009223372036854775808"
    let large := "9223372036854775808"
    let other := "-٣"
    Literal least.toList (-2 ^ 63) ∧ Literal large.toList (2 ^ 63) ∧
      (∀ n, ¬ Literal other.toList n) ∧
      (∃ w : Int64, w.toInt = -2 ^ 63 ∧ atomAt least ⟨0, 22⟩ = .ok (.int w)) ∧
      atomAt large ⟨23, 42⟩ = .error
        { kind := .reading
          message := "integer literal `" ++ large ++ "` is out of range"
          span := some ⟨23, 42⟩ } ∧
      atomAt other ⟨43, 46⟩ = .ok (.symbol other) := by
  intro least large other
  have spelledLeast : Literal least.toList (-2 ^ 63) := literal?_eq_some_iff.1 (by decide +kernel)
  have spelledLarge : Literal large.toList (2 ^ 63) := literal?_eq_some_iff.1 (by decide +kernel)
  have unspelled : ∀ n, ¬ Literal other.toList n := by
    intro n spelled
    have none : literal? other.toList = none := by decide +kernel
    rw [literal?_eq_some_iff.2 spelled] at none
    cases none
  exact ⟨spelledLeast, spelledLarge, unspelled,
    (atoms_classified least ⟨0, 22⟩).1 _ spelledLeast (by decide) (by decide),
    (atoms_classified large ⟨23, 42⟩).2.1 _ spelledLarge (.inr (by decide)),
    (atoms_classified other ⟨43, 46⟩).2.2.1 unspelled⟩

end LazyLisp.Reader
