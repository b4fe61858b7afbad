import LazyLisp.Eval.Memory
import LazyLisp.Proofs.Literal

/-!
# Division of integers

The quotient of two words is exact if the one divides the other, and a float otherwise. An exact
quotient is no larger than the dividend, so it fits a word; the one exception is the least word
divided by -1. This quotient is not refused as an overflow: it is given as a float.
-/

namespace LazyLisp

namespace Number

/-- An exact quotient fits a word, unless it is that of the least word by -1. -/
theorem word?_quotient_eq_none_iff {a b : Int64} (nonzero : b ≠ 0)
    (divides : b.toInt ∣ a.toInt) :
    word? (a.toInt / b.toInt) = none ↔ a = Int64.minValue ∧ b = -1 := by
  obtain ⟨q, product⟩ := divides
  have divisor : b.toInt ≠ 0 := by
    intro zero
    apply nonzero
    rw [← Int64.toInt_inj, zero]
    rfl
  have low : -2 ^ 63 ≤ a.toInt := by simpa using a.minValue_le_toInt
  have high : a.toInt ≤ 2 ^ 63 - 1 := Int64.toInt_maxValue ▸ a.toInt_le
  have quotient : a.toInt / b.toInt = q := by
    rw [product]
    exact Int.mul_ediv_cancel_left q divisor
  rw [quotient, Reader.word?_eq_none_iff]
  constructor
  · intro large
    -- a quotient that is out of range leaves no room for a divisor of two or more
    have size : q.natAbs ≥ 2 ^ 63 := by omega
    have bounded : b.toInt.natAbs * q.natAbs ≤ 2 ^ 63 := by
      rw [← Int.natAbs_mul, ← product]
      omega
    have unit : b.toInt.natAbs = 1 := by
      have positive : 0 < b.toInt.natAbs := Int.natAbs_pos.2 divisor
      by_contra other
      have two : 2 * q.natAbs ≤ b.toInt.natAbs * q.natAbs :=
        Nat.mul_le_mul_right q.natAbs (by omega)
      omega
    rcases Int.natAbs_eq_iff.1 unit with one | minusOne
    · rw [one, Nat.cast_one, one_mul] at product
      omega
    · rw [minusOne, Nat.cast_one, neg_one_mul] at product
      refine ⟨Int64.toInt_inj.1 ?_, Int64.toInt_inj.1 minusOne⟩
      rw [Int64.toInt_minValue]
      omega
  · rintro ⟨rfl, rfl⟩
    have least : Int64.minValue.toInt = -2 ^ 63 := by decide
    have minusOne : (-1 : Int64).toInt = -1 := by decide
    rw [least, minusOne] at product
    omega

/-- The exact quotient is an integer, if a word holds it. -/
theorem div_of_fits {a b q : Int64} (nonzero : b ≠ 0) (divides : b.toInt ∣ a.toInt)
    (fits : q.toInt = a.toInt / b.toInt) : div (.int a) (.int b) = .ok (.int q) := by
  have held : word? (a.toInt / b.toInt) = some q := by
    rw [← fits]
    exact word?_toInt q
  simp [div, isZero, quotient?, nonzero, divides, held]

/-- Where no word holds an exact quotient, floats are divided. -/
theorem div_of_not_fits {a b : Int64} (nonzero : b ≠ 0)
    (large : b.toInt ∣ a.toInt → word? (a.toInt / b.toInt) = none) :
    div (.int a) (.int b) = .ok (.float (round a / round b)) := by
  have inexact : quotient? (.int a) (.int b) = none := by
    show (if b.toInt ∣ a.toInt then word? (a.toInt / b.toInt) else none) = none
    split
    · next divides => exact large divides
    · rfl
  simp [div, isZero, nonzero, inexact, toFloat]

/-- A word holds a number exactly if `word?` finds it. -/
theorem exists_word_iff (n : Int) : (∃ q : Int64, q.toInt = n) ↔ word? n ≠ none := by
  constructor
  · rintro ⟨q, rfl⟩
    rw [word?_toInt]
    simp
  · intro found
    obtain ⟨q, held⟩ := Option.ne_none_iff_exists'.1 found
    exact ⟨q, toInt_of_word? held⟩

end Number

namespace EvalM

/-- A call that shows nothing leaves the memory as it is. -/
theorem callBuiltin_silent {b : Builtin} {args : List Value} (silent : b.shows args = [])
    (m : Memory) :
    callBuiltin b args m =
      match b.result args with
      | .ok v => .ok v m
      | .error f => .error f.diagnostic m := by
  unfold callBuiltin
  rw [silent]
  cases b.result args <;> rfl

theorem callBuiltin_divide (a b : Int64) (m : Memory) :
    callBuiltin .divide [.int a, .int b] m =
      match Number.div (.int a) (.int b) with
      | .ok n => .ok n.toValue m
      | .error f => .error f.diagnostic m := by
  have result : Builtin.divide.result [.int a, .int b] =
      (Number.div (.int a) (.int b)).map Number.toValue := by
    show (Number.div (.int a) (.int b) >>= fun n => pure n.toValue) = _
    cases Number.div (.int a) (.int b) <;> rfl
  rw [callBuiltin_silent rfl, result]
  cases Number.div (.int a) (.int b) <;> rfl

/-- **Division of two words.** A zero divisor is an error. An exact quotient is an integer wherever
a word holds it, and any other quotient is the float that the rounded operands give. The only exact
quotient that no word holds is that of the least word by -1, and it is such a float too. -/
theorem divide_words (a b : Int64) (m : Memory) :
    (b = 0 → ∃ d, callBuiltin .divide [.int a, .int b] m = .error d m ∧
      d.kind = .evaluation ∧ d.message = "division by zero") ∧
    (b ≠ 0 → b.toInt ∣ a.toInt → ∀ q : Int64, q.toInt = a.toInt / b.toInt →
      callBuiltin .divide [.int a, .int b] m = .ok (.int q) m) ∧
    (b ≠ 0 → ¬ b.toInt ∣ a.toInt →
      callBuiltin .divide [.int a, .int b] m = .ok (.float (Number.round a / Number.round b)) m) ∧
    (b ≠ 0 → b.toInt ∣ a.toInt → (¬ ∃ q : Int64, q.toInt = a.toInt / b.toInt) →
      a = Int64.minValue ∧ b = -1 ∧ callBuiltin .divide [.int a, .int b] m =
        .ok (.float (Number.round Int64.minValue / Number.round (-1))) m) := by
  refine ⟨?_, ?_, ?_, ?_⟩
  · rintro rfl
    exact ⟨Fault.divisionByZero.diagnostic, rfl, rfl, rfl⟩
  · intro nonzero divides q fits
    rw [callBuiltin_divide, Number.div_of_fits nonzero divides fits]
    rfl
  · intro nonzero inexact
    rw [callBuiltin_divide, Number.div_of_not_fits nonzero fun divides => absurd divides inexact]
    rfl
  · intro nonzero divides large
    have none : Number.word? (a.toInt / b.toInt) = none := by
      by_contra found
      exact large ((Number.exists_word_iff _).2 found)
    obtain ⟨rfl, rfl⟩ := (Number.word?_quotient_eq_none_iff nonzero divides).1 none
    refine ⟨rfl, rfl, ?_⟩
    rw [callBuiltin_divide, Number.div_of_not_fits nonzero fun _ => none]
    rfl

/-- The least word divided by -1 overflows, and yet the call gives a float: `2 ^ 63`. -/
theorem divide_least_word :
    (-1 : Int64) ≠ 0 ∧ (-1 : Int64).toInt ∣ Int64.minValue.toInt ∧
      (¬ ∃ q : Int64, q.toInt = Int64.minValue.toInt / (-1 : Int64).toInt) ∧
      ∃ x : Float, callBuiltin .divide [.int Int64.minValue, .int (-1)] {} = .ok (.float x) {} ∧
        x.toBits = 0x43E0000000000000 := by
  have nonzero : (-1 : Int64) ≠ 0 := by decide
  have divides : (-1 : Int64).toInt ∣ Int64.minValue.toInt := by decide
  have none := (Number.word?_quotient_eq_none_iff nonzero divides).2 ⟨rfl, rfl⟩
  refine ⟨nonzero, divides, fun held => (Number.exists_word_iff _).1 held none,
    Number.round Int64.minValue / Number.round (-1), ?_, ?_⟩
  · rw [callBuiltin_divide, Number.div_of_not_fits nonzero fun _ => none]
    rfl
  · decide +kernel

end EvalM

end LazyLisp
