import LazyLisp.Fault

/-!
# Numbers

Integers are 64-bit words, but their arithmetic is exact: a result that does not fit is a fault,
never a wrapped word. As soon as one operand is a float, both are, and the operation is the one on
floats.
-/

namespace LazyLisp

/-- An operand of arithmetic. -/
inductive Number where
  | int (n : Int64)
  | float (x : Float)

namespace Number

/-- The word that holds `n`, if one does. -/
def word? (n : Int) : Option Int64 :=
  if Int64.minValue.toInt ≤ n ∧ n ≤ Int64.maxValue.toInt then some (Int64.ofInt n) else none

theorem toInt_of_word? {n : Int} {w : Int64} (h : word? n = some w) : w.toInt = n := by
  unfold word? at h
  split at h
  · rename_i fits
    obtain rfl := Option.some.inj h
    rw [Int64.toInt_minValue, Int64.toInt_maxValue] at fits
    exact Int64.toInt_ofInt_of_le fits.1 (Int.lt_of_le_sub_one fits.2)
  · simp at h

theorem word?_toInt (w : Int64) : word? w.toInt = some w := by
  unfold word?
  rw [if_pos ⟨w.minValue_le_toInt, w.toInt_le⟩, Int64.ofInt_toInt]

/-- The float nearest to an integer, ties to the even one. -/
def round (n : Int64) : Float :=
  let magnitude := n.toInt.natAbs.toUInt64.toFloat
  if n < 0 then -magnitude else magnitude

/-- The number as a float, an integer being rounded. -/
def toFloat : Number → Float
  | .int n => round n
  | .float x => x

/-- Exact on two integers, if the result fits a word, and on floats otherwise. -/
def combine (name : String) (onInts : Int → Int → Int) (onFloats : Float → Float → Float) :
    Number → Number → Except Fault Number
  | .int a, .int b =>
    match word? (onInts a.toInt b.toInt) with
    | some n => .ok (.int n)
    | none => .error (.overflow name)
  | a, b => .ok (.float (onFloats a.toFloat b.toFloat))

/-- The sum. -/
def add : Number → Number → Except Fault Number := combine "+" (· + ·) (· + ·)

/-- The difference. -/
def sub : Number → Number → Except Fault Number := combine "-" (· - ·) (· - ·)

/-- The product. -/
def mul : Number → Number → Except Fault Number := combine "*" (· * ·) (· * ·)

/-- Zero of either kind, a negative zero included. -/
def isZero : Number → Bool
  | .int n => n == 0
  | .float x => x == 0

/-- The quotient as an integer, if it is exact and fits a word. -/
def quotient? : Number → Number → Option Int64
  | .int m, .int n => if n.toInt ∣ m.toInt then word? (m.toInt / n.toInt) else none
  | _, _ => none

/-- An integer where `quotient?` gives one, and the quotient of floats otherwise. -/
def div (a b : Number) : Except Fault Number :=
  if b.isZero then .error .divisionByZero
  else
    match quotient? a b with
    | some q => .ok (.int q)
    | none => .ok (.float (a.toFloat / b.toFloat))

/-- The word that holds `base ^ exponent`, if one does. Beyond the 63rd power only 0, 1 and -1 stay
in range, and their powers depend on the exponent's parity alone. -/
def power? (base : Int) (exponent : Nat) : Option Int64 :=
  if exponent ≤ 63 then word? (base.pow exponent)
  else if base.natAbs ≤ 1 then word? (base.pow (2 - exponent % 2))
  else none

/-- An integer to a power that is not negative is exact and its exponent must be below `2 ^ 32`; any
other power is taken on floats. -/
def pow (base exponent : Number) : Except Fault Number :=
  match base, exponent with
  | .int b, .int e =>
    if 0 ≤ e then
      if e.toInt.toNat < UInt32.size then
        match power? b.toInt e.toInt.toNat with
        | some n => .ok (.int n)
        | none => .error (.overflow "expt")
      else .error .exponentRange
    else .ok (.float (base.toFloat.pow exponent.toFloat))
  | _, _ => .ok (.float (base.toFloat.pow exponent.toFloat))

/-- Integers compare exactly; with a float on either side, both compare as floats. -/
def less : Number → Number → Bool
  | .int a, .int b => a < b
  | a, b => a.toFloat < b.toFloat

end Number

end LazyLisp
