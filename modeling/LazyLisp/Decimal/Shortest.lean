/-!
# Shortest decimals

The positive number `m · 2^q`, with the reals that round to it, is written with the fewest decimal
digits that still fall among those reals. For one digit, two digits and so on, the two neighbours of
the number on that decimal grid are tested in exact arithmetic; the first grid with a hit wins, and
of two hits the nearer one.
-/

namespace LazyLisp.Decimal

/-- A positive binary number `mantissa · 2^exponent`. The neighbour below is half as far as the one
above where `narrow` holds. -/
structure Binary where
  mantissa : Nat
  exponent : Int
  narrow : Bool

/-- The number `digits · 10^exponent`. -/
structure Scaled where
  digits : Nat
  exponent : Int
  deriving DecidableEq, Repr

/-- The reals that round to a number, over a common denominator: the number itself is
`value / unit`, and what rounds to it lies from `low / unit` to `high / unit`, the ends included if
`closed`. -/
structure Interval where
  low : Nat
  value : Nat
  high : Nat
  unit : Nat
  closed : Bool

namespace Binary

/-- The interval of a binary number. Half the distance to a neighbour is two quarters of the last
place, or one quarter where the neighbour is nearer. -/
def interval (b : Binary) : Interval :=
  let scale := 1 <<< (b.exponent - 2).toNat
  { low := (4 * b.mantissa - if b.narrow then 1 else 2) * scale
    value := 4 * b.mantissa * scale
    high := (4 * b.mantissa + 2) * scale
    unit := 1 <<< (2 - b.exponent).toNat
    closed := b.mantissa % 2 == 0 }

end Binary

namespace Interval

/-- The interval with everything in it multiplied by `10^k`. -/
def shift (i : Interval) (k : Int) : Interval :=
  let up := Nat.pow 10 k.toNat
  { i with
    low := i.low * up
    value := i.value * up
    high := i.high * up
    unit := i.unit * Nat.pow 10 (-k).toNat }

/-- The whole number `n` is among the reals of the interval. -/
def holds (i : Interval) (n : Nat) : Bool :=
  let x := n * i.unit
  if i.closed then i.low ≤ x && x ≤ i.high else i.low < x && x < i.high

/-- The whole number of the interval that is nearest to its value, the greater one of two at the
same distance. Only the two neighbours of the value are tested. -/
def nearest? (i : Interval) : Option Nat :=
  let below := i.value / i.unit
  match i.holds below, i.holds (below + 1) with
  | false, false => none
  | true, false => some below
  | false, true => some (below + 1)
  | true, true => if 2 * (i.value % i.unit) < i.unit then some below else some (below + 1)

/-- The exponent `e` with `10^(e-1) ≤ value / unit < 10^e`. -/
def magnitude (i : Interval) : Int :=
  if i.unit ≤ i.value then (Nat.toDigits 10 (i.value / i.unit)).length
  else 1 - (Nat.toDigits 10 ((i.unit - 1) / i.value)).length

/-- The first grid of `count`, `count + 1`, … digits that has a hit, trying `steps` of them. -/
def search (i : Interval) (magnitude : Int) : (steps count : Nat) → Option Scaled
  | 0, _ => none
  | steps + 1, count =>
    let exponent := magnitude - count
    match (i.shift (-exponent)).nearest? with
    | some digits => some ⟨digits, exponent⟩
    | none => i.search magnitude steps (count + 1)

end Interval

/-- The digits of `n` without the zeros at the end, and how many zeros there were. -/
def dropZeros (n : Nat) : List Char × Nat :=
  let digits := (Nat.toDigits 10 n).reverse
  ((digits.dropWhile (· == '0')).reverse, (digits.takeWhile (· == '0')).length)

/-- The shortest decimal for a binary number, as its digits `d₁ d₂ …` and the exponent `p` for which
it is `0.d₁d₂… · 10^p`. Seventeen digits tell any two numbers of 53 binary places apart. -/
def shortest (b : Binary) : List Char × Int :=
  let i := b.interval
  match i.search i.magnitude 17 1 with
  | some s =>
    let (digits, zeros) := dropZeros s.digits
    (digits, s.exponent + zeros + digits.length)
  | none => (['0'], 1)

end LazyLisp.Decimal
