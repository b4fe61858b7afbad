import LazyLisp.Decimal.Shortest

/-!
# The text of floats

Floats are written with the shortest digits that read back. `Layout` holds the choices that are not
arithmetic: where scientific form begins and what surrounds the digits.
-/

namespace LazyLisp.Decimal

/-- How digits become text. A number `0.d₁d₂… · 10^p` is positional for `p` from `least` to
`greatest` and scientific otherwise. -/
structure Layout where
  least : Int
  greatest : Int
  /-- What follows a whole number in positional form. -/
  whole : String
  mark : String
  nan : String
  infinity : String
  zero : String

namespace Layout

/-- Positional from 0.0001 up to, and without, 10^16, with at least one digit after the point. In
scientific form the exponent bears neither a plus sign nor padding, and a single digit no point. -/
def standard : Layout :=
  { least := -3, greatest := 16, whole := ".0", mark := "e", nan := "NaN", infinity := "inf",
    zero := "0.0" }

/-- `0.d₁d₂… · 10^p` without an exponent. -/
def positional (l : Layout) (digits : List Char) (p : Int) : String :=
  if p ≤ 0 then "0." ++ String.ofList (List.replicate (-p).toNat '0' ++ digits)
  else if digits.length ≤ p.toNat then
    String.ofList (digits ++ List.replicate (p.toNat - digits.length) '0') ++ l.whole
  else String.ofList (digits.take p.toNat) ++ "." ++ String.ofList (digits.drop p.toNat)

/-- `0.d₁d₂… · 10^p` with one digit before the point. -/
def scientific (l : Layout) (digits : List Char) (p : Int) : String :=
  let fraction := match digits.drop 1 with
    | [] => ""
    | rest => "." ++ String.ofList rest
  String.ofList (digits.take 1) ++ fraction ++ l.mark ++ (p - 1).repr

/-- The number in the form that its exponent calls for. -/
def finite (l : Layout) (digits : List Char) (p : Int) : String :=
  if l.least ≤ p && p ≤ l.greatest then l.positional digits p else l.scientific digits p

end Layout

/-- The fields of a 64-bit float: sign, biased exponent and the 52 bits of the fraction. -/
structure Fields where
  negative : Bool
  exponent : Nat
  fraction : Nat

/-- The fields of a bit pattern. -/
def Fields.ofBits (bits : UInt64) : Fields :=
  let n := bits.toNat
  { negative := n >>> 63 == 1, exponent := (n >>> 52) % (1 <<< 11), fraction := n % (1 <<< 52) }

/-- The magnitude of a finite float that is not zero. The least exponent has no implicit leading
bit; just above a power of two, except the least, the neighbour below is nearer. -/
def Fields.binary (f : Fields) : Binary :=
  if f.exponent = 0 then ⟨f.fraction, -1074, false⟩
  else ⟨f.fraction + (1 <<< 52), f.exponent - 1075, f.fraction == 0 && 1 < f.exponent⟩

/-- The text of the float with these fields. -/
def Fields.text (l : Layout) (f : Fields) : String :=
  let sign := if f.negative then "-" else ""
  if f.exponent = 2047 then if f.fraction = 0 then sign ++ l.infinity else l.nan
  else if f.exponent = 0 && f.fraction = 0 then sign ++ l.zero
  else
    let (digits, p) := shortest f.binary
    sign ++ l.finite digits p

/-- The text of a float. -/
def floatText (x : Float) : String := (Fields.ofBits x.toBits).text .standard

end LazyLisp.Decimal
