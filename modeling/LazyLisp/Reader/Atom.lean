import LazyLisp.Number
import LazyLisp.Value.Basic

/-!
# Atoms

An atom is an integer literal, an optional minus sign and decimal digits, or else a symbol. Leading
zeros are allowed; a literal that fits no word is a fault.
-/

namespace LazyLisp.Reader

/-- The number that decimal digits spell. -/
def naturalOf (digits : List Char) : Nat :=
  digits.foldl (fun n c => n * 10 + (c.toNat - '0'.toNat)) 0

/-- The number that decimal digits spell; `none` for the empty text and for anything else. -/
def natural? (digits : List Char) : Option Nat :=
  if digits ≠ [] ∧ digits.all Char.isDigit then some (naturalOf digits) else none

/-- The number that an integer literal spells; `none` for any other text. -/
def literal? : List Char → Option Int
  | '-' :: digits => (natural? digits).map fun n => -(n : Int)
  | digits => (natural? digits).map Int.ofNat

/-- The value of an atom. -/
def atom (lexeme : String) : Except Fault Value :=
  match literal? lexeme.toList with
  | none => .ok (.symbol lexeme)
  | some n =>
    match Number.word? n with
    | some w => .ok (.int w)
    | none => .error (.integerRange lexeme)

end LazyLisp.Reader
