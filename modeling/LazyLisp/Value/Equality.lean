import LazyLisp.Number
import LazyLisp.Value.Basic

/-!
# Equality of values

Structural equality, blind to the tags and origins of lists. An integer equals a float if it
rounds to it. Closures are equal only to themselves.
-/

namespace LazyLisp.Value

mutual

/-- Whether two values are equal. -/
def equals : Value → Value → Bool
  | .void, .void => true
  | .bool a, .bool b => a == b
  | .int a, .int b => a == b
  | .float a, .float b => a == b
  | .int a, .float b => Number.round a == b
  | .float a, .int b => Number.round b == a
  | .symbol a, .symbol b => a == b
  | .list a _ _, .list b _ _ => equalsAll a b
  | .builtin a, .builtin b => a == b
  | .closure a _ _ _, .closure b _ _ _ => a == b
  | _, _ => false

/-- Lists of the same length whose items are equal in order. -/
def equalsAll : List Value → List Value → Bool
  | [], [] => true
  | a :: as, b :: bs => equals a b && equalsAll as bs
  | _, _ => false

end

end LazyLisp.Value
