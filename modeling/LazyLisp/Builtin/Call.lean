import LazyLisp.Number
import LazyLisp.Value.Equality

/-!
# The results of builtins

What each builtin makes of its arguments: the value of the call, and the values that it shows. Both
are functions of the arguments alone.
-/

namespace LazyLisp

namespace Number

/-- The number as a value. -/
def toValue : Number → Value
  | .int n => .int n
  | .float x => .float x

/-- The operand that a value is, or the complaint of the builtin `name`. -/
def ofValue (name : String) : Value → Except Fault Number
  | .int n => .ok (.int n)
  | .float x => .ok (.float x)
  | v => .error (.wrongType name "a number" v.typeName)

/-- Folds `op` over the arguments from the left. The first argument that is no number, or at which
`op` fails, decides. -/
def fold (name : String) (op : Number → Number → Except Fault Number) :
    Number → List Value → Except Fault Number
  | total, [] => .ok total
  | total, v :: vs => do
    let n ← ofValue name v
    fold name op (← op total n) vs

/-- Both operands, the left one checked first. -/
def pair (name : String) (a b : Value) : Except Fault (Number × Number) := do
  let m ← ofValue name a
  let n ← ofValue name b
  return (m, n)

end Number

namespace Builtin

/-- The items of the list that a value is, or the complaint of the builtin `name`. -/
def itemsOf (name : String) (v : Value) : Except Fault (List Value) :=
  match v.items? with
  | some items => .ok items
  | none => .error (.wrongType name "a list" v.typeName)

/-- The item that `pick` finds among those of a list. -/
def pickFrom (name : String) (pick : List Value → Option Value) (v : Value) :
    Except Fault Value := do
  match pick (← itemsOf name v) with
  | some item => return item
  | none => throw (.emptyList name)

/-- The value of a call. `car` takes the first item of a list and `cdr` the last, which for a cell
are its head and its tail. A call with the wrong number of arguments is a fault. -/
def result : Builtin → List Value → Except Fault Value
  | .begin, args => .ok (args.getLast?.getD .void)
  | .cons, [head, tail] => .ok (.cons head tail)
  | .car, [v] => pickFrom "car" List.head? v
  | .cdr, [v] => pickFrom "cdr" List.getLast? v
  | .list, args => .ok (.chain args)
  | .add, args => Number.toValue <$> Number.fold "+" Number.add (.int 0) args
  | .subtract, [v] => do return (← Number.sub (.int 0) (← Number.ofValue "-" v)).toValue
  | .subtract, v :: vs => do
    let first ← Number.ofValue "-" v
    return (← Number.fold "-" Number.sub first vs).toValue
  | .multiply, [a, b] => do
    let (m, n) ← Number.pair "*" a b
    return (← Number.mul m n).toValue
  | .divide, [a, b] => do
    let (m, n) ← Number.pair "/" a b
    return (← Number.div m n).toValue
  | .power, [a, b] => do
    let (m, n) ← Number.pair "expt" a b
    return (← Number.pow m n).toValue
  | .equal, [a, b] => .ok (.bool (a.equals b))
  | .less, [a, b] => do
    let (m, n) ← Number.pair "<" a b
    return .bool (m.less n)
  | .greater, [a, b] => do
    let (m, n) ← Number.pair ">" a b
    return .bool (n.less m)
  | .not, [v] => .ok (.bool !v.truthy)
  | .display, [_] => .ok .void
  | b, args => .error (.builtinArity b.name b.arity.text args.length)

/-- The values that a call shows: `display` shows its argument, and nothing else shows anything. -/
def shows : Builtin → List Value → List Value
  | .display, args => args
  | _, _ => []

end Builtin

end LazyLisp
