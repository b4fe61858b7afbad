/-!
# Builtin functions

The functions that a fresh root frame binds, by name and arity. Their names are pairwise distinct,
so two builtins are equal exactly when their names are.
-/

namespace LazyLisp

/-- How many arguments a function takes. -/
inductive Arity where
  | exactly (n : Nat)
  | atLeast (n : Nat)
  deriving DecidableEq, Repr

namespace Arity

/-- Whether a call with `count` arguments has the right number. -/
def accepts : Arity → Nat → Bool
  | .exactly n, count => count == n
  | .atLeast n, count => n ≤ count

/-- The number of arguments in words. -/
def text : Arity → String
  | .exactly n => n.repr
  | .atLeast n => "at least " ++ n.repr

end Arity

/-- The functions that need no definition. -/
inductive Builtin where
  | begin
  | cons
  | car
  | cdr
  | list
  | add
  | subtract
  | multiply
  | divide
  | power
  | equal
  | less
  | greater
  | not
  | display
  deriving DecidableEq, Repr

namespace Builtin

/-- The symbol that a root frame binds to the function. -/
def name : Builtin → String
  | .begin => "begin"
  | .cons => "cons"
  | .car => "car"
  | .cdr => "cdr"
  | .list => "list"
  | .add => "+"
  | .subtract => "-"
  | .multiply => "*"
  | .divide => "/"
  | .power => "expt"
  | .equal => "="
  | .less => "<"
  | .greater => ">"
  | .not => "not"
  | .display => "display"

/-- How many arguments the function takes. -/
def arity : Builtin → Arity
  | .begin | .list | .add => .atLeast 0
  | .subtract => .atLeast 1
  | .car | .cdr | .not | .display => .exactly 1
  | .cons | .multiply | .divide | .power | .equal | .less | .greater => .exactly 2

/-- Every builtin, in the order in which a root frame binds them. -/
def all : List Builtin :=
  [.begin, .cons, .car, .cdr, .list, .add, .subtract, .multiply, .divide, .power, .equal, .less,
    .greater, .not, .display]

theorem name_injective {a b : Builtin} (h : a.name = b.name) : a = b := by
  cases a <;> cases b <;> first | rfl | exact absurd h (by decide)

/-- The builtin of this name. -/
def ofName? (name : String) : Option Builtin := all.find? fun b => b.name == name

end Builtin

end LazyLisp
