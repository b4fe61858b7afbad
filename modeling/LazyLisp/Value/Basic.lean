import LazyLisp.Builtin.Basic
import LazyLisp.SourceTree

/-!
# Values

A program is a value and so is what it computes. Lists bear a tag: a list read from a source is
code, and evaluating it applies its head; lists made by `quote`, `cons` and `list` are data and
evaluate to themselves. A list read from a source also remembers its node, for reports only.
-/

namespace LazyLisp

/-- A frame's position in the store of frames. -/
abbrev FrameId := Nat

/-- Whether a list is program text or data, and which kind of data. -/
inductive ListTag where
  | code
  | quoted
  | cons
  deriving DecidableEq, Repr

/-- The tag's name. -/
def ListTag.text : ListTag → String
  | .code => "Code"
  | .quoted => "Quoted"
  | .cons => "Cons"

/-- Expressions and results. A closure bears the number it was made under: closures are the same
only if they were made at once. -/
inductive Value where
  | void
  | bool (b : Bool)
  | int (n : Int64)
  | float (x : Float)
  | symbol (name : String)
  | list (items : List Value) (tag : ListTag) (origin : Option NodeId)
  | builtin (b : Builtin)
  | closure (id : Nat) (params : List String) (body : List Value) (env : FrameId)
  deriving Inhabited

namespace Value

/-- Induction on values: a list or a closure has a property if each value directly inside it has. -/
@[induction_eliminator]
theorem induct {motive : Value → Prop} (void : motive .void) (bool : ∀ b, motive (.bool b))
    (int : ∀ n, motive (.int n)) (float : ∀ x, motive (.float x))
    (symbol : ∀ name, motive (.symbol name))
    (list : ∀ items tag origin, (∀ v ∈ items, motive v) → motive (.list items tag origin))
    (builtin : ∀ b, motive (.builtin b))
    (closure : ∀ id params body env, (∀ v ∈ body, motive v) → motive (.closure id params body env))
    (v : Value) : motive v :=
  @Value.rec motive (fun vs => ∀ v ∈ vs, motive v) void bool int float symbol list builtin closure
    (fun _ h => absurd h List.not_mem_nil)
    (fun _ _ first rest => List.forall_mem_cons.2 ⟨first, rest⟩) v

/-- A cell made of a head and a tail. -/
def cons (head tail : Value) : Value := .list [head, tail] .cons none

/-- The chain of cells `(a (b (c)))` for `a`, `b`, `c`, built from the back: the last cell has one
item, and the chain of nothing is a cell without items. -/
def chain (items : List Value) : Value :=
  match items.reverse with
  | [] => .list [] .cons none
  | last :: before => before.foldl (fun tail head => cons head tail) (.list [last] .cons none)

theorem chain_cons_cons (a b : Value) (rest : List Value) :
    chain (a :: b :: rest) = cons a (chain (b :: rest)) := by
  have nonempty : (b :: rest).reverse ≠ [] := by simp
  unfold chain
  rw [List.reverse_cons]
  cases h : (b :: rest).reverse with
  | nil => exact absurd h nonempty
  | cons last before => simp [List.foldl_append]

/-- Everything but `#f` counts as true. -/
def truthy : Value → Bool
  | .bool false => false
  | _ => true

/-- The value of an expression that has nothing to say. -/
def isVoid : Value → Bool
  | .void => true
  | _ => false

/-- The word for the value's type. -/
def typeName : Value → String
  | .void => "Void"
  | .bool _ => "Bool"
  | .int _ => "Int"
  | .float _ => "Float"
  | .symbol _ => "Symbol"
  | .list .. => "List"
  | .builtin _ => "NativeFunction"
  | .closure .. => "Closure"

/-- The name, if the value is a symbol. -/
def symbol? : Value → Option String
  | .symbol name => some name
  | _ => none

/-- The number, if the value is an integer. -/
def int? : Value → Option Int64
  | .int n => some n
  | _ => none

/-- The items, if the value is a list of any tag. -/
def items? : Value → Option (List Value)
  | .list items _ _ => some items
  | _ => none

mutual

/-- Appends the origins of the lists in a value to `found`, each list before its items. -/
def originsOnto (found : Array (Option NodeId)) : Value → Array (Option NodeId)
  | .list items _ origin => originsOntoAll (found.push origin) items
  | _ => found

/-- Appends the origins of the lists in each value, in order. -/
def originsOntoAll (found : Array (Option NodeId)) : List Value → Array (Option NodeId)
  | [] => found
  | v :: vs => originsOntoAll (originsOnto found v) vs

end

/-- The origins of all lists in a value, each list before the lists inside it. -/
def origins (v : Value) : List (Option NodeId) := (v.originsOnto #[]).toList

end Value

end LazyLisp
