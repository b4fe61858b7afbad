import LazyLisp.Eval.Step
import LazyLisp.Proofs.OwnerWalk
import LazyLisp.Proofs.Relational
import LazyLisp.Proofs.Renaming

/-!
# Two evaluations side by side

A `Simulation` says what corresponds in two evaluations: the numbers that a renaming relates, the
values computed, the expressions evaluated and the reports of failures. Values and expressions are
relations of their own inside "alike up to renaming", since a use may know more of the one than of
the other; the laws are what the evaluator needs of them, one for each way it takes values apart or
builds them. Names may be hidden: the expressions do not look them up, so what they are bound to
need not correspond. A keyword at the head of a list is not looked up either.

From these follow when two memories correspond, and so when two computations on them do. The count
of evaluations under way is an index of the relation.
-/

namespace LazyLisp

/-- The value has no values inside it. -/
def Value.isAtom : Value → Bool
  | .list .. | .closure .. => false
  | _ => true

/-- The keyword that heads a list. -/
def Keyword.ofItems? : List Value → Option Keyword
  | .symbol name :: _ => Keyword.ofName? name
  | _ => none

/-- What corresponds in two evaluations. -/
structure Simulation extends Renaming where
  /-- The names whose bindings need not correspond. -/
  hidden : String → Prop
  value : Value → Value → Prop
  expr : Value → Value → Prop
  report : Diagnostic → Diagnostic → Prop
  /-- What the second run had shown before the two began. -/
  before : List Value
  value_like : ∀ {v v'}, value v v' → Value.Like toRenaming v v'
  value_atom : ∀ {v : Value}, v.isAtom = true → value v v
  value_items : ∀ {items items' tag origin origin'},
    value (.list items tag origin) (.list items' tag origin') → List.Forall₂ value items items'
  value_cell : ∀ {items items'}, List.Forall₂ value items items' →
    value (.list items .cons none) (.list items' .cons none)
  value_body : ∀ {id id' params body body' env env'},
    value (.closure id params body env) (.closure id' params body' env') →
      List.Forall₂ expr body body'
  value_closure : ∀ {id id' params body body' env env'}, toRenaming.closure id id' →
    List.Forall₂ expr body body' → toRenaming.frame env env' →
      value (.closure id params body env) (.closure id' params body' env')
  expr_like : ∀ {e e'}, expr e e' → Value.Like toRenaming e e'
  expr_symbol : ∀ {name}, expr (.symbol name) (.symbol name) → ¬ hidden name
  expr_items : ∀ {items items' tag origin origin'},
    expr (.list items tag origin) (.list items' tag origin') → Keyword.ofItems? items = none →
      List.Forall₂ expr items items'
  expr_tail : ∀ {items items' tag origin origin'},
    expr (.list items tag origin) (.list items' tag origin') →
      List.Forall₂ expr items.tail items'.tail
  expr_lambda : ∀ {params params' body body' origin origin'}, List.Forall₂ expr params params' →
    List.Forall₂ expr body body' → toRenaming.origin origin origin' →
      expr (Form.lambdaOf params body origin) (Form.lambdaOf params' body' origin')
  expr_self : ∀ {e e'}, expr e e' → (∀ name, e ≠ .symbol name) →
    (∀ items origin, e ≠ .list items .code origin) → value e e'
  expr_quoted : ∀ {e e' : Value}, expr e e' → value e.quoted e'.quoted
  report_fault : ∀ f : Fault, report f.diagnostic f.diagnostic

/-- The simulation whose values and expressions are those alike up to the renaming. -/
def Renaming.simulation (r : Renaming) (report : Diagnostic → Diagnostic → Prop)
    (report_refl : ∀ d, report d d) (before : List Value) : Simulation where
  toRenaming := r
  hidden _ := False
  value := Value.Like r
  expr := Value.Like r
  report := report
  before := before
  value_like h := h
  value_atom := by
    intro v atom
    cases v with
    | list _ _ _ => cases atom
    | closure _ _ _ _ => cases atom
    | _ => constructor
  value_items h := by cases h with | list items _ => exact items
  value_cell items := .list items r.origin_none
  value_body h := by cases h with | closure _ body _ => exact body
  value_closure id body env := .closure id body env
  expr_like h := h
  expr_symbol _ := id
  expr_items h _ := by cases h with | list items _ => exact items
  expr_tail h := by cases h with | list items _ => simpa using List.forall₂_drop 1 items
  expr_lambda params body origin :=
    .list (.cons (.symbol "lambda") (.cons (.list params r.origin_none) body)) origin
  expr_self h _ _ := h
  expr_quoted h := h.quoted
  report_fault f := report_refl f.diagnostic

namespace Simulation

variable (S : Simulation)

/-- Bindings of the same sort, to corresponding values or expressions. -/
inductive Bound : Binding → Binding → Prop
  | value {v v' : Value} : S.value v v' → Bound (.value v) (.value v')
  | deferred {e e' : Value} : S.expr e e' → Bound (.deferred e) (.deferred e')

/-- Two entries of a frame: the same name, with corresponding bindings unless it is hidden. -/
def Entries (p q : String × Binding) : Prop := p.1 = q.1 ∧ (¬ S.hidden p.1 → S.Bound p.2 q.2)

/-- Frames that bind the same names in the same order, inside corresponding parents. -/
structure Frames (f f' : Frame) : Prop where
  parent : Option.Rel S.frame f.parent f'.parent
  bindings : List.Forall₂ S.Entries f.bindings f'.bindings

/-- Memories that correspond, with `depth` evaluations under way in both. Frames and closures still
to be made correspond in the order in which they will be made. -/
structure Memories (depth : Nat) (m m' : Memory) : Prop where
  frames : ∀ {id id'}, S.frame id id' → Option.Rel S.Frames (m.store.get? id) (m'.store.get? id')
  fresh : ∀ k, S.frame (m.store.size + k) (m'.store.size + k)
  closures : ∀ k, S.closure (m.closures + k) (m'.closures + k)
  output : ∃ shown, m'.output.toList = S.before ++ shown ∧
    List.Forall₂ S.value m.output.toList shown
  depths : m.depth = depth ∧ m'.depth = depth

/-- Started on corresponding memories, the computations have corresponding outcomes. -/
abbrev Related {α β : Type} (depth : Nat) (A : α → β → Prop) (x : EvalM α) (y : EvalM β) : Prop :=
  Runs (S.Memories depth) S.report A x y

variable {S} {α β : Type} {depth : Nat} {A : α → β → Prop}

theorem Related.raise (f : Fault) :
    S.Related depth A (EvalM.raise f : EvalM α) (EvalM.raise f : EvalM β) :=
  Runs.throw (S.report_fault f)

theorem Related.ofExcept {x : Except Fault α} {y : Except Fault β} (h : ExceptRel A x y) :
    S.Related depth A (EvalM.ofExcept x) (EvalM.ofExcept y) := by
  cases h with
  | ok related => exact Runs.pure related
  | error f => exact Related.raise f

end Simulation

end LazyLisp
