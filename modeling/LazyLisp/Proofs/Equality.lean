import LazyLisp.Proofs.Relational
import LazyLisp.Value.Equality
import LazyLisp.Value.Quotation

/-!
# What equal values have in common

`equals` goes through two values at once, list by list, and asks neither for the tags of the lists
nor for their origins. `skeleton` is what is left of a value when these are forgotten. Values
without floats are equal exactly if their skeletons are, so equality is an equivalence among them,
and neither quoting nor wrapping values in lists disturbs it.

Floats spoil this: a NaN equals nothing, and two integers that round to the same float both equal
it. Symmetry is all that remains. It rests on the symmetry of comparing floats: to compare them the
other way round gives the opposite answer.
-/

namespace LazyLisp

/-! ## Comparing floats -/

namespace Number

open Float.Model (UnpackedFloat)

/-- Comparing floats the other way round gives the opposite answer, and no answer if one of them is
no number. -/
theorem swap_compare (x y : UnpackedFloat) : (x.compare y).map Ordering.swap = y.compare x := by
  cases x with
  | notANumber => cases y <;> rfl
  | infinity s =>
    cases y with
    | infinity s' => cases s <;> cases s' <;> rfl
    | _ => cases s <;> rfl
  | zero s =>
    cases y with
    | infinity s' => cases s' <;> rfl
    | finite s' => cases s' <;> rfl
    | _ => rfl
  | finite s m e =>
    cases y with
    | finite s' m' e' =>
      -- with equal signs, exponents decide first and mantissas second
      have swapped : ((compare e e').then (compare m m')).swap =
          (compare e' e).then (compare m' m) := by
        rw [Ordering.swap_then, Int.compare_swap, Nat.compare_swap]
      cases s with
      | negative =>
        cases s' with
        | negative => exact congrArg (fun order => some order.swap) swapped
        | positive => rfl
      | positive =>
        cases s' with
        | negative => rfl
        | positive => exact congrArg some swapped
    | infinity s' => cases s <;> cases s' <;> rfl
    | _ => cases s <;> rfl

theorem float_beq_symmetric (x y : Float) : (x == y) = (y == x) := by
  show (x.toModel.unpack.compare y.toModel.unpack == some .eq) =
    (y.toModel.unpack.compare x.toModel.unpack == some .eq)
  rw [← swap_compare y.toModel.unpack]
  rcases y.toModel.unpack.compare x.toModel.unpack with _ | _ | _ | _ <;> rfl

end Number

/-! ## Skeletons -/

/-- A value without the tags and origins of its lists. Of a builtin only the name is left, and of a
closure the number that it was made under. -/
inductive Skeleton where
  | void
  | bool (b : Bool)
  | int (n : Int64)
  | float (x : Float)
  | symbol (name : String)
  | list (items : List Skeleton)
  | builtin (name : String)
  | closure (id : Nat)

namespace Value

mutual

/-- What is left of a value. -/
def skeleton : Value → Skeleton
  | .void => .void
  | .bool b => .bool b
  | .int n => .int n
  | .float x => .float x
  | .symbol name => .symbol name
  | .list items _ _ => .list (skeletonAll items)
  | .builtin b => .builtin b.name
  | .closure id _ _ _ => .closure id

/-- What is left of each value, in order. -/
def skeletonAll : List Value → List Skeleton
  | [] => []
  | v :: vs => skeleton v :: skeletonAll vs

end

theorem skeletonAll_eq (vs : List Value) : skeletonAll vs = vs.map skeleton := by
  induction vs with
  | nil => rfl
  | cons v vs ih => rw [skeletonAll, ih, List.map_cons]

mutual

/-- No float occurs in the value, at any depth of its lists. What a closure holds does not count. -/
def floatFree : Value → Bool
  | .float _ => false
  | .list items _ _ => floatFreeAll items
  | _ => true

/-- No float occurs in any of the values. -/
def floatFreeAll : List Value → Bool
  | [] => true
  | v :: vs => floatFree v && floatFreeAll vs

end

theorem floatFree_list_iff {items : List Value} {tag : ListTag} {origin : Option NodeId} :
    (list items tag origin).floatFree = true ↔ ∀ v ∈ items, v.floatFree = true := by
  rw [floatFree]
  induction items with
  | nil => simp [floatFreeAll]
  | cons v vs ih => rw [floatFreeAll, Bool.and_eq_true, ih, List.forall_mem_cons]

/-! ## Equality of lists -/

/-- Lists are equal if they are as long as each other and their items, in order, are as `R` says,
where `R` says what it is for these items to be equal. -/
theorem equalsAll_iff_forall₂ {R : Value → Value → Prop} {as bs : List Value}
    (each : ∀ a ∈ as, ∀ b ∈ bs, a.equals b = true ↔ R a b) :
    equalsAll as bs = true ↔ List.Forall₂ R as bs := by
  induction as generalizing bs with
  | nil => cases bs <;> simp [equalsAll]
  | cons a as ih =>
    cases bs with
    | nil => simp [equalsAll]
    | cons b bs =>
      have first := each a List.mem_cons_self b List.mem_cons_self
      have rest := ih fun a' inAs b' inBs =>
        each a' (List.mem_cons_of_mem a inAs) b' (List.mem_cons_of_mem b inBs)
      rw [equalsAll, Bool.and_eq_true, first, rest, List.forall₂_cons]

theorem equals_list_iff {as bs : List Value} {tag tag' : ListTag} {origin origin' : Option NodeId} :
    (list as tag origin).equals (list bs tag' origin') = true ↔
      List.Forall₂ (fun a b => a.equals b = true) as bs := by
  rw [equals]
  exact equalsAll_iff_forall₂ fun _ _ _ _ => Iff.rfl

/-! ## Equality up to skeletons -/

theorem equals_iff_skeleton {a b : Value} (ha : a.floatFree = true) (hb : b.floatFree = true) :
    a.equals b = true ↔ a.skeleton = b.skeleton := by
  induction a generalizing b with
  | list as tag origin ih =>
    cases b with
    | list bs tag' origin' =>
      rw [floatFree_list_iff] at ha hb
      have items : equalsAll as bs = true ↔
          List.Forall₂ (fun a b => a.skeleton = b.skeleton) as bs :=
        equalsAll_iff_forall₂ fun a inAs b inBs => ih a inAs (ha a inAs) (hb b inBs)
      rw [equals, items, skeleton, skeleton, skeletonAll_eq, skeletonAll_eq, Skeleton.list.injEq]
      exact forall₂_iff_map_eq fun _ _ _ => Iff.rfl
    | _ => simp [equals, skeleton]
  | builtin f =>
    cases b with
    | builtin g =>
      have named : f = g ↔ f.name = g.name := ⟨congrArg Builtin.name, Builtin.name_injective⟩
      simp [equals, skeleton, named]
    | _ => simp [equals, skeleton]
  | int n =>
    cases b with
    | float y => simp [floatFree] at hb
    | _ => simp [equals, skeleton]
  | float x => simp [floatFree] at ha
  | _ => cases b <;> simp [equals, skeleton]

/-- Having the same skeleton is an equivalence, and so is being equal. -/
theorem equals_equivalence :
    Equivalence fun a b : { v : Value // v.floatFree = true } => a.1.equals b.1 = true where
  refl a := (equals_iff_skeleton a.2 a.2).2 rfl
  symm {a b} h := by
    rw [equals_iff_skeleton a.2 b.2] at h
    rw [equals_iff_skeleton b.2 a.2, h]
  trans {a b c} h h' := by
    rw [equals_iff_skeleton a.2 b.2] at h
    rw [equals_iff_skeleton b.2 c.2] at h'
    rw [equals_iff_skeleton a.2 c.2, h, h']

/-! ## Equality of all values -/

theorem equals_symmetric (a b : Value) : a.equals b = b.equals a := by
  induction a generalizing b with
  | list as tag origin ih =>
    cases b with
    | list bs tag' origin' =>
      have turned : equalsAll as bs = true ↔ List.Forall₂ (fun a b => b.equals a = true) as bs :=
        equalsAll_iff_forall₂ fun a inAs b _ => by rw [ih a inAs b]
      rw [Bool.eq_iff_iff, equals, turned, equals_list_iff]
      exact ⟨List.Forall₂.flip, List.Forall₂.flip⟩
    | _ => simp [equals]
  | float x =>
    cases b with
    | float y =>
      rw [equals, equals]
      exact Number.float_beq_symmetric x y
    | _ => simp [equals]
  | _ => cases b <;> simp [equals, eq_comm]

/-- Quoting changes tags alone. -/
theorem quoted_equals (a b : Value) : a.quoted.equals b = a.equals b := by
  induction a generalizing b with
  | list as tag origin ih =>
    cases tag with
    | code =>
      rw [quoted_code]
      cases b with
      | list bs tag' origin' =>
        have unquoted : equalsAll as bs = true ↔
            List.Forall₂ (fun a b => a.quoted.equals b = true) as bs :=
          equalsAll_iff_forall₂ fun a inAs b _ => by rw [ih a inAs b]
        rw [Bool.eq_iff_iff, equals_list_iff, List.forall₂_map_left_iff, equals, unquoted]
      | _ => simp [equals]
    | _ => rfl
  | _ => rfl

/-- **Equality is structural and blind to tags and origins.** Values without floats are equal
exactly if they are the same once the tags and origins of lists are forgotten, builtins being known
by their names and closures by their numbers. So equality is an equivalence among them. Quoting
either side changes nothing, and lists of any tags and origins are equal exactly if they are as long
as each other and their items are equal in order. Whatever two values hold, the order in which they
are compared does not matter. -/
theorem equals_structural :
    (∀ a b : Value, a.floatFree = true → b.floatFree = true →
      (a.equals b = true ↔ a.skeleton = b.skeleton)) ∧
    (Equivalence fun a b : { v : Value // v.floatFree = true } => a.1.equals b.1 = true) ∧
    (∀ a b : Value, a.quoted.equals b = a.equals b ∧ a.equals b.quoted = a.equals b) ∧
    (∀ as bs tag tag' origin origin', (list as tag origin).equals (list bs tag' origin') = true ↔
      List.Forall₂ (fun a b => a.equals b = true) as bs) ∧
    ∀ a b : Value, a.equals b = b.equals a := by
  refine ⟨fun a b => equals_iff_skeleton, equals_equivalence, ?_,
    fun as bs tag tag' origin origin' => equals_list_iff, equals_symmetric⟩
  intro a b
  refine ⟨quoted_equals a b, ?_⟩
  rw [equals_symmetric, quoted_equals, equals_symmetric]

/-- Code that was read and data that was built are equal, two lists deep. -/
theorem equals_structural_nested :
    let read : Value := .list [.int 1, .list [.symbol "x", .builtin .car] .code (some ⟨3, 7⟩)] .code
      (some ⟨3, 6⟩)
    let built : Value := .list [.int 1, .list [.symbol "x", .builtin .car] .quoted none] .cons none
    read.floatFree = true ∧ built.floatFree = true ∧ read.skeleton = built.skeleton ∧
      read.equals built = true := by
  intro read built
  have free : read.floatFree = true ∧ built.floatFree = true := ⟨rfl, rfl⟩
  exact ⟨free.1, free.2, rfl, (equals_structural.1 read built free.1 free.2).2 rfl⟩

-- Two integers that round to one float both equal it, but not each other.
example :
    (int 9007199254740992).equals (float 9007199254740992) = true ∧
      (float 9007199254740992).equals (int 9007199254740993) = true ∧
      (int 9007199254740992).equals (int 9007199254740993) = false := by
  decide +kernel

end Value

end LazyLisp
