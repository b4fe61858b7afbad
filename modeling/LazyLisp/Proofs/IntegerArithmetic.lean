import Mathlib.Algebra.BigOperators.Group.List.Basic
import LazyLisp.Proofs.Division
import LazyLisp.Proofs.Simulation.Builtin

/-!
# Arithmetic of integers

Sums, differences, products and powers of words are those of the integers, or an error: no result is
ever wrapped. A sum of many arguments is formed from the left, so that it is an error also where
only a partial sum fits no word. Of several faults among the arguments the first one counts, be it
an argument that is no number or one that takes the total out of range.

`Totals` says once how adding up can end; the statements about sums and differences follow from it.
-/

namespace LazyLisp

namespace Number

/-- A word holds the number. -/
def Fits (n : Int) : Prop := -2 ^ 63 ≤ n ∧ n ≤ 2 ^ 63 - 1

theorem fits_toInt (w : Int64) : Fits w.toInt := by
  have low : -2 ^ 63 ≤ w.toInt := by simpa using w.minValue_le_toInt
  have high : w.toInt ≤ 2 ^ 63 - 1 := Int64.toInt_maxValue ▸ w.toInt_le
  exact ⟨low, high⟩

theorem word?_eq_none_iff_not_fits {n : Int} : word? n = none ↔ ¬ Fits n := by
  rw [Reader.word?_eq_none_iff, Fits]
  omega

theorem exists_word_of_fits {n : Int} (h : Fits n) : ∃ w, word? n = some w ∧ w.toInt = n := by
  cases found : word? n with
  | none => exact absurd h (word?_eq_none_iff_not_fits.1 found)
  | some w => exact ⟨w, rfl, toInt_of_word? found⟩

/-- The integers that words stand for. -/
abbrev ints (ns : List Int64) : List Int := ns.map Int64.toInt

/-! ## Totals from the left -/

/-- How taking arguments together from the left ends, where none is a float: in a word, at an
argument that is no number, or at one with which the total leaves the range of words. -/
inductive Totals (name : String) (f : Int → Int → Int) (total : Int) (args : List Value) :
    Except Fault Number → Prop
  | exact (ns : List Int64) {w : Int64} : args = ns.map .int →
    (∀ p, p <+: ints ns → Fits (p.foldl f total)) → w.toInt = (ints ns).foldl f total →
      Totals name f total args (.ok (.int w))
  | noNumber (before : List Int64) {v : Value} {after : List Value} :
    args = before.map .int ++ v :: after → (∀ p, p <+: ints before → Fits (p.foldl f total)) →
      (∀ n, v ≠ .int n) → Totals name f total args (.error (.wrongType name "a number" v.typeName))
  | overflow (before : List Int64) {n : Int64} {after : List Value} :
    args = before.map .int ++ .int n :: after →
      (∀ p, p <+: ints before → Fits (p.foldl f total)) →
      ¬ Fits ((ints before ++ [n.toInt]).foldl f total) →
        Totals name f total args (.error (.overflow name))

variable {name : String} {f : Int → Int → Int} {total : Int} {args : List Value}
  {r : Except Fault Number}

theorem forall_prefix_cons {P : List Int → Prop} {n : Int} {l : List Int} :
    (∀ p, p <+: n :: l → P p) ↔ P [] ∧ ∀ p, p <+: l → P (n :: p) := by
  simp only [List.prefix_cons_iff]
  constructor
  · intro h
    exact ⟨h [] (.inl rfl), fun p inside => h (n :: p) (.inr ⟨p, rfl, inside⟩)⟩
  · rintro ⟨empty, longer⟩ p (rfl | ⟨t, rfl, inside⟩)
    · exact empty
    · exact longer t inside

/-- One more argument in front. -/
theorem Totals.cons {n : Int64} (fits : Fits total) (h : Totals name f (f total n.toInt) args r) :
    Totals name f total (.int n :: args) r := by
  have inside : ∀ {l : List Int}, (∀ p, p <+: l → Fits (p.foldl f (f total n.toInt))) →
      ∀ p, p <+: n.toInt :: l → Fits (p.foldl f total) :=
    fun all => forall_prefix_cons.2 ⟨fits, all⟩
  cases h with
  | exact ns same all result => exact .exact (n :: ns) (by rw [same]; rfl) (inside all) result
  | noNumber before same all other =>
    exact .noNumber (n :: before) (by rw [same]; rfl) (inside all) other
  | overflow before same all large =>
    exact .overflow (n :: before) (by rw [same]; rfl) (inside all) large

theorem fold_totals (g : Float → Float → Float) (start : Int64)
    (noFloat : ∀ v ∈ args, ∀ x, v ≠ .float x) :
    Totals name f start.toInt args (fold name (combine name f g) (.int start) args) := by
  have fits := fits_toInt start
  have nothing : ∀ p, p <+: ints [] → Fits (p.foldl f start.toInt) := by simpa using fits
  induction args generalizing start with
  | nil => exact .exact [] rfl nothing rfl
  | cons v vs ih =>
    obtain ⟨first, rest⟩ := List.forall_mem_cons.1 noFloat
    cases v with
    | int n =>
      by_cases next : Fits (f start.toInt n.toInt)
      · obtain ⟨w, found, value⟩ := exists_word_of_fits next
        have step : fold name (combine name f g) (.int start) (.int n :: vs) =
            fold name (combine name f g) (.int w) vs := by
          simp only [fold, ofValue, combine, found, bind, Except.bind]
        rw [step]
        have later := ih w rest (fits_toInt w) (by simpa using fits_toInt w)
        rw [value] at later
        exact later.cons fits
      · have step : fold name (combine name f g) (.int start) (.int n :: vs) =
            .error (.overflow name) := by
          have none := word?_eq_none_iff_not_fits.2 next
          simp only [fold, ofValue, combine, none, bind, Except.bind]
        rw [step]
        exact .overflow [] rfl nothing next
    | float x => exact absurd rfl (first x)
    | _ => exact .noNumber [] rfl nothing (by simp)

/-- Of integers alone the total is exact, or some total on the way leaves the range. -/
theorem Totals.of_ints {ns : List Int64} (h : Totals name f total (ns.map .int) r) :
    ((∀ p, p <+: ints ns → Fits (p.foldl f total)) →
      ∃ w : Int64, w.toInt = (ints ns).foldl f total ∧ r = .ok (.int w)) ∧
    ((¬ ∀ p, p <+: ints ns → Fits (p.foldl f total)) → r = .error (.overflow name)) := by
  have injective : Function.Injective Value.int := fun _ _ => Value.int.inj
  cases h with
  | exact _ same all result =>
    obtain rfl := injective.list_map same
    exact ⟨fun _ => ⟨_, result, rfl⟩, fun some => absurd all some⟩
  | noNumber _ same _ other =>
    obtain ⟨n, -, isInt⟩ := List.mem_map.1 (same ▸ List.mem_append_right _ List.mem_cons_self)
    exact absurd isInt.symm (other n)
  | overflow _ same _ large =>
    obtain ⟨front, back, rfl, sameFront, sameBack⟩ := List.map_eq_append_iff.1 same
    obtain rfl := injective.list_map sameFront
    obtain ⟨k, back, rfl, sameHead, -⟩ := List.map_eq_cons_iff.1 sameBack
    obtain rfl := injective sameHead
    refine ⟨fun all => absurd (all _ ⟨ints back, ?_⟩) large, fun _ => rfl⟩
    simp

/-- With a value among the arguments that is no integer, a fault decides: the first one. -/
theorem Totals.of_other (h : Totals name f total args r) (other : ∃ v ∈ args, ∀ n, v ≠ .int n) :
    ∃ (before : List Int64) (v : Value) (after : List Value),
      args = before.map .int ++ v :: after ∧
      (∀ p, p <+: ints before → Fits (p.foldl f total)) ∧
      ((∀ n, v ≠ .int n) ∧ r = .error (.wrongType name "a number" v.typeName) ∨
        ∃ n, v = .int n ∧ ¬ Fits ((ints before ++ [n.toInt]).foldl f total) ∧
          r = .error (.overflow name)) := by
  cases h with
  | exact _ same _ _ =>
    obtain ⟨v, member, notInt⟩ := other
    obtain ⟨n, -, isInt⟩ := List.mem_map.1 (same ▸ member)
    exact absurd isInt.symm (notInt n)
  | noNumber _ same all notInt => exact ⟨_, _, _, same, all, .inl ⟨notInt, rfl⟩⟩
  | overflow _ same all large => exact ⟨_, _, _, same, all, .inr ⟨_, rfl, large, rfl⟩⟩

/-! ## Differences and powers -/

/-- The first number less all the others. -/
def difference : List Int → Int
  | [] => 0
  | n :: ns => n - ns.sum

theorem foldl_sub (n : Int) (ns : List Int) : ns.foldl (· - ·) n = n - ns.sum := by
  induction ns generalizing n with
  | nil => simp
  | cons k ns ih =>
    rw [List.foldl_cons, ih, List.sum_cons]
    omega

/-- All differences on the way fit if they do after the first number, which fits itself. -/
theorem forall_prefix_difference {n : Int64} {ns : List Int} :
    (∀ p, p <+: n.toInt :: ns → Fits (difference p)) ↔
      ∀ p, p <+: ns → Fits (p.foldl (· - ·) n.toInt) := by
  have none : Fits 0 := by simp [Fits]
  simp only [forall_prefix_cons, difference, none, true_and, foldl_sub]

/-- Beyond the 63rd power only 0, 1 and -1 stay in range. -/
theorem power?_eq (b : Int) (e : Nat) : power? b e = word? (b ^ e) := by
  unfold power?
  split
  · rfl
  · next large =>
    split
    · next small =>
      -- the power depends on the exponent's parity alone
      have same : b ^ e = b ^ (2 - e % 2) := by
        obtain rfl | rfl | rfl : b = 0 ∨ b = 1 ∨ b = -1 := by omega
        · rw [zero_pow (by omega), zero_pow (by omega)]
        · rw [one_pow, one_pow]
        · rcases Nat.even_or_odd e with even | odd
          · have rest : e % 2 = 0 := Nat.even_iff.1 even
            rw [even.neg_one_pow, rest]
            rfl
          · have rest : e % 2 = 1 := Nat.odd_iff.1 odd
            rw [odd.neg_one_pow, rest]
            rfl
      rw [same]
      rfl
    · next big =>
      refine (word?_eq_none_iff_not_fits.2 fun fits => ?_).symm
      have size : 2 ^ 64 ≤ (b ^ e).natAbs := by
        calc 2 ^ 64 ≤ 2 ^ e := Nat.pow_le_pow_right (by omega) (by omega)
          _ ≤ b.natAbs ^ e := Nat.pow_le_pow_left (by omega) e
          _ = (b ^ e).natAbs := (Int.natAbs_pow b e).symm
      unfold Fits at fits
      omega

end Number

/-! ## The builtins -/

open Number EvalM

/-- If `possible`, the call gives the integer `n`, and otherwise it is an evaluation error. In
either case nothing else happens. -/
def Builtin.GivesIf (b : Builtin) (args : List Value) (possible : Prop) (n : Int) : Prop :=
  ∀ m, (possible → ∃ w : Int64, w.toInt = n ∧ callBuiltin b args m = .ok (.int w) m) ∧
    (¬ possible → ∃ d, callBuiltin b args m = .error d m ∧ d.kind = .evaluation)

/-- The call fails at the first argument that is no integer or with which the total is out of
range, and with the error of that argument: a type error or an evaluation error. -/
def Builtin.FailsAtFirst (b : Builtin) (total : List Int → Int) (args : List Value) : Prop :=
  ∃ (before : List Int64) (v : Value) (after : List Value),
    args = before.map .int ++ v :: after ∧ (∀ p, p <+: ints before → Fits (total p)) ∧
    ∀ m, ∃ d, callBuiltin b args m = .error d m ∧
      ((∀ n, v ≠ .int n) ∧ d.kind = .type ∧
          d.message = "`" ++ b.name ++ "` expected a number but found " ++ v.typeName ∨
        ∃ n, v = .int n ∧ ¬ Fits (total (ints before ++ [n.toInt])) ∧ d.kind = .evaluation ∧
          d.message = "integer overflow in `" ++ b.name ++ "`")

namespace Builtin

variable {b : Builtin} {args : List Value}

theorem givesIf_of_result {possible : Prop} {n : Int} (silent : b.shows args = [])
    (ok : possible → ∃ w : Int64, w.toInt = n ∧ b.result args = .ok (.int w))
    (error : ¬ possible → ∃ f, b.result args = .error f ∧ f.kind = .evaluation) :
    b.GivesIf args possible n := by
  intro m
  constructor
  · intro holds
    obtain ⟨w, value, result⟩ := ok holds
    exact ⟨w, value, by rw [callBuiltin_silent silent, result]⟩
  · intro fails
    obtain ⟨f, result, kind⟩ := error fails
    exact ⟨f.diagnostic, by rw [callBuiltin_silent silent, result], kind⟩

/-- A total of integers that a builtin gives as its result. -/
theorem givesIf_of_totals {f : Int → Int → Int} {start : Int} {ns : List Int64}
    {r : Except Fault Number} (silent : b.shows args = [])
    (result : b.result args = r.map Number.toValue)
    (totals : Totals b.name f start (ns.map .int) r) :
    b.GivesIf args (∀ p, p <+: ints ns → Fits (p.foldl f start)) ((ints ns).foldl f start) := by
  obtain ⟨exact, overflow⟩ := totals.of_ints
  refine givesIf_of_result silent (fun all => ?_) fun some => ?_
  · obtain ⟨w, value, rfl⟩ := exact all
    exact ⟨w, value, result⟩
  · rw [result, overflow some]
    exact ⟨_, rfl, rfl⟩

theorem failsAtFirst_of_result {total : List Int → Int} {before : List Int64} {v : Value}
    {after : List Value} (silent : b.shows args = []) (split : args = before.map .int ++ v :: after)
    (all : ∀ p, p <+: ints before → Fits (total p))
    (fault : (∀ n, v ≠ .int n) ∧ b.result args = .error (.wrongType b.name "a number" v.typeName) ∨
      ∃ n, v = .int n ∧ ¬ Fits (total (ints before ++ [n.toInt])) ∧
        b.result args = .error (.overflow b.name)) :
    b.FailsAtFirst total args := by
  refine ⟨before, v, after, split, all, fun m => ?_⟩
  rw [callBuiltin_silent silent]
  rcases fault with ⟨notInt, result⟩ | ⟨n, isInt, large, result⟩
  · have message : (Fault.wrongType b.name "a number" v.typeName).message =
        "`" ++ b.name ++ "` expected a number but found " ++ v.typeName := by
      have joined : "` expected a number but found " =
          "` expected " ++ "a number" ++ " but found " := by decide +kernel
      rw [joined, ← String.append_assoc, ← String.append_assoc]
      rfl
    rw [result]
    exact ⟨_, rfl, .inl ⟨notInt, rfl, message⟩⟩
  · rw [result]
    exact ⟨_, rfl, .inr ⟨n, isInt, large, rfl, rfl⟩⟩

theorem result_add (args : List Value) :
    add.result args = (fold "+" Number.add (.int 0) args).map Number.toValue := by
  show Number.toValue <$> fold "+" Number.add (.int 0) args = _
  rfl

theorem result_subtract (n : Int64) {rest : List Value} (more : rest ≠ []) :
    subtract.result (.int n :: rest) =
      (fold "-" Number.sub (.int n) rest).map Number.toValue := by
  cases rest with
  | nil => exact absurd rfl more
  | cons v rest =>
    show (fold "-" Number.sub (.int n) (v :: rest) >>= fun n => pure n.toValue) = _
    cases fold "-" Number.sub (.int n) (v :: rest) <;> rfl

theorem givesIf_add (ns : List Int64) :
    add.GivesIf (ns.map .int) (∀ p, p <+: ints ns → Fits p.sum) (ints ns).sum := by
  have totals : Totals "+" (· + ·) 0 (ns.map .int) (fold "+" Number.add (.int 0) (ns.map .int)) :=
    fold_totals _ 0 (by simp)
  simp only [List.sum_eq_foldl]
  exact givesIf_of_totals rfl (result_add _) totals

/-- A sum that is given is the sum of the integers. -/
theorem exists_sum_of_ok {ns : List Int64} {v : Value} {m m' : Memory}
    (gives : callBuiltin add (ns.map .int) m = .ok v m') :
    ∃ w : Int64, w.toInt = (ints ns).sum ∧ v = .int w := by
  obtain ⟨exact, error⟩ := givesIf_add ns m
  by_cases all : ∀ p, p <+: ints ns → Fits p.sum
  · obtain ⟨w, value, given⟩ := exact all
    rw [given] at gives
    cases gives
    exact ⟨w, value, rfl⟩
  · obtain ⟨d, failed, -⟩ := error all
    rw [failed] at gives
    cases gives

theorem givesIf_subtract (n : Int64) {ns : List Int64} (more : ns ≠ []) :
    subtract.GivesIf ((n :: ns).map .int) (∀ p, p <+: ints (n :: ns) → Fits (difference p))
      (difference (ints (n :: ns))) := by
  have totals : Totals "-" (· - ·) n.toInt (ns.map .int)
      (fold "-" Number.sub (.int n) (ns.map .int)) := fold_totals _ n (by simp)
  have rest : ns.map Value.int ≠ [] := by simpa using more
  have possible : (∀ p, p <+: ints (n :: ns) → Fits (difference p)) =
      ∀ p, p <+: ints ns → Fits (p.foldl (· - ·) n.toInt) := propext forall_prefix_difference
  have value : difference (ints (n :: ns)) = (ints ns).foldl (· - ·) n.toInt :=
    (foldl_sub n.toInt (ints ns)).symm
  rw [possible, value, List.map_cons]
  exact givesIf_of_totals rfl (result_subtract n rest) totals

/-- One operation on two integers. -/
theorem givesIf_of_combine {f : Int → Int → Int} {g : Float → Float → Float} {x y : Int64}
    (silent : b.shows args = [])
    (result : b.result args = (combine b.name f g (.int x) (.int y)).map Number.toValue) :
    b.GivesIf args (Fits (f x.toInt y.toInt)) (f x.toInt y.toInt) := by
  refine givesIf_of_result silent (fun fits => ?_) fun large => ?_
  · obtain ⟨w, found, value⟩ := exists_word_of_fits fits
    exact ⟨w, value, by rw [result, combine, found]; rfl⟩
  · have none := word?_eq_none_iff_not_fits.2 large
    exact ⟨_, by rw [result, combine, none]; rfl, rfl⟩

theorem givesIf_negate (n : Int64) :
    subtract.GivesIf [.int n] (n ≠ Int64.minValue) (-n.toInt) := by
  have result : subtract.result [.int n] =
      (combine "-" (· - ·) (· - ·) (.int 0) (.int n)).map Number.toValue := by
    show (Number.sub (.int 0) (.int n) >>= fun k => pure k.toValue) = _
    unfold Number.sub
    cases combine "-" (· - ·) (· - ·) (.int 0) (.int n) <;> rfl
  have possible : (n ≠ Int64.minValue) = Fits (0 - n.toInt) := by
    have held := fits_toInt n
    have least : n = Int64.minValue ↔ n.toInt = -2 ^ 63 := by
      rw [← Int64.toInt_inj, Int64.toInt_minValue]
    rw [ne_eq, least, eq_iff_iff]
    unfold Fits at held ⊢
    omega
  rw [possible, ← Int.zero_sub]
  exact givesIf_of_combine rfl result

theorem givesIf_multiply (x y : Int64) :
    multiply.GivesIf [.int x, .int y] (Fits (x.toInt * y.toInt)) (x.toInt * y.toInt) := by
  have result : multiply.result [.int x, .int y] =
      (combine "*" (· * ·) (· * ·) (.int x) (.int y)).map Number.toValue := by
    show (Number.mul (.int x) (.int y) >>= fun k => pure k.toValue) = _
    unfold Number.mul
    cases combine "*" (· * ·) (· * ·) (.int x) (.int y) <;> rfl
  exact givesIf_of_combine rfl result

theorem givesIf_power (x e : Int64) (natural : 0 ≤ e.toInt) :
    power.GivesIf [.int x, .int e] (e.toInt < 2 ^ 32 ∧ Fits (x.toInt ^ e.toInt.toNat))
      (x.toInt ^ e.toInt.toNat) := by
  have result : power.result [.int x, .int e] =
      (Number.pow (.int x) (.int e)).map Number.toValue := by
    show (Number.pow (.int x) (.int e) >>= fun k => pure k.toValue) = _
    cases Number.pow (.int x) (.int e) <;> rfl
  have sign : (0 : Int64) ≤ e := Int64.le_iff_toInt_le.2 natural
  refine givesIf_of_result rfl (fun possible => ?_) fun impossible => ?_
  · obtain ⟨small, fits⟩ := possible
    have range : e.toInt.toNat < UInt32.size := by rw [UInt32.size]; omega
    obtain ⟨w, found, value⟩ := exists_word_of_fits fits
    refine ⟨w, value, ?_⟩
    simp only [result, Number.pow, if_pos sign, if_pos range, power?_eq, found]
    rfl
  · by_cases small : e.toInt < 2 ^ 32
    · have range : e.toInt.toNat < UInt32.size := by rw [UInt32.size]; omega
      have none := word?_eq_none_iff_not_fits.2 fun fits => impossible ⟨small, fits⟩
      refine ⟨.overflow "expt", ?_, rfl⟩
      simp only [result, Number.pow, if_pos sign, if_pos range, power?_eq, none]
      rfl
    · have range : ¬ e.toInt.toNat < UInt32.size := by rw [UInt32.size]; omega
      refine ⟨.exponentRange, ?_, rfl⟩
      simp only [result, Number.pow, if_pos sign, if_neg range]
      rfl

theorem failsAtFirst_add (noFloat : ∀ v ∈ args, ∀ x, v ≠ .float x)
    (other : ∃ v ∈ args, ∀ n, v ≠ .int n) : add.FailsAtFirst List.sum args := by
  have totals : Totals "+" (· + ·) 0 args (fold "+" Number.add (.int 0) args) :=
    fold_totals _ 0 noFloat
  obtain ⟨before, v, after, split, all, fault⟩ := totals.of_other other
  simp only [← List.sum_eq_foldl] at all fault
  refine failsAtFirst_of_result rfl split all (fault.imp ?_ ?_)
  · rintro ⟨notInt, stopped⟩
    exact ⟨notInt, by rw [result_add, stopped]; rfl⟩
  · rintro ⟨n, isInt, large, stopped⟩
    exact ⟨n, isInt, large, by rw [result_add, stopped]; rfl⟩

theorem failsAtFirst_subtract (noFloat : ∀ v ∈ args, ∀ x, v ≠ .float x)
    (other : ∃ v ∈ args, ∀ n, v ≠ .int n) : subtract.FailsAtFirst difference args := by
  obtain ⟨w, member, notInt⟩ := other
  cases args with
  | nil => cases member
  | cons first rest =>
    obtain ⟨firstNoFloat, restNoFloat⟩ := List.forall_mem_cons.1 noFloat
    by_cases isInt : ∃ n, first = .int n
    · obtain ⟨n, rfl⟩ := isInt
      have later : w ∈ rest := (List.mem_cons.1 member).resolve_left (notInt n)
      have totals : Totals "-" (· - ·) n.toInt rest (fold "-" Number.sub (.int n) rest) :=
        fold_totals _ n restNoFloat
      have result := result_subtract n (List.ne_nil_of_mem later)
      obtain ⟨before, v, after, split, all, fault⟩ := totals.of_other ⟨w, later, notInt⟩
      have split' : Value.int n :: rest = (n :: before).map .int ++ v :: after := by
        rw [split]
        rfl
      refine failsAtFirst_of_result rfl split' (forall_prefix_difference.2 all) (fault.imp ?_ ?_)
      · rintro ⟨notInt, stopped⟩
        exact ⟨notInt, by rw [result, stopped]; rfl⟩
      · rintro ⟨k, isInt, large, stopped⟩
        rw [foldl_sub] at large
        exact ⟨k, isInt, large, by rw [result, stopped]; rfl⟩
    · have notInt : ∀ n, first ≠ .int n := fun n same => isInt ⟨n, same⟩
      have none : ∀ p, p <+: ints [] → Fits (difference p) := by simp [difference, Fits]
      refine failsAtFirst_of_result rfl (List.nil_append _).symm none (.inl ⟨notInt, ?_⟩)
      have stopped : ofValue "-" first = .error (.wrongType "-" "a number" first.typeName) := by
        cases first with
        | int n => exact absurd rfl (notInt n)
        | float x => exact absurd rfl (firstNoFloat x)
        | _ => rfl
      cases rest <;> simp only [result, stopped] <;> rfl

/-- **Arithmetic of integers is exact or an error, never wrapped.** A sum is the sum of the
integers if every partial sum from the left fits a word, and an evaluation error otherwise; so are a
difference of two or more numbers, a negation, a product and a power, whose exponent must also be
below `2 ^ 32`. If a sum or a difference has an argument that is no number, and no float, the first
fault from the left decides: an argument that is no number, or one that takes the total out of
range. Two orders of the same integers have the same sum where both have one. A call with another
number of arguments than the builtin takes is an arity error. -/
theorem integers_exact_or_error :
    (∀ ns : List Int64,
      add.GivesIf (ns.map .int) (∀ p, p <+: ints ns → Fits p.sum) (ints ns).sum) ∧
    (∀ ns : List Int64, 2 ≤ ns.length →
      subtract.GivesIf (ns.map .int) (∀ p, p <+: ints ns → Fits (difference p))
        (difference (ints ns))) ∧
    (∀ n : Int64, subtract.GivesIf [.int n] (n ≠ Int64.minValue) (-n.toInt)) ∧
    (∀ x y : Int64,
      multiply.GivesIf [.int x, .int y] (Fits (x.toInt * y.toInt)) (x.toInt * y.toInt)) ∧
    (∀ x e : Int64, 0 ≤ e.toInt →
      power.GivesIf [.int x, .int e] (e.toInt < 2 ^ 32 ∧ Fits (x.toInt ^ e.toInt.toNat))
        (x.toInt ^ e.toInt.toNat)) ∧
    (∀ args : List Value, (∀ v ∈ args, ∀ x, v ≠ .float x) → (∃ v ∈ args, ∀ n, v ≠ .int n) →
      add.FailsAtFirst List.sum args ∧ subtract.FailsAtFirst difference args) ∧
    (∀ (ns ns' : List Int64) (v v' : Value) (m m₁ m' m₁' : Memory), ns.Perm ns' →
      callBuiltin add (ns.map .int) m = .ok v m₁ → callBuiltin add (ns'.map .int) m' = .ok v' m₁' →
        v = v') ∧
    ∀ (b : Builtin) (args : List Value) (m : Memory), b.arity.accepts args.length = false →
      ∃ d, callBuiltin b args m = .error d m ∧ d.kind = .arity := by
  refine ⟨givesIf_add, ?_, givesIf_negate, givesIf_multiply, givesIf_power, ?_, ?_, ?_⟩
  · intro ns two
    obtain _ | ⟨n, _ | ⟨k, ns⟩⟩ := ns
    · simp at two
    · simp at two
    · exact givesIf_subtract n (List.cons_ne_nil k ns)
  · exact fun args noFloat other =>
      ⟨failsAtFirst_add noFloat other, failsAtFirst_subtract noFloat other⟩
  · intro ns ns' v v' m m₁ m' m₁' perm gives gives'
    obtain ⟨w, sum, rfl⟩ := exists_sum_of_ok gives
    obtain ⟨w', sum', rfl⟩ := exists_sum_of_ok gives'
    have same : w.toInt = w'.toInt := by
      rw [sum, sum']
      exact (perm.map Int64.toInt).sum_eq
    rw [Int64.toInt_inj.1 same]
  · intro b args m wrong
    refine ⟨(Fault.builtinArity b.name b.arity.text args.length).diagnostic, ?_, rfl⟩
    unfold callBuiltin
    rw [result_of_not_accepts b args wrong]
    rfl

end Builtin

end LazyLisp
