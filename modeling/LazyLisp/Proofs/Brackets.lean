import Mathlib.Data.List.Forall2
import Mathlib.Data.List.Infix

/-!
# Balanced brackets

A list is balanced if brackets are closed only after they were opened and all are closed at the
end. Which items open and which close a bracket is left to the use: tokens and characters both have
brackets among them.
-/

namespace LazyLisp

/-- Every prefix opens at least as many brackets as it closes, and the whole list as many. -/
structure Balanced {α : Type} (opens closes : α → Bool) (l : List α) : Prop where
  ahead : ∀ p, p <+: l → p.countP closes ≤ p.countP opens
  even : l.countP closes = l.countP opens

theorem prefix_append_cases {α : Type} {p a b : List α} (h : p <+: a ++ b) :
    p <+: a ∨ ∃ q, q <+: b ∧ p = a ++ q := by
  rcases List.prefix_or_prefix_of_prefix h (List.prefix_append a b) with short | long
  · exact .inl short
  · obtain ⟨q, rfl⟩ := long
    exact .inr ⟨q, (List.prefix_append_right_inj a).1 h, rfl⟩

namespace Balanced

variable {α : Type} {opens closes : α → Bool} {a b l : List α}

theorem nil : Balanced opens closes [] where
  ahead := by
    intro p h
    rw [List.prefix_nil.1 h]
    simp
  even := by simp

theorem append (ha : Balanced opens closes a) (hb : Balanced opens closes b) :
    Balanced opens closes (a ++ b) where
  ahead := by
    intro p h
    rcases prefix_append_cases h with short | ⟨q, hq, rfl⟩
    · exact ha.ahead p short
    · have first := ha.even
      have second := hb.ahead q hq
      simp only [List.countP_append]
      omega
  even := by
    have first := ha.even
    have second := hb.even
    simp only [List.countP_append]
    omega

/-- An item that is no bracket. -/
theorem single {x : α} (notOpen : opens x = false) (notClose : closes x = false) :
    Balanced opens closes [x] where
  ahead := by
    intro p h
    have member : ∀ y ∈ p, y = x := fun y inside => List.mem_singleton.1 (h.subset inside)
    have none : p.countP closes = 0 := by
      rw [List.countP_eq_zero]
      intro y inside
      rw [member y inside, notClose]
      simp
    omega
  even := by simp [notOpen, notClose]

/-- A balanced list between an opening and a closing bracket. -/
theorem wrap {o c : α} (ho : opens o = true) (ho' : closes o = false) (hc : closes c = true)
    (hc' : opens c = false) (h : Balanced opens closes l) :
    Balanced opens closes (o :: (l ++ [c])) where
  ahead := by
    intro p inside
    rcases List.prefix_cons_iff.1 inside with rfl | ⟨q, rfl, hq⟩
    · simp
    · have counts := h.even
      rcases prefix_append_cases hq with short | ⟨r, hr, rfl⟩
      · have within := h.ahead q short
        simp only [List.countP_cons, ho, ho', if_true, Bool.false_eq_true, if_false]
        omega
      · have least : r.countP closes ≤ 1 := by
          have most : r.countP closes ≤ [c].countP closes := hr.sublist.countP_le
          simpa [hc] using most
        simp only [List.countP_cons, List.countP_append, ho, ho', if_true, Bool.false_eq_true,
          if_false]
        omega
  even := by
    have counts := h.even
    simp only [List.countP_cons, List.countP_append, List.countP_nil, ho, ho', hc, hc', if_true,
      Bool.false_eq_true, if_false]
    omega

/-- A bracket opened inside a balanced list is closed after it. -/
theorem closed_after {x : α} (h : Balanced opens closes (a ++ x :: b)) (opened : opens x = true)
    (notClose : closes x = false) : b.countP opens < b.countP closes := by
  have before := h.ahead a (List.prefix_append a _)
  have total := h.even
  simp only [List.countP_append, List.countP_cons, opened, notClose, if_true, Bool.false_eq_true,
    if_false] at total
  omega

/-- Lists with the same brackets in the same places. -/
theorem of_forall₂ {β : Type} {opens' closes' : β → Bool} {R : α → β → Prop} {l' : List β}
    (alike : ∀ x y, R x y → opens x = opens' y ∧ closes x = closes' y)
    (related : List.Forall₂ R l l') (h : Balanced opens' closes' l') : Balanced opens closes l := by
  have counts : ∀ {a b}, List.Forall₂ R a b →
      a.countP opens = b.countP opens' ∧ a.countP closes = b.countP closes' := by
    intro a b rel
    induction rel with
    | nil => exact ⟨rfl, rfl⟩
    | cons head _ ih =>
      obtain ⟨same, same'⟩ := alike _ _ head
      simp only [List.countP_cons, same, same', ih.1, ih.2, and_self]
  constructor
  · intro p inside
    obtain ⟨opened, closed⟩ := counts (List.forall₂_take p.length related)
    rw [← List.prefix_iff_eq_take.1 inside] at opened closed
    rw [opened, closed]
    exact h.ahead _ (List.take_prefix _ _)
  · obtain ⟨opened, closed⟩ := counts related
    rw [opened, closed]
    exact h.even

end Balanced

end LazyLisp
