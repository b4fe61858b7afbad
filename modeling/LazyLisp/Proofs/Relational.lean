import Mathlib.Data.List.Forall2

/-!
# Computations side by side

Two computations correspond if, started in corresponding states, both fail or neither does, and what
they return or report and the states they leave correspond. The rules below follow how computations
are put together; they say nothing about what the states are.
-/

namespace LazyLisp

theorem optionRel_cases {α β : Type} {A : α → β → Prop} {x : Option α} {y : Option β}
    (h : Option.Rel A x y) :
    x = none ∧ y = none ∨ ∃ a b, x = some a ∧ y = some b ∧ A a b := by
  cases h with
  | none => exact .inl ⟨rfl, rfl⟩
  | some related => exact .inr ⟨_, _, rfl, rfl, related⟩

theorem optionRel_eq_iff {α : Type} {x y : Option α} : Option.Rel Eq x y ↔ x = y := by
  constructor
  · intro h
    cases h with
    | none => rfl
    | some same => rw [same]
  · rintro rfl
    cases x with
    | none => exact .none
    | some a => exact .some rfl

theorem head?_related {α β : Type} {A : α → β → Prop} {xs : List α} {ys : List β}
    (h : List.Forall₂ A xs ys) : Option.Rel A xs.head? ys.head? := by
  cases h with
  | nil => exact .none
  | cons head _ => exact .some head

theorem getLast?_related {α β : Type} {A : α → β → Prop} {xs : List α} {ys : List β}
    (h : List.Forall₂ A xs ys) : Option.Rel A xs.getLast? ys.getLast? := by
  rw [← List.head?_reverse, ← List.head?_reverse]
  exact head?_related (List.rel_reverse h)

theorem forall₂_iff_getElem? {α β : Type} {A : α → β → Prop} {xs : List α} {ys : List β} :
    List.Forall₂ A xs ys ↔ ∀ i : Nat, Option.Rel A xs[i]? ys[i]? := by
  constructor
  · intro h
    induction h with
    | nil => exact fun _ => .none
    | cons head _ ih =>
      intro i
      cases i with
      | zero => exact .some head
      | succ i => simpa using ih i
  · intro h
    induction xs generalizing ys with
    | nil =>
      cases ys with
      | nil => exact .nil
      | cons y ys => cases h 0
    | cons x xs ih =>
      cases ys with
      | nil => cases h 0
      | cons y ys =>
        have first := h 0
        have rest := ih fun i => by simpa using h (i + 1)
        cases first with
        | some head => exact .cons head rest

theorem map_eq_of_related {α β γ : Type} {A : α → β → Prop} {f : α → γ} {g : β → γ}
    (same : ∀ a b, A a b → f a = g b) {xs : List α} {ys : List β} (h : List.Forall₂ A xs ys) :
    xs.map f = ys.map g := by
  induction h with
  | nil => rfl
  | cons head _ ih => rw [List.map_cons, List.map_cons, same _ _ head, ih]

theorem forall₂_iff_map_eq {α β : Type} {R : α → α → Prop} {f : α → β} {xs ys : List α}
    (each : ∀ a ∈ xs, ∀ b, R a b ↔ f a = f b) :
    List.Forall₂ R xs ys ↔ xs.map f = ys.map f := by
  induction xs generalizing ys with
  | nil => cases ys <;> simp
  | cons x xs ih =>
    have rest := fun {ys} => @ih ys fun a member => each a (List.mem_cons_of_mem x member)
    cases ys with
    | nil => simp
    | cons y ys => simp [each x List.mem_cons_self y, rest]

theorem forall₂_imp_of_mem {α β : Type} {R R' : α → β → Prop} {xs : List α} {ys : List β}
    (each : ∀ a ∈ xs, ∀ b, R a b → R' a b) (h : List.Forall₂ R xs ys) : List.Forall₂ R' xs ys := by
  induction h with
  | nil => exact .nil
  | cons head _ ih =>
    obtain ⟨first, rest⟩ := List.forall_mem_cons.1 each
    exact .cons (first _ head) (ih rest)

theorem forall₂_of_map_eq {α β : Type} {R : α → α → Prop} {f : α → β} {xs ys : List α}
    (same : xs.map f = ys.map f) (each : ∀ a ∈ xs, ∀ b, f a = f b → R a b) :
    List.Forall₂ R xs ys :=
  forall₂_imp_of_mem each ((forall₂_iff_map_eq fun _ _ _ => Iff.rfl).2 same)

theorem exists_forall₂_iff {α β : Type} {R : α → β → Prop} {xs : List α} :
    (∃ ys, List.Forall₂ R xs ys) ↔ ∀ x ∈ xs, ∃ y, R x y := by
  induction xs with
  | nil => exact ⟨fun _ => by simp, fun _ => ⟨[], .nil⟩⟩
  | cons x xs ih =>
    rw [List.forall_mem_cons, ← ih]
    constructor
    · rintro ⟨_, first | ⟨head, tail⟩⟩
      exact ⟨⟨_, head⟩, ⟨_, tail⟩⟩
    · rintro ⟨⟨y, head⟩, ⟨ys, tail⟩⟩
      exact ⟨y :: ys, .cons head tail⟩

theorem forall₂_toList_iff_map_eq {α β : Type} {R : α → α → Prop} {f : α → β} {xs ys : Array α}
    (each : ∀ a b, R a b ↔ f a = f b) :
    List.Forall₂ R xs.toList ys.toList ↔ xs.map f = ys.map f := by
  rw [forall₂_iff_map_eq fun a _ => each a, ← Array.toList_map, ← Array.toList_map,
    Array.toList_inj]

/-- Both fail in the same way, or both succeed with related results. -/
inductive ExceptRel {ε α β : Type} (A : α → β → Prop) : Except ε α → Except ε β → Prop
  | ok {a : α} {b : β} : A a b → ExceptRel A (.ok a) (.ok b)
  | error (e : ε) : ExceptRel A (.error e) (.error e)

namespace ExceptRel

variable {ε α β α' β' : Type} {A : α → β → Prop} {B : α' → β' → Prop}

theorem same (x : Except ε α) : ExceptRel Eq x x := by
  cases x with
  | ok a => exact .ok rfl
  | error e => exact .error e

theorem cases {x : Except ε α} {y : Except ε β} (h : ExceptRel A x y) :
    (∃ a b, x = .ok a ∧ y = .ok b ∧ A a b) ∨ ∃ e, x = .error e ∧ y = .error e := by
  cases h with
  | ok related => exact .inl ⟨_, _, rfl, rfl, related⟩
  | error e => exact .inr ⟨e, rfl, rfl⟩

theorem bind {x : Except ε α} {y : Except ε β} {f : α → Except ε α'} {g : β → Except ε β'}
    (h : ExceptRel A x y) (hf : ∀ a b, A a b → ExceptRel B (f a) (g b)) :
    ExceptRel B (x >>= f) (y >>= g) := by
  cases h with
  | ok related => exact hf _ _ related
  | error e => exact .error e

theorem map_eq {γ : Type} {f : α → γ} {g : β → γ} (same : ∀ a b, A a b → f a = g b)
    {x : Except ε α} {y : Except ε β} (h : ExceptRel A x y) : x.map f = y.map g := by
  cases h with
  | ok related => exact congrArg _ (same _ _ related)
  | error e => rfl

/-- Both run through related items, and fail at the first item at which either fails. -/
theorem mapM {f : α → Except ε α'} {g : β → Except ε β'} {xs : List α} {ys : List β}
    (related : List.Forall₂ A xs ys) (hf : ∀ a b, A a b → ExceptRel B (f a) (g b)) :
    ExceptRel (List.Forall₂ B) (xs.mapM f) (ys.mapM g) := by
  induction related with
  | nil => exact .ok .nil
  | cons head tail ih =>
    simp only [List.mapM_cons]
    exact (hf _ _ head).bind fun a b first => ih.bind fun as bs rest => .ok (.cons first rest)

end ExceptRel

section

variable {ε ε' σ σ' α β α' β' : Type}

/-- Both runs failed or neither did, and what they gave corresponds: the states by `R`, the reports
by `E` and the results by `A`. -/
inductive Outcomes (R : σ → σ' → Prop) (E : ε → ε' → Prop) (A : α → β → Prop) :
    EStateM.Result ε σ α → EStateM.Result ε' σ' β → Prop
  | ok {a : α} {b : β} {s : σ} {s' : σ'} : A a b → R s s' → Outcomes R E A (.ok a s) (.ok b s')
  | error {d : ε} {d' : ε'} {s : σ} {s' : σ'} :
    E d d' → R s s' → Outcomes R E A (.error d s) (.error d' s')

theorem Outcomes.cases {R : σ → σ' → Prop} {E : ε → ε' → Prop} {A : α → β → Prop}
    {r : EStateM.Result ε σ α} {r' : EStateM.Result ε' σ' β} (h : Outcomes R E A r r') :
    (∃ a b s s', r = .ok a s ∧ r' = .ok b s' ∧ A a b ∧ R s s') ∨
      ∃ d d' s s', r = .error d s ∧ r' = .error d' s' ∧ E d d' ∧ R s s' := by
  cases h with
  | ok results states => exact .inl ⟨_, _, _, _, rfl, rfl, results, states⟩
  | error reports states => exact .inr ⟨_, _, _, _, rfl, rfl, reports, states⟩

/-- Started in corresponding states, the computations have corresponding outcomes. -/
def Runs (R : σ → σ' → Prop) (E : ε → ε' → Prop) (A : α → β → Prop) (x : EStateM ε σ α)
    (y : EStateM ε' σ' β) : Prop :=
  ∀ s s', R s s' → Outcomes R E A (x s) (y s')

namespace Runs

variable {R : σ → σ' → Prop} {E : ε → ε' → Prop} {A : α → β → Prop} {B : α' → β' → Prop}

theorem pure {a : α} {b : β} (h : A a b) :
    Runs R E A (Pure.pure a : EStateM ε σ α) (Pure.pure b : EStateM ε' σ' β) :=
  fun _ _ states => .ok h states

theorem throw {d : ε} {d' : ε'} (h : E d d') :
    Runs R E A (MonadExcept.throw d : EStateM ε σ α) (MonadExcept.throw d' : EStateM ε' σ' β) :=
  fun _ _ states => .error h states

theorem bind {x : EStateM ε σ α} {y : EStateM ε' σ' β} {f : α → EStateM ε σ α'}
    {g : β → EStateM ε' σ' β'} (h : Runs R E A x y)
    (hf : ∀ a b, A a b → Runs R E B (f a) (g b)) : Runs R E B (x >>= f) (y >>= g) := by
  intro s s' states
  change Outcomes R E B (EStateM.bind x f s) (EStateM.bind y g s')
  unfold EStateM.bind
  obtain ⟨a, b, t, t', e, e', related, after⟩ | ⟨d, d', t, t', e, e', reports, after⟩ :=
    (h s s' states).cases
  · rw [e, e']
    exact hf a b related t t' after
  · rw [e, e']
    exact .error reports after

/-- Computations that start by looking at the state. -/
theorem get_bind {f : σ → EStateM ε σ α} {g : σ' → EStateM ε' σ' β}
    (h : ∀ s s', R s s' → Outcomes R E A (f s s) (g s' s')) :
    Runs R E A (get >>= f) (get >>= g) := h

theorem modify {change : σ → σ} {change' : σ' → σ'}
    (h : ∀ s s', R s s' → R (change s) (change' s')) :
    Runs R E (fun _ _ => True) (modify change : EStateM ε σ Unit)
      (modify change' : EStateM ε' σ' Unit) :=
  fun s s' states => .ok trivial (h s s' states)

theorem mapM {f : α → EStateM ε σ α'} {g : β → EStateM ε' σ' β'} {xs : List α} {ys : List β}
    (related : List.Forall₂ A xs ys) (hf : ∀ a b, A a b → Runs R E B (f a) (g b)) :
    Runs R E (List.Forall₂ B) (xs.mapM f) (ys.mapM g) := by
  induction related with
  | nil => exact pure .nil
  | cons head tail ih =>
    simp only [List.mapM_cons]
    exact (hf _ _ head).bind fun a b first => ih.bind fun as bs rest => pure (.cons first rest)

theorem foldlM {f : α' → α → EStateM ε σ α'} {g : β' → β → EStateM ε' σ' β'} {xs : List α}
    {ys : List β} {start : α'} {start' : β'} (related : List.Forall₂ A xs ys)
    (starts : B start start') (hf : ∀ a b c d, B a b → A c d → Runs R E B (f a c) (g b d)) :
    Runs R E B (xs.foldlM f start) (ys.foldlM g start') := by
  induction related generalizing start start' with
  | nil => exact pure starts
  | cons head tail ih =>
    simp only [List.foldlM_cons]
    exact (hf _ _ _ _ starts head).bind fun a b next => ih next

theorem adaptExcept {x : EStateM ε σ α} {y : EStateM ε' σ' β} {f : ε → ε} {g : ε' → ε'}
    (h : Runs R E A x y) (hf : ∀ d d', E d d' → E (f d) (g d')) :
    Runs R E A (x.adaptExcept f) (y.adaptExcept g) := by
  intro s s' states
  unfold EStateM.adaptExcept
  obtain ⟨a, b, t, t', e, e', related, after⟩ | ⟨d, d', t, t', e, e', reports, after⟩ :=
    (h s s' states).cases
  · rw [e, e']
    exact .ok related after
  · rw [e, e']
    exact .error (hf d d' reports) after

end Runs

end

end LazyLisp
