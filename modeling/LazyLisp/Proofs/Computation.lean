/-!
# Computations that keep an invariant

`Keeps I A x` says of a computation `x` that it keeps the invariant `I` of the state, whether it
succeeds or fails, and that its results have the property `A`. The rules follow how computations are
put together. Before them stand the equations for a computation that is known to succeed or to fail.
-/

namespace LazyLisp

variable {ε σ α β : Type}

theorem bind_of_ok {x : EStateM ε σ α} {f : α → EStateM ε σ β} {s s' : σ} {a : α}
    (h : x s = .ok a s') : (x >>= f) s = f a s' := by
  change EStateM.bind x f s = f a s'
  rw [EStateM.bind, h]

theorem bind_of_error {x : EStateM ε σ α} {f : α → EStateM ε σ β} {s s' : σ} {d : ε}
    (h : x s = .error d s') : (x >>= f) s = .error d s' := by
  change EStateM.bind x f s = .error d s'
  rw [EStateM.bind, h]

theorem get_bind_apply (f : σ → EStateM ε σ α) (s : σ) : (get >>= f) s = f s s := rfl

/-- The state has the property `I`, and so has the result, if there is one, the property `A`. -/
def Ends (I : σ → Prop) (A : α → Prop) : EStateM.Result ε σ α → Prop
  | .ok a s => A a ∧ I s
  | .error _ s => I s

/-- Started in a state with the property `I`, the computation ends in one. -/
def Keeps (I : σ → Prop) (A : α → Prop) (x : EStateM ε σ α) : Prop := ∀ s, I s → Ends I A (x s)

namespace Keeps

variable {I : σ → Prop} {A : α → Prop} {B : β → Prop}

theorem pure {a : α} (h : A a) : Keeps I A (Pure.pure a : EStateM ε σ α) := fun _ kept => ⟨h, kept⟩

theorem throw (d : ε) : Keeps I A (MonadExcept.throw d : EStateM ε σ α) := fun _ kept => kept

theorem bind {x : EStateM ε σ α} {f : α → EStateM ε σ β} (hx : Keeps I A x)
    (hf : ∀ a, A a → Keeps I B (f a)) : Keeps I B (x >>= f) := by
  intro s kept
  have first := hx s kept
  cases ended : x s with
  | ok a s' =>
    rw [ended] at first
    rw [bind_of_ok ended]
    exact hf a first.1 s' first.2
  | error d s' =>
    rw [ended] at first
    rw [bind_of_error ended]
    exact first

/-- A computation that starts by looking at the state. -/
theorem get_bind {f : σ → EStateM ε σ α} (h : ∀ s, I s → Ends I A (f s s)) :
    Keeps I A (get >>= f) := h

theorem modify {change : σ → σ} (h : ∀ s, I s → I (change s)) :
    Keeps I (fun _ => True) (modify change : EStateM ε σ Unit) := fun s kept => ⟨trivial, h s kept⟩

theorem mapM {f : α → EStateM ε σ β} {xs : List α} (h : ∀ a ∈ xs, Keeps I B (f a)) :
    Keeps I (fun bs : List β => ∀ b ∈ bs, B b) (xs.mapM f) := by
  induction xs with
  | nil => exact pure (by simp)
  | cons x xs ih =>
    rw [List.mapM_cons]
    refine (h x List.mem_cons_self).bind fun b hb => ?_
    refine (ih fun a member => h a (List.mem_cons_of_mem x member)).bind fun bs hbs => ?_
    exact pure (List.forall_mem_cons.2 ⟨hb, hbs⟩)

theorem foldlM {f : β → α → EStateM ε σ β} {xs : List α} {start : β} (hstart : B start)
    (h : ∀ b, B b → ∀ a ∈ xs, Keeps I B (f b a)) : Keeps I B (xs.foldlM f start) := by
  induction xs generalizing start with
  | nil => exact pure hstart
  | cons x xs ih =>
    rw [List.foldlM_cons]
    refine (h start hstart x List.mem_cons_self).bind fun b hb => ?_
    exact ih hb fun b hb a member => h b hb a (List.mem_cons_of_mem x member)

theorem adaptExcept {x : EStateM ε σ α} (hx : Keeps I A x) (f : ε → ε) :
    Keeps I A (x.adaptExcept f) := by
  intro s kept
  have first := hx s kept
  unfold EStateM.adaptExcept
  cases ended : x s with
  | ok a s' => rw [ended] at first; exact first
  | error d s' => rw [ended] at first; exact first

end Keeps

/-! ## Computations without a state -/

/-- The result, if there is one, has the property. -/
def Yields (P : α → Prop) (x : Except ε α) : Prop := ∀ a, x = .ok a → P a

theorem Yields.bind {P : α → Prop} {Q : β → Prop} {x : Except ε α}
    {f : α → Except ε β} (hx : Yields P x) (hf : ∀ a, P a → Yields Q (f a)) :
    Yields Q (x >>= f) := by
  cases x with
  | error e => intro b same; cases same
  | ok a => exact hf a (hx a rfl)

/-- A result that does not depend on what the computation before it gave. -/
theorem Yields.after {Q : β → Prop} (x : Except ε α) {f : α → Except ε β}
    (hf : ∀ a, Yields Q (f a)) : Yields Q (x >>= f) :=
  Yields.bind (fun _ _ => trivial : Yields (fun _ => True) x) fun a _ => hf a

theorem Yields.ok {P : α → Prop} {a : α} (h : P a) :
    Yields P (.ok a : Except ε α) := by
  rintro _ ⟨⟩
  exact h

theorem Yields.error {P : α → Prop} {e : ε} : Yields P (.error e : Except ε α) := by
  rintro _ ⟨⟩

theorem Yields.mapM {P : β → Prop} {f : α → Except ε β} {xs : List α}
    (h : ∀ a ∈ xs, Yields P (f a)) : Yields (fun bs : List β => ∀ b ∈ bs, P b) (xs.mapM f) := by
  induction xs with
  | nil => exact .ok (by simp)
  | cons x xs ih =>
    obtain ⟨first, rest⟩ := List.forall_mem_cons.1 h
    rw [List.mapM_cons]
    refine first.bind fun b hb => ?_
    exact (ih rest).bind fun bs hbs => .ok (List.forall_mem_cons.2 ⟨hb, hbs⟩)

end LazyLisp
