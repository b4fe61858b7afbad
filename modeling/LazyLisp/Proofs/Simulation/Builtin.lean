import LazyLisp.Proofs.Simulation.Memory

/-!
# Corresponding calls of builtins

A builtin takes its arguments apart in few ways: as numbers, as truth values, by comparison, or as
the items of a list. Corresponding arguments agree in all of these, so the results correspond and
the faults are the same.
-/

namespace LazyLisp

theorem Builtin.result_of_not_accepts (b : Builtin) (args : List Value)
    (h : b.arity.accepts args.length = false) :
    b.result args = .error (.builtinArity b.name b.arity.text args.length) := by
  unfold Builtin.result
  split
  -- the last equation is for the wrong number of arguments, all others are for the right one
  case h_17 => rfl
  all_goals simp [Builtin.arity, Arity.accepts] at h

namespace Simulation

variable {S : Simulation} {v v' : Value} {args args' : List Value}

theorem value_number (n : Number) : S.value n.toValue n.toValue := by
  cases n <;> exact S.value_atom rfl

theorem ofValue_eq (name : String) (h : S.value v v') :
    Number.ofValue name v = Number.ofValue name v' := by
  cases S.value_like h <;> rfl

theorem fold_eq (name : String) (op : Number → Number → Except Fault Number) (total : Number)
    (h : List.Forall₂ S.value args args') :
    Number.fold name op total args = Number.fold name op total args' := by
  induction h generalizing total with
  | nil => rfl
  | cons head _ ih => simp only [Number.fold, ofValue_eq name head, ih]

theorem pair_eq (name : String) {a a' b b' : Value} (ha : S.value a a') (hb : S.value b b') :
    Number.pair name a b = Number.pair name a' b' := by
  simp only [Number.pair, ofValue_eq name ha, ofValue_eq name hb]

/-- A result computed from equal operands. -/
theorem number_result (x : Except Fault Number) :
    ExceptRel S.value (do return (← x).toValue) (do return (← x).toValue) := by
  refine (ExceptRel.same x).bind fun n n' same => ?_
  subst same
  exact .ok (value_number n)

theorem itemsOf_related (name : String) (h : S.value v v') :
    ExceptRel (List.Forall₂ S.value) (Builtin.itemsOf name v) (Builtin.itemsOf name v') := by
  cases S.value_like h with
  | list _ _ => exact .ok (S.value_items h)
  | _ => exact .error _

theorem pickFrom_related (name : String) {pick : List Value → Option Value}
    (hpick : ∀ {vs vs'}, List.Forall₂ S.value vs vs' → Option.Rel S.value (pick vs) (pick vs'))
    (h : S.value v v') :
    ExceptRel S.value (Builtin.pickFrom name pick v) (Builtin.pickFrom name pick v') := by
  refine (itemsOf_related name h).bind fun items items' related => ?_
  obtain ⟨e, e'⟩ | ⟨a, b, e, e', picked⟩ := optionRel_cases (hpick related)
  · rw [e, e']
    exact .error _
  · rw [e, e']
    exact .ok picked

theorem value_cons {head head' tail tail' : Value} (h : S.value head head')
    (h' : S.value tail tail') : S.value (.cons head tail) (.cons head' tail') :=
  S.value_cell (.cons h (.cons h' .nil))

theorem value_chain (h : List.Forall₂ S.value args args') :
    S.value (.chain args) (.chain args') := by
  induction h with
  | nil => exact S.value_cell .nil
  | cons head tail ih =>
    cases tail with
    | nil => exact S.value_cell (.cons head .nil)
    | cons next rest =>
      rw [Value.chain_cons_cons, Value.chain_cons_cons]
      exact value_cons head ih

/-- A builtin of one argument, given what it does to one. -/
theorem unary_related {b : Builtin} (arity : b.arity = .exactly 1)
    (one : ∀ a a', S.value a a' → ExceptRel S.value (b.result [a]) (b.result [a']))
    (h : List.Forall₂ S.value args args') : ExceptRel S.value (b.result args) (b.result args') := by
  by_cases count : args.length = 1
  · obtain _ | ⟨ha, _ | _⟩ := h
    · cases count
    · exact one _ _ ha
    · simp at count
  · rw [b.result_of_not_accepts args (by simp [arity, Arity.accepts, count]),
      b.result_of_not_accepts args' (by simp [arity, Arity.accepts, ← h.length_eq, count]),
      h.length_eq]
    exact .error _

/-- A builtin of two arguments, given what it does to two. -/
theorem binary_related {b : Builtin} (arity : b.arity = .exactly 2)
    (two : ∀ a a' c c', S.value a a' → S.value c c' →
      ExceptRel S.value (b.result [a, c]) (b.result [a', c']))
    (h : List.Forall₂ S.value args args') : ExceptRel S.value (b.result args) (b.result args') := by
  by_cases count : args.length = 2
  · obtain _ | ⟨ha, _ | ⟨hc, _ | _⟩⟩ := h
    · cases count
    · simp at count
    · exact two _ _ _ _ ha hc
    · simp at count
  · rw [b.result_of_not_accepts args (by simp [arity, Arity.accepts, count]),
      b.result_of_not_accepts args' (by simp [arity, Arity.accepts, ← h.length_eq, count]),
      h.length_eq]
    exact .error _

theorem subtract_related (h : List.Forall₂ S.value args args') :
    ExceptRel S.value (Builtin.subtract.result args) (Builtin.subtract.result args') := by
  obtain _ | ⟨ha, _ | ⟨hb, rest⟩⟩ := h
  · exact .error _
  · simp only [Builtin.result, ofValue_eq "-" ha]
    exact (ExceptRel.same _).bind fun n n' same => same ▸ number_result _
  · simp only [Builtin.result, ofValue_eq "-" ha]
    refine (ExceptRel.same _).bind fun n n' same => ?_
    rw [same, fold_eq "-" Number.sub n' (.cons hb rest)]
    exact number_result _

theorem result_related (b : Builtin) (h : List.Forall₂ S.value args args') :
    ExceptRel S.value (b.result args) (b.result args') := by
  -- the arithmetic on a pair of operands, and the comparisons, depend on nothing but the pair
  have arithmetic : ∀ (name : String) (op : Number → Number → Except Fault Number)
      (a a' c c' : Value), S.value a a' → S.value c c' →
      ExceptRel S.value (do let p ← Number.pair name a c; return (← op p.1 p.2).toValue)
        (do let p ← Number.pair name a' c'; return (← op p.1 p.2).toValue) := by
    intro name op a a' c c' ha hc
    rw [pair_eq name ha hc]
    exact (ExceptRel.same _).bind fun p q same => same ▸ number_result _
  have comparison : ∀ (name : String) (test : Number → Number → Bool) (a a' c c' : Value),
      S.value a a' → S.value c c' →
      ExceptRel S.value (do let p ← Number.pair name a c; return .bool (test p.1 p.2))
        (do let p ← Number.pair name a' c'; return .bool (test p.1 p.2)) := by
    intro name test a a' c c' ha hc
    rw [pair_eq name ha hc]
    exact (ExceptRel.same _).bind fun p q same => same ▸ .ok (S.value_atom rfl)
  cases b with
  | begin =>
    obtain ⟨e, e'⟩ | ⟨a, a', e, e', related⟩ := optionRel_cases (getLast?_related h)
    · simpa [Builtin.result, e, e'] using ExceptRel.ok (S.value_atom rfl)
    · simpa [Builtin.result, e, e'] using ExceptRel.ok related
  | cons => exact binary_related rfl (fun _ _ _ _ ha hc => .ok (value_cons ha hc)) h
  | car => exact unary_related rfl (fun _ _ => pickFrom_related "car" head?_related) h
  | cdr => exact unary_related rfl (fun _ _ => pickFrom_related "cdr" getLast?_related) h
  | list => exact .ok (value_chain h)
  | add =>
    simp only [Builtin.result, fold_eq "+" Number.add (.int 0) h]
    exact number_result _
  | subtract => exact subtract_related h
  | multiply => exact binary_related rfl (arithmetic "*" Number.mul) h
  | divide => exact binary_related rfl (arithmetic "/" Number.div) h
  | power => exact binary_related rfl (arithmetic "expt" Number.pow) h
  | equal =>
    refine binary_related rfl (fun a a' c c' ha hc => ?_) h
    simp only [Builtin.result, (S.value_like ha).equals (S.value_like hc)]
    exact .ok (S.value_atom rfl)
  | less => exact binary_related rfl (comparison "<" Number.less) h
  | greater => exact binary_related rfl (comparison ">" fun m n => n.less m) h
  | not =>
    refine unary_related rfl (fun a a' ha => ?_) h
    simp only [Builtin.result, (S.value_like ha).truthy]
    exact .ok (S.value_atom rfl)
  | display => exact unary_related rfl (fun _ _ _ => .ok (S.value_atom rfl)) h

theorem shows_related (b : Builtin) (h : List.Forall₂ S.value args args') :
    List.Forall₂ S.value (b.shows args) (b.shows args') := by
  cases b with
  | display => exact h
  | _ => exact .nil

theorem Related.callBuiltin {depth : Nat} (b : Builtin) (h : List.Forall₂ S.value args args') :
    S.Related depth S.value (EvalM.callBuiltin b args) (EvalM.callBuiltin b args') :=
  (Related.ofExcept (result_related b h)).bind fun _ _ hv =>
    (Related.emitAll (shows_related b h)).bind fun _ _ _ => Runs.pure hv

end Simulation

end LazyLisp
