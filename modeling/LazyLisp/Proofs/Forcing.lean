import LazyLisp.Proofs.Log

/-!
# The first lookup of a definition

A lookup that meets an expression evaluates it where it is bound and settles the binding. In the
meantime the expression's own evaluation may have changed the same binding, by `define`, by `set!`
or by further lookups. What the name stands for in the end is what the logged changes lead to, with
the settling as the last of them. So the first value that is put there stays until the program puts
another, while an expression does not stay: the lookup that is under way settles it, even if it is
not the expression that this lookup has evaluated.
-/

namespace LazyLisp

open EvalM

/-! ## What changes lead to -/

namespace Change

variable {changes before after : List Change} {b : Option Binding} {e v w : Value}

/-- The program's last write among the changes, and what came after it. -/
structure LastWrite (changes : List Change) (write : Change) (after : List Change) : Prop where
  split : ∃ before, changes = before ++ write :: after
  isWrite : write.isWrite = true
  later : ∀ change ∈ after, change.isWrite = false

theorem exists_settle {change : Change} (h : change.isWrite = false) :
    ∃ e v, change = .settle e v := by
  cases change with
  | settle e v => exact ⟨e, v, rfl⟩
  | _ => cases h

/-- Lookups leave a value alone. -/
theorem foldl_effect_value (only : ∀ change ∈ after, change.isWrite = false) :
    after.foldl effect (some (.value v)) = some (.value v) := by
  induction after with
  | nil => rfl
  | cons change after ih =>
    obtain ⟨first, rest⟩ := List.forall_mem_cons.1 only
    obtain ⟨e, w, rfl⟩ := exists_settle first
    exact ih rest

/-- Of several lookups, the one that ends first settles an expression. -/
theorem foldl_effect_deferred (only : ∀ change ∈ after, change.isWrite = false)
    {e₁ : Value} (first : after.head? = some (.settle e₁ w)) :
    after.foldl effect (some (.deferred e)) = some (.value w) := by
  cases after with
  | nil => cases first
  | cons change after =>
    cases first
    exact foldl_effect_value (List.forall_mem_cons.1 only).2

theorem foldl_effect_isSome (changes : List Change) (b : Binding) :
    ∃ b', changes.foldl effect (some b) = some b' := by
  induction changes generalizing b with
  | nil => exact ⟨b, rfl⟩
  | cons change changes ih =>
    rw [List.foldl_cons]
    cases change with
    | define e => exact ih _
    | assign v => exact ih _
    | settle e v =>
      cases b with
      | value w => exact ih _
      | deferred e' => exact ih _

/-- After the last write, only lookups are left to act on what it wrote. -/
theorem LastWrite.foldl_effect {write : Change} (h : LastWrite changes write after)
    (b : Option Binding) :
    changes.foldl effect b = after.foldl effect (effect b write) := by
  obtain ⟨before, rfl⟩ := h.split
  rw [List.foldl_append, List.foldl_cons]
  obtain ⟨-, isWrite, -⟩ := h
  cases write with
  | settle e v => cases isWrite
  | _ => rfl

/-- A lookup that ends does not hide the last write. -/
theorem LastWrite.append_settle {write : Change} (h : LastWrite changes write after) (e v : Value) :
    LastWrite (changes ++ [settle e v]) write (after ++ [settle e v]) where
  split := by
    obtain ⟨before, rfl⟩ := h.split
    exact ⟨before, by simp⟩
  isWrite := h.isWrite
  later := by
    intro change member
    rcases List.mem_append.1 member with old | new
    · exact h.later change old
    · rw [List.mem_singleton.1 new]
      rfl

/-- Where the expression `e` is evaluated to `v₀` and meanwhile the name is changed, the name is
settled with `v`. -/
def SettlesWith (changes : List Change) (e v₀ v : Value) : Prop :=
  (changes ++ [settle e v₀]).foldl effect (some (.deferred e)) = some (.value v)

namespace SettlesWith

variable {v₀ e' e₁ : Value}

theorem own (h : SettlesWith [] e v₀ v) : v = v₀ := by
  cases h
  rfl

theorem looked_up (h : SettlesWith changes e v₀ v)
    (only : ∀ change ∈ changes, change.isWrite = false)
    (first : changes.head? = some (.settle e₁ w)) : v = w := by
  have settled := foldl_effect_deferred (e := e) only first
  rw [SettlesWith, List.foldl_append, settled] at h
  cases h
  rfl

theorem assigned (h : SettlesWith changes e v₀ v) (last : LastWrite changes (.assign w) after) :
    v = w := by
  have kept := last.append_settle e v₀
  have settled : (after ++ [settle e v₀]).foldl effect (some (.value w)) = some (.value w) :=
    foldl_effect_value kept.later
  rw [SettlesWith, kept.foldl_effect] at h
  cases h.symm.trans settled
  rfl

/-- A redefinition is settled by the lookup that ends next, whatever this lookup has evaluated. -/
theorem redefined (h : SettlesWith changes e v₀ v) (last : LastWrite changes (.define e') after)
    (next : (after ++ [settle e v₀]).head? = some (.settle e₁ w)) : v = w := by
  have kept := last.append_settle e v₀
  rw [SettlesWith, kept.foldl_effect] at h
  cases h.symm.trans (foldl_effect_deferred kept.later next)
  rfl

end SettlesWith

end Change

/-! ## Lookups -/

/-- The memory in which one more evaluation is under way. -/
def Memory.entered (m : Memory) : Memory := { m with depth := m.depth + 1 }

theorem EvalM.nested_of_error {α : Type} {limit : Nat} {m m' : Memory} (h : m.depth < limit)
    {act : EvalM α} {d : Diagnostic} (ended : act m.entered = .error d m') :
    nested limit act m = .error d { m' with depth := m'.depth - 1 } := by
  have inner : act { m with depth := m.depth + 1 } = .error d m' := ended
  simp [nested, Nat.not_le.2 h, inner]

namespace Store

variable {s : Store} {env owner : FrameId} {name : String} {b : Binding}

theorem lt_size_of_binding? (held : s.binding? owner name = some b) : owner < s.size := by
  obtain ⟨f, present, -⟩ := Option.bind_eq_some_iff.1 held
  exact lt_size_of_get? present

/-- A frame that binds a name owns it. -/
theorem owner?_of_binding? (held : s.binding? owner name = some b) :
    s.owner? owner name = some owner := by
  obtain ⟨f, present, bound⟩ := Option.bind_eq_some_iff.1 held
  have contains : f.contains name = true := by
    rw [Frame.contains, bound]
    rfl
  exact owner?_eq_some_iff.2 ⟨_, .here present contains⟩

end Store

section

variable {c : Context} {bound : Nat} {m : Memory} {env owner : FrameId} {name : String}
  {e v : Value}

theorem lookup_of_found {found : Binding × FrameId} (h : m.store.lookup? env name = some found) :
    lookup env name m = .ok found m := by
  rw [lookup, get_bind_apply, h]
  rfl

theorem eval_of_value (found : m.store.lookup? env name = some (.value v, owner))
    (spare : m.depth < c.limit) : eval c (bound + 1) (.symbol name) env m = .ok v m := by
  have looked : lookup env name m.entered = .ok (.value v, owner) m.entered :=
    lookup_of_found found
  have inner : Eval.resolve (eval c bound) env name m.entered = .ok v m.entered :=
    bind_of_ok looked
  exact nested_of_ok spare inner

/-- A lookup that meets an expression evaluates it in the frame that binds it. -/
theorem eval_of_deferred (found : m.store.lookup? env name = some (.deferred e, owner)) :
    eval c (bound + 1) (.symbol name) env m =
      nested c.limit (eval c bound e owner >>= force owner name) m := by
  have looked : lookup env name m.entered = .ok (.deferred e, owner) m.entered :=
    lookup_of_found found
  have inner : Eval.resolve (eval c bound) env name { m with depth := m.depth + 1 } =
      (eval c bound e owner >>= force owner name) { m with depth := m.depth + 1 } :=
    bind_of_ok looked
  show nested c.limit (Eval.resolve (eval c bound) env name) m = _
  unfold nested
  rw [inner]

/-- Settling a binding has the effect of the change that is logged for it, and gives the value that
the name then stands for. -/
theorem force_of_binding {b : Binding} (held : m.store.binding? owner name = some b) (e v : Value) :
    ∃ w m', force owner name v m = .ok w m' ∧
      Change.effect (some b) (.settle e v) = some (.value w) ∧
      m'.store.binding? owner name = some (.value w) := by
  rw [force, get_bind_apply, held]
  cases b with
  | value current => exact ⟨current, m, rfl, rfl, held⟩
  | deferred e' =>
    refine ⟨v, _, rfl, rfl, ?_⟩
    show (m.store.define owner name (.value v)).binding? owner name = _
    rw [Store.binding?_define (Store.lt_size_of_binding? held), if_pos ⟨rfl, rfl⟩]

end

/-! ## Settled and deferred names -/

/-- The frame binds the name to a value, and evaluating it there, any number of times while the
depth allows it, gives this value and changes nothing. -/
structure Settled (m : Memory) (owner : FrameId) (name : String) (v : Value) : Prop where
  held : m.store.binding? owner name = some (.value v)
  again : ∀ (c : Context) (bound count : Nat), m.depth < c.limit →
    (List.replicate count (Value.symbol name)).mapM (eval c (bound + 1) · owner) m =
      .ok (List.replicate count v) m

/-- The frame binds the name to an expression, and each lookup that finds it there evaluates it. -/
structure Deferred (m : Memory) (owner : FrameId) (name : String) (e : Value) : Prop where
  held : m.store.binding? owner name = some (.deferred e)
  afresh : ∀ (c : Context) (bound : Nat) (env : FrameId) (m' : Memory), m'.store = m.store →
    m.store.owner? env name = some owner →
    eval c (bound + 1) (.symbol name) env m' =
      nested c.limit (eval c bound e owner >>= force owner name) m'

section

variable {m : Memory} {owner : FrameId} {name : String} {e v : Value}

theorem settled_of_binding? (held : m.store.binding? owner name = some (.value v)) :
    Settled m owner name v where
  held := held
  again := by
    intro c bound count spare
    have found := Store.lookup?_eq_some_iff.2 ⟨Store.owner?_of_binding? held, held⟩
    induction count with
    | zero => rfl
    | succ count ih =>
      rw [List.replicate_succ, List.mapM_cons, bind_of_ok (eval_of_value found spare),
        bind_of_ok ih]
      rfl

theorem deferred_of_binding? (held : m.store.binding? owner name = some (.deferred e)) :
    Deferred m owner name e where
  held := held
  afresh := by
    intro c bound env m' same walked
    exact eval_of_deferred (same ▸ Store.lookup?_eq_some_iff.2 ⟨walked, held⟩)

end

/-! ## Lookups that evaluate -/

section

variable {c : Context} {bound : Nat} {m : Memory} {env owner : FrameId} {name : String} {e : Value}

/-- The value of a name is what the changes during the evaluation of its expression lead to, with
the settling of the name at the end. -/
theorem eval_of_logged (found : m.store.lookup? env name = some (.deferred e, owner))
    (spare : m.depth < c.limit) {v₀ : Value} {r : Logged}
    (logged : evalLogged c bound e owner { memory := m.entered } = .ok v₀ r) :
    ∃ v m', eval c (bound + 1) (.symbol name) env m = .ok v m' ∧
      m'.store.binding? owner name = some (.value v) ∧
      Change.SettlesWith (changesOf r.log owner name) e v₀ v := by
  obtain ⟨-, held⟩ := Store.lookup?_eq_some_iff.1 found
  rcases evalLogged_cases c bound e owner m.entered with
    ⟨v', r', same, plain, led⟩ | ⟨d, r', same, -, -⟩
  · rw [logged] at same
    cases same
    have replayed := led.replay (Store.lt_size_of_binding? held) name
    rw [show m.entered.store.binding? owner name = _ from held] at replayed
    obtain ⟨b, last⟩ := Change.foldl_effect_isSome (changesOf r.log owner name) (.deferred e)
    obtain ⟨v, m', forced, settled, bound'⟩ := force_of_binding (replayed.trans last) e v₀
    refine ⟨v, { m' with depth := m'.depth - 1 }, ?_, bound', ?_⟩
    · rw [eval_of_deferred found]
      have inner : (eval c bound e owner >>= force owner name) m.entered = .ok v m' :=
        (bind_of_ok plain).trans forced
      exact nested_of_ok spare inner
    · rw [Change.SettlesWith, List.foldl_append, last]
      exact settled
  · rw [logged] at same
    cases same

/-- A lookup whose expression fails changes no binding of its own. -/
theorem eval_of_logged_error (found : m.store.lookup? env name = some (.deferred e, owner))
    (spare : m.depth < c.limit) {d : Diagnostic} {r : Logged}
    (logged : evalLogged c bound e owner { memory := m.entered } = .error d r) :
    eval c (bound + 1) (.symbol name) env m =
      .error d { r.memory with depth := r.memory.depth - 1 } := by
  rcases evalLogged_cases c bound e owner m.entered with
    ⟨v, r', same, -, -⟩ | ⟨d', r', same, plain, -⟩
  · rw [logged] at same
    cases same
  · rw [logged] at same
    cases same
    have inner : (eval c bound e owner >>= force owner name) m.entered = .error d r.memory :=
      bind_of_error plain
    rw [eval_of_deferred found]
    exact nested_of_error spare inner

/-- Neither the bound nor the limit has room for the evaluation. -/
def NoRoom (c : Context) (bound : Nat) (m : Memory) : Prop := bound = 0 ∨ c.limit ≤ m.depth

theorem eval_of_noRoom (h : NoRoom c bound m) (e : Value) (env : FrameId) :
    eval c bound e env m = .error (Fault.depth c.limit).diagnostic m := by
  rcases h with rfl | full
  · rfl
  · cases bound with
    | zero => rfl
    | succ bound => exact nested_of_full full _

theorem exists_of_room (h : ¬ NoRoom c bound m) :
    ∃ inner, bound = inner + 1 ∧ m.depth < c.limit := by
  unfold NoRoom at h
  exact ⟨bound - 1, by omega, by omega⟩

/-- The changes during the evaluation of the expression decide what a lookup settles the name
with. -/
theorem settlesWith_of_eval (found : m.store.lookup? env name = some (.deferred e, owner))
    {v : Value} {m' : Memory} (ended : eval c bound (.symbol name) env m = .ok v m') :
    ∃ v₀ r, evalLogged c (bound - 1) e owner { memory := m.entered } = .ok v₀ r ∧
      eval c (bound - 1) e owner m.entered = .ok v₀ r.memory ∧
      m.store.Replays r.log r.memory.store ∧
      m'.store.binding? owner name = some (.value v) ∧
      Change.SettlesWith (changesOf r.log owner name) e v₀ v := by
  by_cases full : NoRoom c bound m
  · rw [eval_of_noRoom full] at ended
    cases ended
  obtain ⟨inner, rfl, spare⟩ := exists_of_room full
  rw [Nat.add_sub_cancel]
  rcases evalLogged_cases c inner e owner m.entered with
    ⟨v₀, r, logged, plain, led⟩ | ⟨d, r, logged, -, -⟩
  · obtain ⟨v', m₁, given, held, settles⟩ := eval_of_logged found spare logged
    rw [given] at ended
    cases ended
    exact ⟨v₀, r, logged, plain, led, held, settles⟩
  · rw [eval_of_logged_error found spare logged] at ended
    cases ended

/-- A name that is evaluated is bound to its value then. -/
theorem binding?_of_eval {b : Binding} (found : m.store.lookup? env name = some (b, owner))
    {v : Value} {m' : Memory} (ended : eval c bound (.symbol name) env m = .ok v m') :
    m'.store.binding? owner name = some (.value v) := by
  cases b with
  | deferred e =>
    obtain ⟨_, _, -, -, -, held, -⟩ := settlesWith_of_eval found ended
    exact held
  | value w =>
    by_cases full : NoRoom c bound m
    · rw [eval_of_noRoom full] at ended
      cases ended
    obtain ⟨inner, rfl, spare⟩ := exists_of_room full
    rw [eval_of_value found spare] at ended
    cases ended
    exact (Store.lookup?_eq_some_iff.1 found).2

/-- Where the evaluation of a name fails, the bindings are those that its expression left. -/
theorem store_of_failed (found : m.store.lookup? env name = some (.deferred e, owner))
    {d : Diagnostic} {m' : Memory} (ended : eval c bound (.symbol name) env m = .error d m') :
    ∃ r : Logged,
      (NoRoom c bound m ∧ r = { memory := m } ∨
        evalLogged c (bound - 1) e owner { memory := m.entered } = .error d r ∧
        eval c (bound - 1) e owner m.entered = .error d r.memory) ∧
      m'.store = r.memory.store ∧ m.store.Replays r.log r.memory.store := by
  by_cases full : NoRoom c bound m
  · rw [eval_of_noRoom full] at ended
    cases ended
    exact ⟨{ memory := m }, .inl ⟨full, rfl⟩, rfl, .refl _⟩
  obtain ⟨inner, rfl, spare⟩ := exists_of_room full
  rw [Nat.add_sub_cancel]
  rcases evalLogged_cases c inner e owner m.entered with
    ⟨v₀, r, logged, -, -⟩ | ⟨d', r, logged, plain, led⟩
  · obtain ⟨v, m₁, given, -⟩ := eval_of_logged found spare logged
    rw [given] at ended
    cases ended
  · rw [eval_of_logged_error found spare logged] at ended
    cases ended
    exact ⟨r, .inr ⟨logged, plain⟩, rfl, led⟩

/-- **A lookup settles the name, and an assignment made in the meantime stays.** Take a name that is
found in a frame. If its evaluation succeeds, the frame binds the name to the value, and evaluating
it there again gives the same and changes nothing. If an expression had to be evaluated first, the
log of its evaluation decides: the value is the last one assigned by the program, if its last write
to the name was an assignment; without any write it is the one that the first inner lookup of the
name came to; and without any change it is the expression's own. If the evaluation fails, the
bindings are those that the expression's evaluation left. If it did not change the name, this is as
before, and the next lookup evaluates the expression again. -/
theorem lookup_settles {b : Binding} (found : m.store.lookup? env name = some (b, owner))
    (c : Context) (bound : Nat) :
    (∀ v m', eval c bound (.symbol name) env m = .ok v m' →
      Settled m' owner name v ∧
      ∀ e, b = .deferred e → ∃ v₀ r,
        evalLogged c (bound - 1) e owner { memory := m.entered } = .ok v₀ r ∧
        eval c (bound - 1) e owner m.entered = .ok v₀ r.memory ∧
        m.store.Replays r.log r.memory.store ∧
        (∀ w after, Change.LastWrite (changesOf r.log owner name) (.assign w) after → v = w) ∧
        (∀ e₁ w, (∀ change ∈ changesOf r.log owner name, change.isWrite = false) →
          (changesOf r.log owner name).head? = some (.settle e₁ w) → v = w) ∧
        (changesOf r.log owner name = [] → v = v₀)) ∧
    ∀ d m', eval c bound (.symbol name) env m = .error d m' →
      ∀ e, b = .deferred e → ∃ r : Logged,
        (NoRoom c bound m ∧ r = { memory := m } ∨
          evalLogged c (bound - 1) e owner { memory := m.entered } = .error d r ∧
          eval c (bound - 1) e owner m.entered = .error d r.memory) ∧
        m'.store = r.memory.store ∧ m.store.Replays r.log r.memory.store ∧
        (changesOf r.log owner name = [] → Deferred m' owner name e) := by
  constructor
  · intro v m' ended
    refine ⟨settled_of_binding? (binding?_of_eval found ended), ?_⟩
    rintro e rfl
    obtain ⟨v₀, r, logged, plain, led, -, settles⟩ := settlesWith_of_eval found ended
    refine ⟨v₀, r, logged, plain, led, ?_, ?_, ?_⟩
    · intro w after last
      exact settles.assigned last
    · intro e₁ w only first
      exact settles.looked_up only first
    · intro unchanged
      rw [unchanged] at settles
      exact settles.own
  · rintro d m' ended e rfl
    obtain ⟨r, failed, same, led⟩ := store_of_failed found ended
    refine ⟨r, failed, same, led, fun unchanged => deferred_of_binding? ?_⟩
    obtain ⟨-, held⟩ := Store.lookup?_eq_some_iff.1 found
    have replayed := led.replay (Store.lt_size_of_binding? held) name
    rw [unchanged, held] at replayed
    rw [same]
    exact replayed

/-- The expression of `x` assigns 7 to `x` before it gives 4: the assigned value stays. -/
theorem lookup_settles_assigned :
    let e : Value := .list [.symbol "if",
      .list [.symbol "set!", .symbol "x", .int 7] .code none, .int 4] .code none
    let m : Memory := { store := ({} : Store).push { bindings := [("x", .deferred e)] } }
    let c : Context := { limit := 10, tree := {} }
    m.store.lookup? 0 "x" = some (.deferred e, 0) ∧
      ∃ m', eval c 10 (.symbol "x") 0 m = .ok (.int 7) m' ∧ Settled m' 0 "x" (.int 7) := by
  intro e m c
  have found : m.store.lookup? 0 "x" = some (.deferred e, 0) := rfl
  obtain ⟨m', ended⟩ : ∃ m', eval c 10 (.symbol "x") 0 m = .ok (.int 7) m' := ⟨_, rfl⟩
  exact ⟨found, m', ended, ((lookup_settles found c 10).1 _ _ ended).1⟩

/-- **What becomes of a write during the first lookup of a name.** Take a lookup that evaluates the
name's expression and succeeds, and the program's last write to the name during this evaluation. An
assigned value stays. A new expression is settled by the lookup that ends next: by an inner one, if
one ended after it, and otherwise by the lookup itself, with the value of the old expression. -/
theorem write_during_lookup (found : m.store.lookup? env name = some (.deferred e, owner))
    {v : Value} {m' : Memory} (ended : eval c bound (.symbol name) env m = .ok v m') :
    ∃ v₀ r, evalLogged c (bound - 1) e owner { memory := m.entered } = .ok v₀ r ∧
      eval c (bound - 1) e owner m.entered = .ok v₀ r.memory ∧
      m.store.Replays r.log r.memory.store ∧
      (∀ w after, Change.LastWrite (changesOf r.log owner name) (.assign w) after →
        m'.store.binding? owner name = some (.value w)) ∧
      (∀ e' e₁ w after,
        Change.LastWrite (changesOf r.log owner name) (.define e') (.settle e₁ w :: after) →
        m'.store.binding? owner name = some (.value w)) ∧
      ∀ e', Change.LastWrite (changesOf r.log owner name) (.define e') [] →
        m'.store.binding? owner name = some (.value v₀) := by
  obtain ⟨v₀, r, logged, plain, led, held, settles⟩ := settlesWith_of_eval found ended
  refine ⟨v₀, r, logged, plain, led, ?_, ?_, ?_⟩
  · intro w after last
    rw [held, settles.assigned last]
  · intro e' e₁ w after last
    rw [held, settles.redefined last rfl]
  · intro e' last
    rw [held, settles.redefined last rfl]

/-- The expression of `x` is an assignment to `x`, whose own value is the symbol: the assigned value
stays. -/
theorem write_during_lookup_assigned :
    let e : Value := .list [.symbol "set!", .symbol "x", .int 7] .code none
    let m : Memory := { store := ({} : Store).push { bindings := [("x", .deferred e)] } }
    let c : Context := { limit := 10, tree := {} }
    m.store.lookup? 0 "x" = some (.deferred e, 0) ∧
      ∃ m', eval c 10 (.symbol "x") 0 m = .ok (.int 7) m' ∧
        m'.store.binding? 0 "x" = some (.value (.int 7)) := by
  intro e m c
  have found : m.store.lookup? 0 "x" = some (.deferred e, 0) := rfl
  obtain ⟨m', ended⟩ : ∃ m', eval c 10 (.symbol "x") 0 m = .ok (.int 7) m' := ⟨_, rfl⟩
  obtain ⟨v₀, r, logged, -, -, assigned, -⟩ := write_during_lookup found ended
  obtain ⟨m₁, log⟩ : ∃ m₁, evalLogged c 9 e 0 { memory := m.entered } =
      .ok (.symbol "x") ⟨m₁, [⟨0, "x", .assign (.int 7)⟩]⟩ := ⟨_, rfl⟩
  cases logged.symm.trans log
  exact ⟨found, _, ended, assigned (.int 7) [] ⟨⟨[], rfl⟩, rfl, by simp⟩⟩

end

/-- A redefinition during the first lookup of the name is lost: `(define x (begin (define x 5) 4))`
makes `x` stand for 4 once it is looked up, so a program that looks it up twice gives 4. -/
theorem redefinition_lost :
    let e : Value := .list [.symbol "begin",
      .list [.symbol "define", .symbol "x", .int 5] .code none, .int 4] .code none
    let f : Frame := { bindings := [("x", .deferred e), ("begin", .value (.builtin .begin))] }
    let m : Memory := { store := ({} : Store).push f }
    let c : Context := { limit := 10, tree := {} }
    let ran := (Session.new 10).run "(define x (begin (define x 5) 4)) x x"
    ran.1.toOption.bind Value.int? = some 4 ∧
      m.store.lookup? 0 "x" = some (.deferred e, 0) ∧
      ∃ r m', evalLogged c 9 e 0 { memory := m.entered } = .ok (.int 4) r ∧
        Change.LastWrite (changesOf r.log 0 "x") (.define (.int 5)) [] ∧
        eval c 10 (.symbol "x") 0 m = .ok (.int 4) m' ∧
        m'.store.binding? 0 "x" = some (.value (.int 4)) := by
  intro e f m c ran
  exact ⟨by decide +kernel, rfl, _, _, rfl, ⟨⟨[], rfl⟩, rfl, by simp⟩, rfl, rfl⟩

end LazyLisp
