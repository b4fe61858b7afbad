import LazyLisp.Proofs.Computation
import LazyLisp.Proofs.Simulation.Basic

/-!
# Domains that evaluation does not leave

A `Domain` is a set of frames, a set of expressions and a set of values. An evaluation of one of its
expressions in one of its frames stays inside: it evaluates only expressions of the domain in frames
of the domain, what it computes are values of the domain, and every other frame remains as it was.
The laws of a domain say how its expressions are closed under the parts that the evaluator takes
them apart into, and how its values are put together and taken apart; the frames must include all
that are yet to be made.

Each part of the evaluator keeps the invariant if the evaluator that it is given does; `keeps_eval`
is the induction on the bound.
-/

namespace LazyLisp

/-- Every closure in the value, at any depth of lists, was made in a frame of `frame` and has a body
of expressions of `expr`. -/
inductive Value.Inside (frame : FrameId → Prop) (expr : Value → Prop) : Value → Prop
  | atom {v : Value} : v.isAtom = true → Inside frame expr v
  | list {items : List Value} {tag : ListTag} {origin : Option NodeId} :
    (∀ v ∈ items, Inside frame expr v) → Inside frame expr (.list items tag origin)
  | closure {id : Nat} {params : List String} {body : List Value} {env : FrameId} :
    frame env → (∀ e ∈ body, expr e) → Inside frame expr (.closure id params body env)

theorem Value.Inside.items {frame : FrameId → Prop} {expr : Value → Prop} {items : List Value}
    {tag : ListTag} {origin : Option NodeId} (h : Inside frame expr (.list items tag origin)) :
    ∀ v ∈ items, v.Inside frame expr := by
  cases h with
  | atom atom => cases atom
  | list inside => exact inside

theorem Value.Inside.body {frame : FrameId → Prop} {expr : Value → Prop} {id : Nat}
    {params : List String} {body : List Value} {env : FrameId}
    (h : Inside frame expr (.closure id params body env)) : frame env ∧ ∀ e ∈ body, expr e := by
  cases h with
  | atom atom => cases atom
  | closure frame inside => exact ⟨frame, inside⟩

/-- The expressions that a special form evaluates, at once or later. -/
def Form.exprs : Form → List Value
  | .quote _ => []
  | .define _ e => [e]
  | .lambda _ body => body
  | .ifThen test consequent alternative => test :: consequent :: alternative.toList
  | .assign _ e => [e]
  | .letIn bindings body => bindings.map Prod.snd ++ body

theorem Eval.codeList_eq {M : Type → Type} [Monad M] [Effects M] (ev : EvaluatorIn M)
    (env : FrameId) (origin : Option NodeId) (items : List Value) :
    codeList ev env origin items =
      match Keyword.ofItems? items with
      | none => application ev env items
      | some k =>
        match Form.parse k origin items.tail with
        | .ok f => form ev env f
        | .error m => Effects.raise (.misshape m) := by
  cases items with
  | nil => rfl
  | cons head args =>
    cases head with
    | symbol name =>
      simp only [codeList, Keyword.ofItems?]
      cases Keyword.ofName? name <;> rfl
    | _ => rfl

/-! ## Special forms -/

namespace Form

section Parsing

variable {P : Value → Prop} {origin : Option NodeId} {args : List Value} {f : Form}

/-- The expression is the function that a `define` list stands for. -/
def IsImplicit (origin : Option NodeId) (args : List Value) (e : Value) : Prop :=
  ∃ name params tag place body, args = .list (.symbol name :: params) tag place :: body ∧
    e = lambdaOf params body origin

theorem define_of_parse (parsed : parseDefine origin args = .ok f) :
    ∃ name e, f = .define name e ∧ (e ∈ args ∨ IsImplicit origin args e) := by
  unfold parseDefine at parsed
  split at parsed
  · cases parsed
  · split at parsed
    · cases parsed
      exact ⟨_, _, rfl, .inl (by simp)⟩
    · cases parsed
  · split at parsed
    · cases parsed
    · cases parsed
    · cases parsed
      exact ⟨_, _, rfl, .inr ⟨_, _, _, _, _, rfl, rfl⟩⟩
    · cases parsed
  · cases parsed

theorem lambda_of_parse (parsed : parseLambda args = .ok f) :
    ∃ params, f = .lambda params args.tail := by
  have lambda : Yields (fun f => ∃ params, f = .lambda params args.tail) (parseLambda args) := by
    unfold parseLambda
    split
    · exact .error
    · next body =>
      refine .after _ fun names => ?_
      cases body with
      | nil => exact .error
      | cons e body => exact .ok ⟨names, rfl⟩
    · exact .error
  exact lambda f parsed

theorem let_of_parse
    (inherit : ∀ {items tag origin}, P (.list items tag origin) → ∀ v ∈ items, P v)
    (h : ∀ e ∈ args, P e) (parsed : parseLet args = .ok f) :
    ∃ bindings body, f = .letIn bindings body ∧ ∀ e ∈ f.exprs, P e := by
  have binding : ∀ {b}, P b → Yields (fun pair => P pair.2) (letBinding b) := by
    intro b hb
    unfold letBinding
    split
    · exact .ok (inherit hb _ (by simp))
    · exact .error
    · exact .error
  have letIn : Yields (fun f => ∃ bindings body, f = .letIn bindings body ∧ ∀ e ∈ f.exprs, P e)
      (parseLet args) := by
    unfold parseLet
    split
    · exact .error
    · next bindings tag place body =>
      obtain ⟨hbindings, hbody⟩ := List.forall_mem_cons.1 h
      cases body with
      | nil => exact .error
      | cons e body =>
        have each := Yields.mapM fun b member => binding (inherit hbindings b member)
        refine each.bind fun pairs hpairs => .ok ⟨pairs, e :: body, rfl, ?_⟩
        refine List.forall_mem_append.2 ⟨fun e member => ?_, hbody⟩
        obtain ⟨pair, inside, rfl⟩ := List.mem_map.1 member
        exact hpairs pair inside
    · exact .error
  exact letIn f parsed

/-- Where the items after a keyword have a property that items inherit from their list, so have the
expressions of the form, except the function that a `define` list stands for. -/
theorem exprs_of_parse {k : Keyword}
    (inherit : ∀ {items tag origin}, P (.list items tag origin) → ∀ v ∈ items, P v)
    (h : ∀ e ∈ args, P e) (parsed : parse k origin args = .ok f) :
    ∀ e ∈ f.exprs, P e ∨ k = .define ∧ IsImplicit origin args e := by
  intro e member
  unfold parse at parsed
  split at parsed
  case h_1 =>
    cases parsed
    cases member
  case h_5 | h_6 =>
    cases parsed
    exact .inl (h e (by simpa [exprs] using member))
  case h_3 =>
    obtain ⟨name, e', rfl, from_args⟩ := define_of_parse parsed
    obtain rfl := List.mem_singleton.1 member
    exact from_args.imp (h e) fun implicit => ⟨rfl, implicit⟩
  case h_4 =>
    obtain ⟨params, rfl⟩ := lambda_of_parse parsed
    exact .inl (h e (List.mem_of_mem_tail member))
  case h_8 =>
    cases parsed
    exact .inl (h e (List.mem_cons_of_mem _ member))
  case h_11 =>
    obtain ⟨-, -, -, inside⟩ := let_of_parse inherit h parsed
    exact .inl (inside e member)
  all_goals cases parsed

theorem eq_of_parse_quote {k : Keyword} {datum : Value}
    (parsed : parse k origin args = .ok (.quote datum)) : args = [datum] := by
  unfold parse at parsed
  split at parsed
  case h_1 =>
    cases parsed
    rfl
  case h_3 =>
    obtain ⟨_, _, other, -⟩ := define_of_parse parsed
    cases other
  case h_4 =>
    obtain ⟨_, other⟩ := lambda_of_parse parsed
    cases other
  case h_11 =>
    have anything : ∀ e ∈ args, True := fun _ _ => trivial
    obtain ⟨_, _, other, -⟩ := let_of_parse (fun _ _ _ => trivial) anything parsed
    cases other
  all_goals cases parsed

end Parsing

end Form

/-- Frames, expressions and values. Where nothing else is said, a value is one whose closures belong
to the domain. -/
structure Domain where
  frame : FrameId → Prop
  expr : Value → Prop
  value : Value → Prop := Value.Inside frame expr
  atoms : ∀ {v}, v.isAtom = true → value v := by exact .atom
  cells : ∀ {items}, (∀ v ∈ items, value v) → value (.list items .cons none) := by exact .list
  items : ∀ {items tag origin}, value (.list items tag origin) → ∀ v ∈ items, value v := by
    exact Value.Inside.items
  made : ∀ {id params body env}, frame env → (∀ e ∈ body, expr e) →
    value (.closure id params body env) := by exact .closure
  body : ∀ {id params body env}, value (.closure id params body env) →
    frame env ∧ ∀ e ∈ body, expr e := by exact Value.Inside.body
  expr_self : ∀ {e}, expr e → (∀ name, e ≠ .symbol name) →
    (∀ items origin, e ≠ .list items .code origin) → value e
  expr_items : ∀ {items origin}, expr (.list items .code origin) →
    Keyword.ofItems? items = none → ∀ e ∈ items, expr e
  expr_form : ∀ {items origin k f}, expr (.list items .code origin) →
    Keyword.ofItems? items = some k → Form.parse k origin items.tail = .ok f → ∀ e ∈ f.exprs, expr e
  expr_quoted : ∀ {items origin k datum}, expr (.list items .code origin) →
    Keyword.ofItems? items = some k → Form.parse k origin items.tail = .ok (.quote datum) →
      value datum.quoted

namespace Domain

variable {D : Domain}

/-- A binding to a value or an expression of the domain. -/
def bound (D : Domain) : Binding → Prop
  | .value v => D.value v
  | .deferred e => D.expr e

/-- A frame that leads only to frames, values and expressions of the domain. -/
structure Closed (D : Domain) (f : Frame) : Prop where
  parent : ∀ p, f.parent = some p → D.frame p
  bindings : ∀ entry ∈ f.bindings, D.bound entry.2

/-- The frames of the domain lead to nothing outside it, all others are as in `s₀`, and every frame
still to be made belongs to the domain. -/
structure Kept (D : Domain) (s₀ s : Store) : Prop where
  closed : ∀ {id f}, D.frame id → s.get? id = some f → D.Closed f
  others : ∀ {id}, ¬ D.frame id → s.get? id = s₀.get? id
  fresh : ∀ {id}, s.size ≤ id → D.frame id
  grown : s₀.size ≤ s.size

/-- The frames are kept, and what was shown since `m₀` is of the domain. -/
def Inv (D : Domain) (m₀ m : Memory) : Prop :=
  D.Kept m₀.store m.store ∧
    ∃ shown, m.output.toList = m₀.output.toList ++ shown ∧ ∀ v ∈ shown, D.value v

/-! ## Values and frames -/

theorem value_atom {v : Value} (h : v.isAtom = true) : D.value v := D.atoms h

theorem value_cons {head tail : Value} (h : D.value head) (h' : D.value tail) :
    D.value (.cons head tail) := by
  refine D.cells fun v member => ?_
  rcases List.mem_cons.1 member with rfl | last
  · exact h
  · rw [List.mem_singleton.1 last]
    exact h'

theorem value_chain {args : List Value} (h : ∀ v ∈ args, D.value v) : D.value (.chain args) := by
  induction args with
  | nil => exact D.cells (by simp)
  | cons v vs ih =>
    obtain ⟨first, rest⟩ := List.forall_mem_cons.1 h
    cases vs with
    | nil => exact D.cells h
    | cons w ws =>
      rw [Value.chain_cons_cons]
      exact value_cons first (ih rest)

theorem mem_setIn {name : String} {b : Binding} {l : List (String × Binding)}
    {entry : String × Binding} (h : entry ∈ Frame.setIn name b l) :
    entry = (name, b) ∨ entry ∈ l := by
  induction l with
  | nil => exact .inl (List.mem_singleton.1 h)
  | cons first rest ih =>
    obtain ⟨n, old⟩ := first
    unfold Frame.setIn at h
    split at h
    · rcases List.mem_cons.1 h with rfl | later
      · exact .inl rfl
      · exact .inr (List.mem_cons_of_mem _ later)
    · rcases List.mem_cons.1 h with rfl | later
      · exact .inr List.mem_cons_self
      · exact (ih later).imp_right (List.mem_cons_of_mem _)

theorem Closed.set {f : Frame} {b : Binding} (h : D.Closed f) (name : String) (hb : D.bound b) :
    D.Closed (f.set name b) where
  parent := h.parent
  bindings := by
    intro entry member
    rcases mem_setIn member with rfl | old
    · exact hb
    · exact h.bindings entry old

theorem Closed.setNew {f : Frame} {b : Binding} (h : D.Closed f) (name : String) (hb : D.bound b) :
    D.Closed (f.setNew name b) := by
  unfold Frame.setNew
  split
  · exact h
  · exact h.set name hb

theorem closed_empty {env : FrameId} (frame : D.frame env) : D.Closed { parent := some env } where
  parent := by
    intro p same
    obtain rfl := Option.some.inj same
    exact frame
  bindings := by simp

theorem closed_callFrame {env : FrameId} (frame : D.frame env) (params : List String)
    {args : List Value} (h : ∀ v ∈ args, D.value v) :
    D.Closed (Eval.callFrame env params args) := by
  refine List.foldlRecOn _ _ (closed_empty frame) fun f closed entry member => ?_
  exact closed.set entry.1 (h entry.2 (List.of_mem_zip member).2)

theorem closed_letFrame {env : FrameId} (frame : D.frame env) {bindings : List (String × Value)}
    (h : ∀ e ∈ bindings.map Prod.snd, D.expr e) : D.Closed (Eval.letFrame env bindings) := by
  refine List.foldlRecOn _ _ (closed_empty frame) fun f closed entry member => ?_
  exact closed.setNew entry.1 (h entry.2 (List.mem_map_of_mem member))

/-! ## The store -/

namespace Kept

variable {s₀ s : Store} {env owner : FrameId} {name : String} {b : Binding}

theorem push (h : D.Kept s₀ s) {f : Frame} (closed : D.Closed f) : D.Kept s₀ (s.push f) where
  closed := by
    intro id g inside found
    rw [Store.get?_push] at found
    split at found
    · obtain rfl := Option.some.inj found
      exact closed
    · exact h.closed inside found
  others := by
    intro id outside
    have old : id ≠ s.size := fun same => outside (h.fresh (Nat.le_of_eq same.symm))
    rw [Store.get?_push, if_neg old, h.others outside]
  fresh := by
    intro id le
    rw [Store.size_push] at le
    exact h.fresh (by omega)
  grown := by
    have grown := h.grown
    rw [Store.size_push]
    omega

theorem define (h : D.Kept s₀ s) (frame : D.frame env) (name : String) (hb : D.bound b) :
    D.Kept s₀ (s.define env name b) where
  closed := by
    intro id f inside found
    rw [Store.define, Store.get?_modify] at found
    split at found
    · obtain ⟨g, before, rfl⟩ := Option.map_eq_some_iff.1 found
      exact (h.closed inside before).set name hb
    · exact h.closed inside found
  others := by
    intro id outside
    have other : env ≠ id := fun same => outside (same ▸ frame)
    rw [Store.define, Store.get?_modify, if_neg other, h.others outside]
  fresh := by
    intro id le
    rw [Store.define, Store.size_modify] at le
    exact h.fresh le
  grown := by
    rw [Store.define, Store.size_modify]
    exact h.grown

/-- The walk outward does not leave the domain. -/
theorem walk (h : D.Kept s₀ s) (frame : D.frame env) (found : s.owner? env name = some owner) :
    D.frame owner := by
  obtain ⟨path, walk⟩ := Store.owner?_eq_some_iff.1 found
  induction walk with
  | here _ _ => exact frame
  | outward present _ parent walk ih =>
    exact ih ((h.closed frame present).parent _ parent) (Store.owner?_eq_some_iff.2 ⟨_, walk⟩)

theorem binding (h : D.Kept s₀ s) (frame : D.frame env) (found : s.binding? env name = some b) :
    D.bound b := by
  obtain ⟨f, present, bound⟩ := Option.bind_eq_some_iff.1 found
  obtain ⟨before, after, split, -⟩ := List.lookup_eq_some_iff.1 bound
  exact (h.closed frame present).bindings (name, b) (by rw [split]; simp)

theorem lookup (h : D.Kept s₀ s) (frame : D.frame env)
    (found : s.lookup? env name = some (b, owner)) : D.bound b ∧ D.frame owner := by
  obtain ⟨walked, held⟩ := Store.lookup?_eq_some_iff.1 found
  have inside := h.walk frame walked
  exact ⟨h.binding inside held, inside⟩

end Kept

/-! ## Operations on memory -/

section Operations

open EvalM

variable {α : Type} {A : α → Prop} {m₀ : Memory} {env : FrameId} {v : Value} {b : Binding}

theorem keeps_raise (f : Fault) : Keeps (D.Inv m₀) A (raise f : EvalM α) := .throw _

theorem keeps_define (frame : D.frame env) (name : String) (hb : D.bound b) :
    Keeps (D.Inv m₀) (fun _ => True) (define env name b) :=
  .modify fun _ inv => ⟨inv.1.define frame name hb, inv.2⟩

theorem keeps_lookup (frame : D.frame env) (name : String) :
    Keeps (D.Inv m₀) (fun found => D.bound found.1 ∧ D.frame found.2) (lookup env name) := by
  refine .get_bind fun m inv => ?_
  cases found : m.store.lookup? env name with
  | none => exact inv
  | some pair => exact ⟨inv.1.lookup frame found, inv⟩

theorem keeps_assign (frame : D.frame env) (name : String) (hv : D.value v) :
    Keeps (D.Inv m₀) (fun _ => True) (assign env name v) := by
  refine .get_bind fun m inv => ?_
  cases found : m.store.owner? env name with
  | none => exact inv
  | some owner =>
    have inside := inv.1.walk frame found
    exact ⟨trivial, inv.1.define inside name hv, inv.2⟩

theorem keeps_force (frame : D.frame env) (name : String) (hv : D.value v) :
    Keeps (D.Inv m₀) D.value (force env name v) := by
  refine .get_bind fun m inv => ?_
  cases found : m.store.binding? env name with
  | none => exact ⟨hv, inv⟩
  | some held =>
    cases held with
    | value current => exact ⟨inv.1.binding frame found, inv⟩
    | deferred e => exact ⟨hv, inv.1.define frame name hv, inv.2⟩

theorem keeps_newFrame {f : Frame} (closed : D.Closed f) :
    Keeps (D.Inv m₀) D.frame (newFrame f) := by
  refine .get_bind fun m inv => ?_
  exact ⟨inv.1.fresh (Nat.le_refl _), inv.1.push closed, inv.2⟩

theorem keeps_newClosure (params : List String) {body : List Value} (hbody : ∀ e ∈ body, D.expr e)
    (frame : D.frame env) : Keeps (D.Inv m₀) D.value (newClosure params body env) :=
  fun _ inv => ⟨D.made frame hbody, inv.1, inv.2⟩

theorem keeps_emit (hv : D.value v) : Keeps (D.Inv m₀) (fun _ => True) (emit v) := by
  refine .modify fun m inv => ⟨inv.1, ?_⟩
  obtain ⟨shown, split, inside⟩ := inv.2
  refine ⟨shown ++ [v], by simp [Memory.emit, split], fun w member => ?_⟩
  rcases List.mem_append.1 member with old | new
  · exact inside w old
  · rw [List.mem_singleton.1 new]
    exact hv

theorem keeps_emitAll {vs : List Value} (h : ∀ v ∈ vs, D.value v) :
    Keeps (D.Inv m₀) (fun _ => True) (vs.forM emit) := by
  induction vs with
  | nil => exact .pure trivial
  | cons v vs ih =>
    obtain ⟨first, rest⟩ := List.forall_mem_cons.1 h
    exact (keeps_emit first).bind fun _ _ => ih rest

/-- One more evaluation inside those under way: only their count changes. -/
theorem keeps_nested {x : EvalM α} (limit : Nat) (h : Keeps (D.Inv m₀) A x) :
    Keeps (D.Inv m₀) A (nested limit x) := by
  intro m inv
  unfold nested
  split
  · exact inv
  · have inner := h { m with depth := m.depth + 1 } inv
    cases ended : x { m with depth := m.depth + 1 } with
    | ok a m' => rw [ended] at inner; exact inner
    | error d m' => rw [ended] at inner; exact inner

end Operations

/-! ## Builtins -/

theorem yields_number (x : Except Fault Number) : Yields D.value (do return (← x).toValue) :=
  .after x fun n => .ok (by cases n <;> exact value_atom rfl)

theorem yields_pickFrom {v : Value} (name : String) {pick : List Value → Option Value}
    (picks : ∀ {items w}, pick items = some w → w ∈ items) (h : D.value v) :
    Yields D.value (Builtin.pickFrom name pick v) := by
  have items : Yields (fun items => ∀ w ∈ items, D.value w) (Builtin.itemsOf name v) := by
    intro items same
    cases v with
    | list inside tag origin =>
      obtain rfl := Except.ok.inj same
      exact D.items h
    | _ => cases same
  refine items.bind fun items inside => ?_
  cases found : pick items with
  | none => intro w same; cases same
  | some w => exact .ok (inside w (picks found))

/-- What a builtin gives is an atom, or made of its arguments. -/
theorem yields_result (b : Builtin) {args : List Value} (h : ∀ v ∈ args, D.value v) :
    Yields D.value (b.result args) := by
  unfold Builtin.result
  split
  case h_1 =>
    refine .ok ?_
    cases last : args.getLast? with
    | none => exact value_atom rfl
    | some v => exact h v (List.mem_of_getLast? last)
  case h_2 => exact .ok (value_cons (h _ (by simp)) (h _ (by simp)))
  case h_3 => exact yields_pickFrom "car" List.mem_of_head? (h _ (by simp))
  case h_4 => exact yields_pickFrom "cdr" List.mem_of_getLast? (h _ (by simp))
  case h_5 => exact .ok (value_chain h)
  case h_6 => exact yields_number _
  -- the other numerical ones, then the comparisons, then those that say yes, no or nothing
  case h_7 | h_8 | h_9 | h_10 | h_11 => exact .after _ fun _ => yields_number _
  case h_13 | h_14 => exact .after _ fun _ => .ok (value_atom rfl)
  case h_12 | h_15 | h_16 => exact .ok (value_atom rfl)
  case h_17 => intro v same; cases same

theorem shows_value (b : Builtin) {args : List Value} (h : ∀ v ∈ args, D.value v) :
    ∀ v ∈ b.shows args, D.value v := by
  cases b with
  | display => exact h
  | _ => simp [Builtin.shows]

theorem keeps_callBuiltin {m₀ : Memory} (b : Builtin) {args : List Value}
    (h : ∀ v ∈ args, D.value v) : Keeps (D.Inv m₀) D.value (EvalM.callBuiltin b args) := by
  have result : Keeps (D.Inv m₀) D.value (EvalM.ofExcept (b.result args)) := by
    cases given : b.result args with
    | error f => exact keeps_raise f
    | ok v => exact .pure (yields_result b h v given)
  refine result.bind fun v hv => ?_
  exact (keeps_emitAll (shows_value b h)).bind fun _ _ => .pure hv

/-! ## The evaluator -/

section Evaluation

variable {m₀ : Memory} {ev : Evaluator} {env : FrameId}

/-- Evaluations of the domain's expressions in the domain's frames stay inside it. -/
def Respects (D : Domain) (m₀ : Memory) (ev : Evaluator) : Prop :=
  ∀ ⦃e : Value⦄ ⦃env : FrameId⦄, D.expr e → D.frame env → Keeps (D.Inv m₀) D.value (ev e env)

theorem keeps_body (h : D.Respects m₀ ev) (frame : D.frame env) {exprs : List Value}
    (hexprs : ∀ e ∈ exprs, D.expr e) : Keeps (D.Inv m₀) D.value (Eval.body ev env exprs) := by
  cases exprs with
  | nil => exact keeps_raise _
  | cons e exprs =>
    exact .foldlM (value_atom rfl) fun _ _ e member => h (hexprs e member) frame

theorem keeps_resolve (h : D.Respects m₀ ev) (frame : D.frame env) (name : String) :
    Keeps (D.Inv m₀) D.value (Eval.resolve ev env name) := by
  refine (keeps_lookup frame name).bind fun found inside => ?_
  obtain ⟨b, owner⟩ := found
  obtain ⟨bound, oframe⟩ := inside
  cases b with
  | value v => exact .pure bound
  | deferred e => exact (h bound oframe).bind fun v hv => keeps_force oframe name hv

theorem keeps_apply (h : D.Respects m₀ ev) {f : Value} (hf : D.value f) {args : List Value}
    (hargs : ∀ v ∈ args, D.value v) : Keeps (D.Inv m₀) D.value (Eval.apply ev f args) := by
  cases f with
  | builtin b => exact keeps_callBuiltin b hargs
  | closure id params exprs env =>
    obtain ⟨frame, hbody⟩ := D.body hf
    simp only [Eval.apply]
    split
    · exact (keeps_newFrame (closed_callFrame frame params hargs)).bind fun _ new =>
        keeps_body h new hbody
    · exact keeps_raise _
  | _ => exact keeps_raise _

/-- A form whose expressions, and whose datum if it quotes one, are of the domain. -/
theorem keeps_form (h : D.Respects m₀ ev) (frame : D.frame env) {f : Form}
    (hexprs : ∀ e ∈ f.exprs, D.expr e)
    (hquoted : ∀ datum, f = .quote datum → D.value datum.quoted) :
    Keeps (D.Inv m₀) D.value (Eval.form ev env f) := by
  cases f with
  | quote datum => exact .pure (hquoted datum rfl)
  | define name e =>
    have deferred : D.bound (.deferred e) := hexprs e (by simp [Form.exprs])
    exact (keeps_define frame name deferred).bind fun _ _ => .pure (value_atom rfl)
  | lambda params body => exact keeps_newClosure params hexprs frame
  | ifThen test consequent alternative =>
    obtain ⟨htest, hthen, helse⟩ :
        D.expr test ∧ D.expr consequent ∧ ∀ e ∈ alternative.toList, D.expr e := by
      simpa [Form.exprs] using hexprs
    refine (h htest frame).bind fun v _ => ?_
    split
    · exact h hthen frame
    · cases alternative with
      | none => exact .pure (value_atom rfl)
      | some e => exact h (helse e (by simp)) frame
  | assign name e =>
    have he : D.expr e := hexprs e (by simp [Form.exprs])
    refine (h he frame).bind fun v hv => ?_
    exact (keeps_assign frame name hv).bind fun _ _ => .pure (value_atom rfl)
  | letIn bindings body =>
    obtain ⟨hbindings, hbody⟩ := List.forall_mem_append.1 hexprs
    exact (keeps_newFrame (closed_letFrame frame hbindings)).bind fun _ new =>
      keeps_body h new hbody

theorem keeps_application (h : D.Respects m₀ ev) (frame : D.frame env) {items : List Value}
    (hitems : ∀ e ∈ items, D.expr e) :
    Keeps (D.Inv m₀) D.value (Eval.application ev env items) := by
  refine (Keeps.mapM fun e member => h (hitems e member) frame).bind fun vs hvs => ?_
  cases vs with
  | nil => exact keeps_raise _
  | cons f args =>
    obtain ⟨hf, hargs⟩ := List.forall_mem_cons.1 hvs
    exact keeps_apply h hf hargs

theorem keeps_codeList (h : D.Respects m₀ ev) (frame : D.frame env) {items : List Value}
    {origin : Option NodeId} (he : D.expr (.list items .code origin)) :
    Keeps (D.Inv m₀) D.value (Eval.codeList ev env origin items) := by
  rw [Eval.codeList_eq]
  cases headed : Keyword.ofItems? items with
  | none => exact keeps_application h frame (D.expr_items he headed)
  | some k =>
    simp only
    cases parsed : Form.parse k origin items.tail with
    | error m => exact keeps_raise _
    | ok f =>
      refine keeps_form h frame (D.expr_form he headed parsed) fun datum quotes => ?_
      rw [quotes] at parsed
      exact D.expr_quoted he headed parsed

theorem keeps_step (h : D.Respects m₀ ev) (c : Context) : D.Respects m₀ (Eval.step c ev) := by
  intro e env he frame
  have self := D.expr_self he
  cases e with
  | symbol name => exact keeps_resolve h frame name
  | list items tag origin =>
    cases tag with
    | code => exact (keeps_codeList h frame he).adaptExcept _
    | _ => exact .pure (self (by simp) (by simp))
  | _ => exact .pure (self (by simp) (by simp))

/-- **Evaluation does not leave a domain.** -/
theorem keeps_eval (D : Domain) (m₀ : Memory) (c : Context) (bound : Nat) :
    D.Respects m₀ (eval c bound) := by
  induction bound with
  | zero => exact fun e env _ _ => keeps_raise _
  | succ bound ih => exact fun e env he frame => keeps_nested c.limit (keeps_step ih c he frame)

end Evaluation

end Domain

end LazyLisp
