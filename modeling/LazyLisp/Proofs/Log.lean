import LazyLisp.Proofs.DepthLimit
import LazyLisp.Proofs.FrameStore
import LazyLisp.Proofs.Relational

/-!
# The changes that an evaluation makes

What a name stands for in a frame changes in three ways: by a `define`, by a `set!`, and by a lookup
that has evaluated the name's expression and settles it. `evalLogged` is the same evaluator in
`LogM`, whose `Effects` are those of `EvalM` and log these changes one by one. The log is complete:
from what a name stood for at the start, the changes of that name lead to what it stands for at the
end.
-/

namespace LazyLisp

/-- A change of what a name stands for in a frame. -/
inductive Change where
  /-- A `define` binds the name to an expression. -/
  | define (e : Value)
  /-- A `set!` gives the name a value. -/
  | assign (v : Value)
  /-- A lookup has evaluated the name's expression `e` to `v`. -/
  | settle (e v : Value)

namespace Change

/-- The program asked for the change; it is not that of a lookup. -/
def isWrite : Change → Bool
  | .define _ | .assign _ => true
  | .settle .. => false

/-- What the name is bound to after the change. A value is not settled again. -/
def effect : Option Binding → Change → Option Binding
  | _, .define e => some (.deferred e)
  | _, .assign v => some (.value v)
  | some (.deferred _), .settle _ v => some (.value v)
  | b, .settle .. => b

end Change

/-- One entry of a log: a change, and the frame and the name that it concerns. -/
structure Entry where
  frame : FrameId
  name : String
  change : Change

/-- The changes of one name in one frame. -/
def changesOf (log : List Entry) (frame : FrameId) (name : String) : List Change :=
  (log.filter fun entry => entry.frame = frame ∧ entry.name = name).map Entry.change

theorem changesOf_append (old new : List Entry) (frame : FrameId) (name : String) :
    changesOf (old ++ new) frame name = changesOf old frame name ++ changesOf new frame name := by
  simp [changesOf]

theorem changesOf_singleton (entry : Entry) (frame : FrameId) (name : String) :
    changesOf [entry] frame name =
      if entry.frame = frame ∧ entry.name = name then [entry.change] else [] := by
  unfold changesOf
  split <;> simp_all

/-- A memory and the log of the changes made so far, oldest first. -/
structure Logged where
  memory : Memory
  log : List Entry := []

/-- Computations that log the changes they make. -/
abbrev LogM := EStateM Diagnostic Logged

namespace LogM

variable {α : Type}

/-- A computation on the memory, which makes the changes `new`. -/
def making (new : List Entry) (x : EvalM α) : LogM α := fun r =>
  match x r.memory with
  | .ok a memory => .ok a ⟨memory, r.log ++ new⟩
  | .error d memory => .error d ⟨memory, r.log ++ new⟩

/-- A computation that changes no binding. -/
abbrev quietly (x : EvalM α) : LogM α := making [] x

/-- `EvalM.define` of an expression. -/
def define (env : FrameId) (name : String) (e : Value) : LogM Unit :=
  making [⟨env, name, .define e⟩] (EvalM.define env name (.deferred e))

/-- `EvalM.assign`; the change is one of the frame that holds the binding. -/
def assign (env : FrameId) (name : String) (v : Value) : LogM Unit := do
  match (← get).memory.store.owner? env name with
  | some owner => making [⟨owner, name, .assign v⟩] (EvalM.define owner name (.value v))
  | none => quietly (EvalM.raise (.unbound name))

/-- `EvalM.force`, after the expression `e` gave `v`. -/
def settle (owner : FrameId) (name : String) (e v : Value) : LogM Value :=
  making [⟨owner, name, .settle e v⟩] (EvalM.force owner name v)

/-- `EvalM.nested` -/
def nested (limit : Nat) (act : LogM α) : LogM α := fun r =>
  if limit ≤ r.memory.depth then quietly (EvalM.raise (.depth limit)) r
  else
    match act { r with memory := { r.memory with depth := r.memory.depth + 1 } } with
    | .ok a r => .ok a { r with memory := { r.memory with depth := r.memory.depth - 1 } }
    | .error d r => .error d { r with memory := { r.memory with depth := r.memory.depth - 1 } }

end LogM

/-- Only what changes a binding is logged. -/
instance : Effects LogM where
  raise f := LogM.quietly (EvalM.raise f)
  reporting := EStateM.adaptExcept
  nested := LogM.nested
  lookup env name := LogM.quietly (EvalM.lookup env name)
  settle := LogM.settle
  define := LogM.define
  assign := LogM.assign
  newFrame f := LogM.quietly (EvalM.newFrame f)
  newClosure params body env := LogM.quietly (EvalM.newClosure params body env)
  callBuiltin b args := LogM.quietly (EvalM.callBuiltin b args)

/-- Evaluates an expression in a frame and logs the changes. -/
abbrev Logger := EvaluatorIn LogM

/-- `eval`, logging the changes. -/
def evalLogged (c : Context) (bound : Nat) : Logger := evalIn c bound

/-! ## Complete logs -/

namespace Store

variable {s s' : Store} {f : Frame} {id env : FrameId} {name other : String} {b : Binding}

theorem binding?_push (h : id < s.size) : (s.push f).binding? id name = s.binding? id name := by
  rw [binding?, binding?, get?_push_old s f h]

theorem binding?_define (h : id < s.size) :
    (s.define env name b).binding? id other =
      if env = id ∧ name = other then some b else s.binding? id other := by
  obtain ⟨f, found⟩ := exists_get? h
  rw [binding?, binding?, define, get?_modify, found]
  by_cases frame : env = id
  · by_cases same : name = other
    · simp [frame, same]
    · simp [frame, same, Ne.symm same]
  · simp [frame]

/-- The frames of `s` are still there, and what their names stand for comes from what they stood for
by the changes logged. Nothing is said of younger frames. -/
structure Replays (s : Store) (log : List Entry) (s' : Store) : Prop where
  grown : s.size ≤ s'.size
  replay : ∀ {id}, id < s.size → ∀ name,
    s'.binding? id name = (changesOf log id name).foldl Change.effect (s.binding? id name)

namespace Replays

theorem refl (s : Store) : s.Replays [] s where
  grown := Nat.le_refl _
  replay _ _ := rfl

theorem trans {s'' : Store} {old new : List Entry} (h : s.Replays old s')
    (h' : s'.Replays new s'') : s.Replays (old ++ new) s'' where
  grown := Nat.le_trans h.grown h'.grown
  replay := by
    intro id present name
    rw [h'.replay (Nat.lt_of_lt_of_le present h.grown), h.replay present, changesOf_append,
      List.foldl_append]

theorem push (s : Store) (f : Frame) : s.Replays [] (s.push f) where
  grown := by
    rw [size_push]
    omega
  replay present name := binding?_push present

/-- A binding is made, by a change that leads to it. -/
theorem define (s : Store) {env : FrameId} {name : String} {change : Change} {b : Binding}
    (makes : Change.effect (s.binding? env name) change = some b) :
    s.Replays [⟨env, name, change⟩] (s.define env name b) where
  grown := by
    rw [Store.define, size_modify]
  replay := by
    intro id present other
    rw [binding?_define present, changesOf_singleton]
    split
    · next same =>
      obtain ⟨rfl, rfl⟩ := same
      exact makes.symm
    · rfl

/-- A change that leads to what is there already. -/
theorem same (s : Store) {env : FrameId} {name : String} {change : Change}
    (keeps : Change.effect (s.binding? env name) change = s.binding? env name) :
    s.Replays [⟨env, name, change⟩] s where
  grown := Nat.le_refl _
  replay := by
    intro id present other
    rw [changesOf_singleton]
    split
    · next same =>
      obtain ⟨rfl, rfl⟩ := same
      exact keeps.symm
    · rfl

end Replays

end Store

/-- The computation makes the changes `new`, also where it fails. -/
def Makes {α : Type} (new : List Entry) (x : EvalM α) : Prop :=
  ∀ m : Memory, m.store.Replays new (finalMemory (x m)).store

namespace EvalM

theorem makes_raise {α : Type} (f : Fault) : Makes [] (raise f : EvalM α) := fun m => .refl m.store

theorem makes_lookup (env : FrameId) (name : String) : Makes [] (lookup env name) := by
  intro m
  rw [lookup, get_bind_apply]
  cases m.store.lookup? env name with
  | none => exact .refl m.store
  | some found => exact .refl m.store

theorem makes_newFrame (f : Frame) : Makes [] (newFrame f) := fun m => .push m.store f

theorem makes_newClosure (params : List String) (body : List Value) (env : FrameId) :
    Makes [] (newClosure params body env) := fun m => .refl m.store

theorem store_emitAll (vs : List Value) (m : Memory) :
    ∃ m', (vs.forM emit) m = .ok () m' ∧ m'.store = m.store := by
  induction vs generalizing m with
  | nil => exact ⟨m, rfl, rfl⟩
  | cons v vs ih => exact ih (m.emit v)

theorem makes_callBuiltin (b : Builtin) (args : List Value) : Makes [] (callBuiltin b args) := by
  intro m
  unfold callBuiltin
  cases b.result args with
  | error f => exact .refl m.store
  | ok v =>
    obtain ⟨m', shown, same⟩ := store_emitAll (b.shows args) m
    have ended : ((b.shows args).forM emit >>= fun _ => pure v) m = .ok v m' := bind_of_ok shown
    show m.store.Replays [] (finalMemory (((b.shows args).forM emit >>= fun _ => pure v) m)).store
    rw [ended]
    show m.store.Replays [] m'.store
    rw [same]
    exact .refl m.store

theorem makes_define {env : FrameId} {name : String} {b : Binding} {change : Change}
    (makes : ∀ old, Change.effect old change = some b) :
    Makes [⟨env, name, change⟩] (define env name b) := fun m => .define m.store (makes _)

theorem makes_force (owner : FrameId) (name : String) (e v : Value) :
    Makes [⟨owner, name, .settle e v⟩] (force owner name v) := by
  intro m
  rw [force, get_bind_apply]
  cases found : m.store.binding? owner name with
  | none => exact .same m.store (by rw [found]; rfl)
  | some b =>
    cases b with
    | value current => exact .same m.store (by rw [found]; rfl)
    | deferred e' => exact .define m.store (by rw [found]; rfl)

end EvalM

/-! ## The logging evaluator does the same -/

/-- The memory is that of the log, which leads there from `r₀`. -/
def Follows (r₀ r : Logged) (m : Memory) : Prop :=
  r.memory = m ∧ ∃ new, r.log = r₀.log ++ new ∧ r₀.memory.store.Replays new r.memory.store

/-- Logging changes neither results nor reports nor the memory, and the log is complete. -/
abbrev Logs {α : Type} (r₀ : Logged) (x : LogM α) (y : EvalM α) : Prop :=
  Runs (Follows r₀) Eq Eq x y

section

variable {α : Type} {r₀ : Logged}

theorem follows_refl (r : Logged) : Follows r r r.memory :=
  ⟨rfl, [], (List.append_nil _).symm, .refl _⟩

theorem logs_making {new : List Entry} {x : EvalM α} (h : Makes new x) :
    Logs r₀ (LogM.making new x) x := by
  rintro r m ⟨rfl, old, split, led⟩
  have step := h r.memory
  have whole : r.log ++ new = r₀.log ++ (old ++ new) := by rw [split, List.append_assoc]
  unfold LogM.making
  cases ended : x r.memory with
  | ok a m' =>
    rw [ended] at step
    exact .ok rfl ⟨rfl, old ++ new, whole, led.trans step⟩
  | error d m' =>
    rw [ended] at step
    exact .error rfl ⟨rfl, old ++ new, whole, led.trans step⟩

theorem logs_pure (a : α) : Logs r₀ (pure a) (pure a) := .pure rfl

theorem logs_raise (f : Fault) :
    Logs r₀ (LogM.quietly (EvalM.raise f)) (EvalM.raise f : EvalM α) :=
  logs_making (EvalM.makes_raise f)

theorem logs_define (env : FrameId) (name : String) (e : Value) :
    Logs r₀ (LogM.define env name e) (EvalM.define env name (.deferred e)) :=
  logs_making (EvalM.makes_define fun _ => rfl)

theorem logs_assign (env : FrameId) (name : String) (v : Value) :
    Logs r₀ (LogM.assign env name v) (EvalM.assign env name v) := by
  refine .get_bind fun r m follows => ?_
  obtain rfl := follows.1
  cases r.memory.store.owner? env name with
  | none => exact logs_raise _ r _ follows
  | some owner => exact logs_making (EvalM.makes_define fun _ => rfl) r _ follows

theorem logs_nested (limit : Nat) {x : LogM α} {y : EvalM α} (h : Logs r₀ x y) :
    Logs r₀ (LogM.nested limit x) (EvalM.nested limit y) := by
  intro r m follows
  obtain rfl := follows.1
  unfold LogM.nested EvalM.nested
  split
  · exact logs_raise _ r _ follows
  · obtain ⟨a, b, r', m', ended, ended', rfl, rfl, led⟩ |
        ⟨d, d', r', m', ended, ended', rfl, rfl, led⟩ :=
      (h { r with memory := { r.memory with depth := r.memory.depth + 1 } } _
        ⟨rfl, follows.2⟩).cases
    · rw [ended, ended']
      exact .ok rfl ⟨rfl, led⟩
    · rw [ended, ended']
      exact .error rfl ⟨rfl, led⟩

end

namespace Logger

variable {r₀ : Logged} {ev : Logger} {ev' : Evaluator}

/-- Every evaluation is logged. -/
def Faithful (r₀ : Logged) (ev : Logger) (ev' : Evaluator) : Prop :=
  ∀ e env, Logs r₀ (ev e env) (ev' e env)

theorem logs_body (h : Faithful r₀ ev ev') (env : FrameId) (exprs : List Value) :
    Logs r₀ (Eval.body ev env exprs) (Eval.body ev' env exprs) := by
  cases exprs with
  | nil => exact logs_raise _
  | cons e exprs =>
    have same : List.Forall₂ Eq (e :: exprs) (e :: exprs) := List.forall₂_refl _
    refine Runs.foldlM same rfl ?_
    rintro _ _ e _ - rfl
    exact h e env

theorem logs_resolve (h : Faithful r₀ ev ev') (env : FrameId) (name : String) :
    Logs r₀ (Eval.resolve ev env name) (Eval.resolve ev' env name) := by
  refine (logs_making (EvalM.makes_lookup env name)).bind ?_
  rintro ⟨b, owner⟩ _ rfl
  cases b with
  | value v => exact logs_pure v
  | deferred e =>
    refine (h e owner).bind ?_
    rintro v _ rfl
    exact logs_making (EvalM.makes_force owner name e v)

theorem logs_apply (h : Faithful r₀ ev ev') (f : Value) (args : List Value) :
    Logs r₀ (Eval.apply ev f args) (Eval.apply ev' f args) := by
  cases f with
  | builtin b => exact logs_making (EvalM.makes_callBuiltin b args)
  | closure id params exprs env =>
    simp only [Eval.apply]
    split
    · refine (logs_making (EvalM.makes_newFrame _)).bind ?_
      rintro new _ rfl
      exact logs_body h new exprs
    · exact logs_raise _
  | _ => exact logs_raise _

theorem logs_form (h : Faithful r₀ ev ev') (env : FrameId) (f : Form) :
    Logs r₀ (Eval.form ev env f) (Eval.form ev' env f) := by
  cases f with
  | quote datum => exact logs_pure datum.quoted
  | define name e => exact (logs_define env name e).bind fun _ _ _ => logs_pure _
  | lambda params body => exact logs_making (EvalM.makes_newClosure params body env)
  | ifThen test consequent alternative =>
    refine (h test env).bind ?_
    rintro v _ rfl
    split
    · exact h consequent env
    · cases alternative with
      | none => exact logs_pure _
      | some e => exact h e env
  | assign name e =>
    refine (h e env).bind ?_
    rintro v _ rfl
    exact (logs_assign env name v).bind fun _ _ _ => logs_pure _
  | letIn bindings body =>
    refine (logs_making (EvalM.makes_newFrame _)).bind ?_
    rintro new _ rfl
    exact logs_body h new body

theorem logs_application (h : Faithful r₀ ev ev') (env : FrameId) (items : List Value) :
    Logs r₀ (Eval.application ev env items) (Eval.application ev' env items) := by
  have each : Logs r₀ (items.mapM (ev · env)) (items.mapM (ev' · env)) := by
    have same : List.Forall₂ Eq items items := List.forall₂_refl _
    rw [Logs, ← List.forall₂_eq_eq_eq]
    refine Runs.mapM same ?_
    rintro e _ rfl
    exact h e env
  refine each.bind ?_
  rintro values _ rfl
  cases values with
  | nil => exact logs_raise _
  | cons f args => exact logs_apply h f args

theorem logs_codeList (h : Faithful r₀ ev ev') (env : FrameId) (origin : Option NodeId)
    (items : List Value) :
    Logs r₀ (Eval.codeList ev env origin items) (Eval.codeList ev' env origin items) := by
  rw [Eval.codeList_eq, Eval.codeList_eq]
  cases Keyword.ofItems? items with
  | none => exact logs_application h env items
  | some k =>
    simp only
    cases Form.parse k origin items.tail with
    | ok f => exact logs_form h env f
    | error m => exact logs_raise _

theorem logs_step (h : Faithful r₀ ev ev') (c : Context) :
    Faithful r₀ (Eval.step c ev) (Eval.step c ev') := by
  intro e env
  cases e with
  | symbol name => exact logs_resolve h env name
  | list items tag origin =>
    cases tag with
    | code =>
      exact (logs_codeList h env origin items).adaptExcept fun d d' same => congrArg _ same
    | _ => exact logs_pure _
  | _ => exact logs_pure _

end Logger

/-- **Logging an evaluation changes nothing, and the log is complete.** -/
theorem evalLogged_logs (c : Context) (r₀ : Logged) (bound : Nat) :
    Logger.Faithful r₀ (evalLogged c bound) (eval c bound) := by
  induction bound with
  | zero => exact fun e env => logs_raise _
  | succ bound ih => exact fun e env => logs_nested c.limit (Logger.logs_step ih c e env)

/-- An evaluation and its log end together, with the same result or the same report. -/
theorem evalLogged_cases (c : Context) (bound : Nat) (e : Value) (env : FrameId) (m : Memory) :
    (∃ v r, evalLogged c bound e env { memory := m } = .ok v r ∧
        eval c bound e env m = .ok v r.memory ∧ m.store.Replays r.log r.memory.store) ∨
      ∃ d r, evalLogged c bound e env { memory := m } = .error d r ∧
        eval c bound e env m = .error d r.memory ∧ m.store.Replays r.log r.memory.store := by
  have ended := evalLogged_logs c { memory := m } bound e env _ m (follows_refl _)
  obtain ⟨v, _, r, _, logged, plain, rfl, rfl, new, whole, led⟩ |
    ⟨d, _, r, _, logged, plain, rfl, rfl, new, whole, led⟩ := ended.cases
  · obtain rfl : r.log = new := whole
    exact .inl ⟨v, r, logged, plain, led⟩
  · obtain rfl : r.log = new := whole
    exact .inr ⟨d, r, logged, plain, led⟩

end LazyLisp
