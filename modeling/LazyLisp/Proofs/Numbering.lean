import LazyLisp.Proofs.CodeAndData
import LazyLisp.Proofs.FrameStore
import LazyLisp.Proofs.Reset

/-!
# Numbers in use

Frames and closures are numbered in the order in which they are made. A memory is `Numbered` if
nothing in it refers to a frame or a closure that has not been made yet. Evaluation keeps it so,
also where it fails; hence the numbers that are given out next are new.

That a memory knows a value is said by means of a renaming: the value is like itself where only the
frames and closures made so far are related, each to itself. What the simulations say of values,
frames and special forms then holds of known ones.
-/

namespace LazyLisp

/-! ## Wider renamings -/

/-- What the first renaming relates, the second relates. -/
structure Renaming.Le (r r' : Renaming) : Prop where
  origin : ∀ {o o'}, r.origin o o' → r'.origin o o'
  frame : ∀ {i i'}, r.frame i i' → r'.frame i i'
  closure : ∀ {i i'}, r.closure i i' → r'.closure i i'

section

variable {r r' : Renaming} {report report' : Diagnostic → Diagnostic → Prop}
  {refl : ∀ d, report d d} {refl' : ∀ d, report' d d} {before before' : List Value}

theorem Value.Like.mono (le : r.Le r') {v v' : Value} (h : v.Like r v') : v.Like r' v' := by
  induction v generalizing v' with
  | list items tag origin ih =>
    cases h with
    | list related same =>
      exact .list (forall₂_imp_of_mem (fun v member _ => ih v member) related) (le.origin same)
  | closure id params body env ih =>
    cases h with
    | closure ids related frames =>
      exact .closure (le.closure ids) (forall₂_imp_of_mem (fun v member _ => ih v member) related)
        (le.frame frames)
  | _ =>
    cases h
    constructor

theorem Simulation.Bound.mono (le : r.Le r') {b b' : Binding}
    (h : (r.simulation report refl before).Bound b b') :
    (r'.simulation report' refl' before').Bound b b' := by
  cases h with
  | value alike => exact .value (Value.Like.mono le alike)
  | deferred alike => exact .deferred (Value.Like.mono le alike)

theorem Simulation.Frames.mono (le : r.Le r') {f f' : Frame}
    (h : (r.simulation report refl before).Frames f f') :
    (r'.simulation report' refl' before').Frames f f' where
  parent := by
    obtain ⟨e, e'⟩ | ⟨p, p', e, e', related⟩ := optionRel_cases h.parent
    · rw [e, e']
      exact .none
    · rw [e, e']
      exact .some (le.frame related)
  bindings := h.bindings.imp fun _ _ entries => ⟨entries.1, fun seen => (entries.2 seen).mono le⟩

end

/-! ## What a memory knows -/

/-- Frames and closures below these numbers stand for themselves; there are no others. -/
def Renaming.below (frames closures : Nat) : Renaming where
  origin _ _ := True
  frame i i' := i = i' ∧ i < frames
  closure i i' := i = i' ∧ i < closures
  origin_none := trivial
  frame_iff := by
    rintro a _ b _ ⟨rfl, -⟩ ⟨rfl, -⟩
    exact Iff.rfl
  closure_iff := by
    rintro a _ b _ ⟨rfl, -⟩ ⟨rfl, -⟩
    exact Iff.rfl

namespace Memory

/-- The frames and closures made so far, each beside itself. -/
def self (m : Memory) : Simulation :=
  (Renaming.below m.store.size m.closures).simulation Eq (fun _ => rfl) []

/-- The value refers to no frame and no closure but those made so far. -/
def Knows (m : Memory) (v : Value) : Prop := v.Like (.below m.store.size m.closures) v

/-- Frames and values shown refer to no frame and no closure but those made so far. -/
structure Numbered (m : Memory) : Prop where
  frames : ∀ {id f}, m.store.get? id = some f → m.self.Frames f f
  output : ∀ v ∈ m.output.toList, m.Knows v

/-- What was made in the first memory was made in the second. -/
structure Before (m m' : Memory) : Prop where
  frames : m.store.size ≤ m'.store.size
  closures : m.closures ≤ m'.closures

variable {m m' : Memory} {v : Value}

theorem knows_atom (atom : v.isAtom = true) : m.Knows v := m.self.value_atom atom

theorem knowsAll_iff {vs : List Value} :
    List.Forall₂ m.self.value vs vs ↔ ∀ v ∈ vs, m.Knows v := List.forall₂_same

theorem knows_list_iff {items : List Value} {tag : ListTag} {origin : Option NodeId} :
    m.Knows (.list items tag origin) ↔ ∀ v ∈ items, m.Knows v := by
  constructor
  · intro h
    exact knowsAll_iff.1 (m.self.value_items h)
  · intro h
    exact .list (knowsAll_iff.2 h) trivial

theorem knows_closure_iff {id : Nat} {params : List String} {body : List Value} {env : FrameId} :
    m.Knows (.closure id params body env) ↔
      id < m.closures ∧ env < m.store.size ∧ ∀ e ∈ body, m.Knows e := by
  constructor
  · intro h
    cases h with
    | closure ids related frames => exact ⟨ids.2, frames.2, knowsAll_iff.1 related⟩
  · rintro ⟨made, frame, h⟩
    exact .closure ⟨rfl, made⟩ (knowsAll_iff.2 h) ⟨rfl, frame⟩

theorem Before.refl (m : Memory) : m.Before m := ⟨Nat.le_refl _, Nat.le_refl _⟩

theorem Before.trans {m'' : Memory} (h : m.Before m') (h' : m'.Before m'') : m.Before m'' :=
  ⟨Nat.le_trans h.frames h'.frames, Nat.le_trans h.closures h'.closures⟩

theorem Before.le (h : m.Before m') :
    (Renaming.below m.store.size m.closures).Le (.below m'.store.size m'.closures) where
  origin := id
  frame := fun ⟨same, made⟩ => ⟨same, Nat.lt_of_lt_of_le made h.frames⟩
  closure := fun ⟨same, made⟩ => ⟨same, Nat.lt_of_lt_of_le made h.closures⟩

theorem Knows.mono (hv : m.Knows v) (h : m.Before m') : m'.Knows v := Value.Like.mono h.le hv

/-! ## Changes -/

theorem before_push (m : Memory) (f : Frame) :
    m.Before { m with store := m.store.push f } :=
  ⟨by simp, Nat.le_refl _⟩

theorem before_define (m : Memory) (env : FrameId) (name : String) (b : Binding) :
    m.Before { m with store := m.store.define env name b } :=
  ⟨by simp [Store.define], Nat.le_refl _⟩

namespace Numbered

variable (h : m.Numbered)

include h

theorem push {f : Frame} (hf : m.self.Frames f f) :
    Numbered { m with store := m.store.push f } where
  frames := by
    intro id g found
    have le := (m.before_push f).le
    rw [Store.get?_push] at found
    split at found
    · obtain rfl := Option.some.inj found
      exact hf.mono le
    · exact (h.frames found).mono le
  output := fun v member => (h.output v member).mono (m.before_push f)

theorem define {b : Binding} (env : FrameId) (name : String) (hb : m.self.Bound b b) :
    Numbered { m with store := m.store.define env name b } where
  frames := by
    intro id f found
    have le := (m.before_define env name b).le
    rw [Store.define, Store.get?_modify] at found
    split at found
    · obtain ⟨g, before, rfl⟩ := Option.map_eq_some_iff.1 found
      exact ((h.frames before).set fun _ => hb).mono le
    · exact (h.frames found).mono le
  output := fun v member => (h.output v member).mono (m.before_define env name b)

theorem binding {env : FrameId} {name : String} {b : Binding}
    (found : m.store.binding? env name = some b) : m.self.Bound b b := by
  obtain ⟨f, present, bound⟩ := Option.bind_eq_some_iff.1 found
  have seen : ¬ m.self.hidden name := id
  have self := (h.frames present).get? seen
  rw [bound] at self
  cases self with
  | some related => exact related

theorem withDepth (depth : Nat) : Numbered { m with depth } := ⟨h.frames, h.output⟩

theorem emit (hv : m.Knows v) : (m.emit v).Numbered where
  frames := h.frames
  output := by
    intro w member
    have cases : w ∈ m.output.toList ∨ w = v := by simpa [Memory.emit] using member
    rcases cases with shown | rfl
    · exact h.output w shown
    · exact hv

end Numbered

/-! ## Computations -/

/-- What a computation leaves that began in `m`: a numbered memory after it, and a result, if any,
with the property `A`. -/
def Leaves {α : Type} (m : Memory) (A : Memory → α → Prop) :
    EStateM.Result Diagnostic Memory α → Prop
  | .ok a m' => m'.Numbered ∧ m.Before m' ∧ A m' a
  | .error _ m' => m'.Numbered ∧ m.Before m'

theorem Leaves.from {α : Type} {A : Memory → α → Prop} {r : EStateM.Result Diagnostic Memory α}
    (h : m.Before m') (left : m'.Leaves A r) : m.Leaves A r := by
  cases r with
  | ok a m'' => exact ⟨left.1, h.trans left.2.1, left.2.2⟩
  | error d m'' => exact ⟨left.1, h.trans left.2⟩

namespace Leaves

variable {α β : Type} {A : Memory → α → Prop} {B : Memory → β → Prop}

theorem bind {x : EvalM α} {f : α → EvalM β} (h : m.Leaves A (x m))
    (hf : ∀ a m', m'.Numbered → m.Before m' → A m' a → m'.Leaves B (f a m')) :
    m.Leaves B ((x >>= f) m) := by
  cases ended : x m with
  | ok a m' =>
    rw [ended] at h
    rw [bind_of_ok ended]
    exact .from h.2.1 (hf a m' h.1 h.2.1 h.2.2)
  | error d m' =>
    rw [ended] at h
    rw [bind_of_error ended]
    exact h

theorem adaptExcept {x : EvalM α} (h : m.Leaves A (x m)) (f : Diagnostic → Diagnostic) :
    m.Leaves A (x.adaptExcept f m) := by
  unfold EStateM.adaptExcept
  cases ended : x m with
  | ok a m' => rw [ended] at h; exact h
  | error d m' => rw [ended] at h; exact h

end Leaves

section Operations

open EvalM

variable {α : Type} {A : Memory → α → Prop} {env : FrameId} {name : String}

theorem leaves_pure (h : m.Numbered) {a : α} (ha : A m a) : m.Leaves A ((pure a : EvalM α) m) :=
  ⟨h, .refl m, ha⟩

theorem leaves_raise (h : m.Numbered) (f : Fault) : m.Leaves A ((raise f : EvalM α) m) :=
  ⟨h, .refl m⟩

theorem leaves_define (h : m.Numbered) {b : Binding} (env : FrameId) (name : String)
    (hb : m.self.Bound b b) : m.Leaves (fun _ _ => True) (EvalM.define env name b m) :=
  ⟨h.define env name hb, m.before_define env name b, trivial⟩

theorem leaves_lookup (h : m.Numbered) (env : FrameId) (name : String) :
    m.Leaves (fun m found => m.self.Bound found.1 found.1 ∧ found.2 < m.store.size)
      (EvalM.lookup env name m) := by
  rw [EvalM.lookup, get_bind_apply]
  cases found : m.store.lookup? env name with
  | none => exact leaves_raise h _
  | some pair =>
    obtain ⟨-, binding⟩ := Store.lookup?_eq_some_iff.1 found
    obtain ⟨f, present, -⟩ := Option.bind_eq_some_iff.1 binding
    exact leaves_pure h ⟨h.binding binding, Store.lt_size_of_get? present⟩

theorem leaves_assign (h : m.Numbered) (env : FrameId) (name : String) (hv : m.Knows v) :
    m.Leaves (fun _ _ => True) (EvalM.assign env name v m) := by
  rw [EvalM.assign, get_bind_apply]
  cases m.store.owner? env name with
  | none => exact leaves_raise h _
  | some owner => exact leaves_define h owner name (.value hv)

theorem leaves_force (h : m.Numbered) (owner : FrameId) (name : String) (hv : m.Knows v) :
    m.Leaves Knows (EvalM.force owner name v m) := by
  rw [EvalM.force, get_bind_apply]
  cases found : m.store.binding? owner name with
  | none => exact leaves_pure h hv
  | some b =>
    cases h.binding found with
    | value known => exact leaves_pure h known
    | deferred _ =>
      exact (leaves_define h owner name (.value hv)).bind fun _ _ numbered before _ =>
        leaves_pure numbered (hv.mono before)

theorem leaves_newFrame (h : m.Numbered) {f : Frame} (hf : m.self.Frames f f) :
    m.Leaves (fun m id => id < m.store.size) (EvalM.newFrame f m) := by
  have made : m.store.size < (m.store.push f).size := by simp
  exact ⟨h.push hf, m.before_push f, made⟩

theorem leaves_newClosure (h : m.Numbered) (params : List String) {body : List Value}
    (hbody : ∀ e ∈ body, m.Knows e) (frame : env < m.store.size) :
    m.Leaves Knows (EvalM.newClosure params body env m) := by
  have before : m.Before { m with closures := m.closures + 1 } :=
    ⟨Nat.le_refl _, Nat.le_succ _⟩
  have numbered : Numbered { m with closures := m.closures + 1 } :=
    ⟨fun found => (h.frames found).mono before.le, fun v member => (h.output v member).mono before⟩
  refine ⟨numbered, before, knows_closure_iff.2 ⟨Nat.lt_succ_self _, frame, fun e member => ?_⟩⟩
  exact (hbody e member).mono before

theorem leaves_emitAll {vs : List Value} (h : m.Numbered) (hvs : ∀ v ∈ vs, m.Knows v) :
    m.Leaves (fun _ _ => True) (vs.forM EvalM.emit m) := by
  induction vs generalizing m with
  | nil => exact leaves_pure h trivial
  | cons v vs ih =>
    obtain ⟨first, rest⟩ := List.forall_mem_cons.1 hvs
    have shown : m.Leaves (fun _ _ => True) (EvalM.emit v m) :=
      ⟨h.emit first, ⟨Nat.le_refl _, Nat.le_refl _⟩, trivial⟩
    exact shown.bind fun _ m' numbered before _ => ih numbered fun w member =>
      (rest w member).mono before

theorem leaves_callBuiltin (h : m.Numbered) (b : Builtin) {args : List Value}
    (hargs : ∀ v ∈ args, m.Knows v) : m.Leaves Knows (EvalM.callBuiltin b args m) := by
  have each : List.Forall₂ m.self.value args args := knowsAll_iff.2 hargs
  have result : m.Leaves Knows (EvalM.ofExcept (b.result args) m) := by
    obtain ⟨v, w, given, given', known⟩ | ⟨f, given, -⟩ :=
      (Simulation.result_related b each).cases
    · cases given.symm.trans given'
      rw [given]
      exact leaves_pure h known
    · rw [given]
      exact leaves_raise h f
  have shows : ∀ w ∈ b.shows args, m.Knows w :=
    knowsAll_iff.1 (Simulation.shows_related b each)
  refine result.bind fun v m₁ numbered before known => ?_
  have shown := leaves_emitAll numbered fun w member => (shows w member).mono before
  exact shown.bind fun _ m₂ numbered' before' _ => leaves_pure numbered' (known.mono before')

theorem leaves_nested {x : EvalM Value} (limit : Nat) (h : m.Numbered)
    (hx : Leaves { m with depth := m.depth + 1 } Knows (x { m with depth := m.depth + 1 })) :
    m.Leaves Knows (EvalM.nested limit x m) := by
  unfold EvalM.nested
  split
  · exact leaves_raise h _
  · cases ended : x { m with depth := m.depth + 1 } with
    | ok v m' =>
      rw [ended] at hx
      obtain ⟨⟨frames, output⟩, ⟨size, closures⟩, known⟩ := hx
      exact ⟨⟨frames, output⟩, ⟨size, closures⟩, known⟩
    | error d m' =>
      rw [ended] at hx
      obtain ⟨⟨frames, output⟩, size, closures⟩ := hx
      exact ⟨⟨frames, output⟩, size, closures⟩

end Operations

/-! ## The evaluator -/

/-- Evaluations of known expressions, in frames that exist, leave numbered memories and known
values. -/
def Respected (ev : Evaluator) : Prop :=
  ∀ ⦃m : Memory⦄ ⦃e : Value⦄ ⦃env : FrameId⦄, m.Numbered → env < m.store.size → m.Knows e →
    m.Leaves Knows (ev e env m)

section Evaluation

variable {ev : Evaluator} {env : FrameId} {exprs : List Value}

theorem Respected.sequence (hev : Respected ev) (h : m.Numbered) (frame : env < m.store.size)
    {start : Value} (hstart : m.Knows start) (hexprs : ∀ e ∈ exprs, m.Knows e) :
    m.Leaves Knows (Eval.sequence ev env start exprs m) := by
  unfold Eval.sequence
  induction exprs generalizing m start with
  | nil => exact leaves_pure h hstart
  | cons e exprs ih =>
    obtain ⟨first, rest⟩ := List.forall_mem_cons.1 hexprs
    rw [List.foldlM_cons]
    refine (hev h frame first).bind fun v m' numbered before known => ?_
    exact ih numbered (Nat.lt_of_lt_of_le frame before.frames) known fun e member =>
      (rest e member).mono before

theorem Respected.body (hev : Respected ev) (h : m.Numbered) (frame : env < m.store.size)
    (hexprs : ∀ e ∈ exprs, m.Knows e) : m.Leaves Knows (Eval.body ev env exprs m) := by
  cases exprs with
  | nil => exact leaves_raise h _
  | cons e exprs => exact hev.sequence h frame (knows_atom rfl) hexprs

/-- A body that is evaluated in a new frame. -/
theorem Respected.bodyIn (hev : Respected ev) (h : m.Numbered) {f : Frame}
    (hf : m.self.Frames f f) (hexprs : ∀ e ∈ exprs, m.Knows e) :
    m.Leaves Knows ((do Eval.body ev (← EvalM.newFrame f) exprs : EvalM Value) m) :=
  (leaves_newFrame h hf).bind fun _ _ numbered before made =>
    hev.body numbered made fun e member => (hexprs e member).mono before

theorem Respected.resolve (hev : Respected ev) (h : m.Numbered) (name : String) :
    m.Leaves Knows (Eval.resolve ev env name m) := by
  refine (leaves_lookup h env name).bind fun found m₁ numbered before inside => ?_
  obtain ⟨b, owner⟩ := found
  obtain ⟨bound, frame⟩ := inside
  cases bound with
  | value known => exact leaves_pure numbered known
  | deferred known =>
    exact (hev numbered frame known).bind fun v m₂ numbered' _ known' =>
      leaves_force numbered' owner name known'

theorem Respected.apply (hev : Respected ev) (h : m.Numbered) {f : Value} (hf : m.Knows f)
    {args : List Value} (hargs : ∀ v ∈ args, m.Knows v) :
    m.Leaves Knows (Eval.apply ev f args m) := by
  cases f with
  | builtin b => exact leaves_callBuiltin h b hargs
  | closure id params exprs env =>
    obtain ⟨-, frame, hexprs⟩ := knows_closure_iff.1 hf
    have inside : m.self.frame env env := ⟨rfl, frame⟩
    simp only [Eval.apply]
    split
    · exact hev.bodyIn h (Simulation.callFrame_related inside params (knowsAll_iff.2 hargs)) hexprs
    · exact leaves_raise h _
  | _ => exact leaves_raise h _

theorem Respected.form (hev : Respected ev) (h : m.Numbered) (frame : env < m.store.size)
    {f : Form} (hf : m.self.Forms f f) : m.Leaves Knows (Eval.form ev env f m) := by
  have inside : m.self.frame env env := ⟨rfl, frame⟩
  cases hf with
  | quote hdatum => exact leaves_pure h (m.self.expr_quoted hdatum)
  | define name he =>
    exact (leaves_define h env name (.deferred he)).bind fun _ _ numbered _ _ =>
      leaves_pure numbered (knows_atom rfl)
  | lambda params hbody => exact leaves_newClosure h params (knowsAll_iff.1 hbody) frame
  | ifThen htest hthen helse =>
    refine (hev h frame htest).bind fun v m' numbered before _ => ?_
    have frame' := Nat.lt_of_lt_of_le frame before.frames
    split
    · exact hev numbered frame' (Knows.mono hthen before)
    · cases helse with
      | none => exact leaves_pure numbered (knows_atom rfl)
      | some he => exact hev numbered frame' (Knows.mono he before)
  | assign name he =>
    refine (hev h frame he).bind fun v m' numbered _ known => ?_
    exact (leaves_assign numbered env name known).bind fun _ _ numbered' _ _ =>
      leaves_pure numbered' (knows_atom rfl)
  | letIn hbindings hbody =>
    exact hev.bodyIn h (Simulation.letFrame_related inside hbindings) (knowsAll_iff.1 hbody)

theorem Respected.items (hev : Respected ev) {items : List Value} (h : m.Numbered)
    (frame : env < m.store.size) (hitems : ∀ e ∈ items, m.Knows e) :
    m.Leaves (fun m vs => ∀ v ∈ vs, m.Knows v) (items.mapM (ev · env) m) := by
  induction items generalizing m with
  | nil => exact leaves_pure h (by simp)
  | cons e items ih =>
    obtain ⟨first, rest⟩ := List.forall_mem_cons.1 hitems
    rw [List.mapM_cons]
    refine (hev h frame first).bind fun v m₁ numbered before known => ?_
    have later := ih numbered (Nat.lt_of_lt_of_le frame before.frames) fun e member =>
      (rest e member).mono before
    refine later.bind fun vs m₂ numbered' before' knowns => leaves_pure numbered' ?_
    exact List.forall_mem_cons.2 ⟨known.mono before', knowns⟩

theorem Respected.application (hev : Respected ev) {items : List Value} (h : m.Numbered)
    (frame : env < m.store.size) (hitems : ∀ e ∈ items, m.Knows e) :
    m.Leaves Knows (Eval.application ev env items m) := by
  refine (hev.items h frame hitems).bind fun vs m' numbered _ knowns => ?_
  cases vs with
  | nil => exact leaves_raise numbered _
  | cons f args =>
    obtain ⟨hf, hargs⟩ := List.forall_mem_cons.1 knowns
    exact hev.apply numbered hf hargs

theorem Respected.codeList (hev : Respected ev) {items : List Value} (h : m.Numbered)
    (frame : env < m.store.size) (origin : Option NodeId) (hitems : ∀ e ∈ items, m.Knows e) :
    m.Leaves Knows (Eval.codeList ev env origin items m) := by
  rw [Eval.codeList_eq]
  cases Keyword.ofItems? items with
  | none => exact hev.application h frame hitems
  | some k =>
    have args := knowsAll_iff.2 fun e member => hitems e (List.mem_of_mem_tail member)
    have self : m.self.origin origin origin := trivial
    obtain ⟨f, f', parsed, parsed', forms⟩ | ⟨cause, parsed, -⟩ :=
      (Simulation.parse_related k self args).cases
    · cases parsed.symm.trans parsed'
      simp only [parsed]
      exact hev.form h frame forms
    · simp only [parsed]
      exact leaves_raise h _

theorem Respected.step (hev : Respected ev) (c : Context) : Respected (Eval.step c ev) := by
  intro m e env h frame he
  cases e with
  | symbol name => exact hev.resolve h name
  | list items tag origin =>
    cases tag with
    | code => exact (hev.codeList h frame origin (knows_list_iff.1 he)).adaptExcept _
    | _ => exact leaves_pure h he
  | _ => exact leaves_pure h he

/-- **Numbers in use have been given out.** -/
theorem respected_eval (c : Context) (bound : Nat) : Respected (eval c bound) := by
  induction bound with
  | zero => exact fun m e env h _ _ => leaves_raise h _
  | succ bound ih =>
    intro m e env h frame he
    exact leaves_nested c.limit h (ih.step c (h.withDepth _) frame he)

theorem leaves_program (c : Context) (bound : Nat) {program : Value} (h : m.Numbered)
    (frame : env < m.store.size) (known : m.Knows program) :
    m.Leaves Knows (evalProgram c bound program env m) := by
  have hev := respected_eval c bound
  cases program with
  | list items tag origin => exact hev.sequence h frame (knows_atom rfl) (knows_list_iff.1 known)
  | _ => exact hev h frame known

end Evaluation

end Memory

/-! ## Sessions -/

theorem Value.IsCode.known {e : Value} (h : e.IsCode) (m : Memory) : m.Knows e := by
  induction h with
  | int n => exact Memory.knows_atom rfl
  | symbol name => exact Memory.knows_atom rfl
  | list _ ih => exact Memory.knows_list_iff.2 ih

namespace Session

/-- Nothing in the memory refers to what has not been made yet, and the global frame has been. -/
structure Numbered (s : Session) : Prop where
  memory : s.memory.Numbered
  global : s.global < s.memory.store.size

/-- What a call has left: a numbered session, and a value, if any, that it knows. -/
structure Outcome.Numbered (outcome : Outcome Value) : Prop where
  session : outcome.2.Numbered
  value : ∀ v, outcome.1 = .ok v → outcome.2.memory.Knows v

variable {s : Session}

theorem numbered_new (limit : Nat) : (Session.new limit).Numbered := by
  have empty : Memory.Numbered {} :=
    ⟨fun found => by simp [Store.get?] at found, fun _ member => by cases member⟩
  exact ⟨empty.push (Simulation.root_related _), Nat.zero_lt_one⟩

theorem numbered_reset (h : s.memory.Numbered) : s.reset.Numbered where
  memory := (h.push (Simulation.root_related _)).withDepth 0
  global := by
    change s.memory.store.size < (s.memory.store.push _).size
    simp

theorem numbered_perform (h : s.Numbered) {act : EvalM Value}
    (left : s.memory.Leaves Memory.Knows (act s.memory)) : Outcome.Numbered (s.perform act) := by
  rw [perform_eq]
  cases ended : act s.memory with
  | ok v m =>
    rw [ended] at left
    obtain ⟨numbered, before, known⟩ := left
    refine ⟨⟨numbered, Nat.lt_of_lt_of_le h.global before.frames⟩, fun w same => ?_⟩
    obtain rfl := Except.ok.inj same
    exact known
  | error d m =>
    rw [ended] at left
    obtain ⟨numbered, before⟩ := left
    exact ⟨⟨numbered, Nat.lt_of_lt_of_le h.global before.frames⟩, fun w same => by cases same⟩

theorem numbered_evalSource (h : s.Numbered) (source : String) :
    Outcome.Numbered (s.evalSource source) := by
  rw [evalSource_eq]
  cases read : Reader.readProgram source s.tree with
  | error d tree => exact ⟨⟨h.memory, h.global⟩, fun v same => by cases same⟩
  | ok program tree =>
    have known := (Reader.isCode_of_readProgram read).known s.memory
    have start : Session.Numbered { s with tree } := ⟨h.memory, h.global⟩
    exact numbered_perform start
      (Memory.leaves_program ⟨s.limit, tree⟩ s.limit h.memory h.global known)

theorem numbered_emit (h : s.Numbered) {v : Value} (known : s.memory.Knows v) :
    (s.emit v).Numbered ∧ (s.emit v).memory.Knows v :=
  ⟨⟨h.memory.emit known, h.global⟩, known⟩

theorem numbered_evalAndShow (h : s.Numbered) (source : String) :
    Outcome.Numbered (s.evalAndShow source) := by
  have left := numbered_evalSource h source
  rw [evalAndShow_eq]
  cases ended : (s.evalSource source).1 with
  | error d => exact ⟨left.session, fun v same => by cases same⟩
  | ok v =>
    obtain ⟨shown, known⟩ := numbered_emit left.session (left.value v ended)
    refine ⟨shown, fun w same => ?_⟩
    obtain rfl := Except.ok.inj same
    exact known

theorem numbered_run (h : s.Numbered) (source : String) : Outcome.Numbered (s.run source) :=
  numbered_evalAndShow (numbered_reset h.memory) source

theorem numbered_call (h : s.Numbered) (c : Call) : (s.call c).2.Numbered := by
  cases c with
  | run source => exact (numbered_run h source).session
  | runBytes bytes =>
    simp only [call, runBytes]
    cases Utf8.decode bytes with
    | error d => exact h
    | ok source => exact (numbered_run h source).session
  | evalSource source => exact (numbered_evalSource h source).session
  | reset => exact numbered_reset h.memory

/-- After any calls on a new session, whether they succeeded or not, nothing refers to what has not
been made yet. -/
theorem numbered_after (limit : Nat) (calls : List Call) :
    ((Session.new limit).after calls).Numbered :=
  after_preserves (P := Numbered) (fun _ c h => numbered_call h c) (numbered_new limit) calls

end Session

end LazyLisp
