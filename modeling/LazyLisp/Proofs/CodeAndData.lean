import LazyLisp.Proofs.Calls
import LazyLisp.Proofs.Simulation.Eval
import LazyLisp.Proofs.Simulation.Reader

/-!
# Code and data stay apart

A value that was computed is never evaluated again: what a program computes with holds no code
lists, and what is evaluated holds nothing but integers, symbols and code lists. The two halves
depend on each other. `quoted` turns code into data only if all lists in it are code, and calling a
closure evaluates its body, so closures among the data must have bodies of code.

The invariant is a simulation of an evaluation with itself, whose values are data and whose
expressions are code. To say of the calls of `eval` inside a run that they are all on code, the run
is compared with one in which every other call is left to an arbitrary `trap`: the two are the same.
-/

namespace LazyLisp

namespace Value

/-- Made of integers, symbols and code lists only. -/
inductive IsCode : Value → Prop
  | int (n : Int64) : IsCode (.int n)
  | symbol (name : String) : IsCode (.symbol name)
  | list {items : List Value} {origin : Option NodeId} :
    (∀ e ∈ items, IsCode e) → IsCode (.list items .code origin)

/-- Without a code list at any depth, the bodies of closures apart, which are code. -/
inductive IsData : Value → Prop
  | void : IsData .void
  | bool (b : Bool) : IsData (.bool b)
  | int (n : Int64) : IsData (.int n)
  | float (x : Float) : IsData (.float x)
  | symbol (name : String) : IsData (.symbol name)
  | list {items : List Value} {tag : ListTag} {origin : Option NodeId} :
    tag ≠ .code → (∀ v ∈ items, IsData v) → IsData (.list items tag origin)
  | builtin (b : Builtin) : IsData (.builtin b)
  | closure {id : Nat} {params : List String} {body : List Value} {env : FrameId} :
    (∀ e ∈ body, IsCode e) → IsData (.closure id params body env)

theorem isData_of_isAtom {v : Value} (h : v.isAtom = true) : v.IsData := by
  cases v with
  | list _ _ _ => cases h
  | closure _ _ _ _ => cases h
  | _ => constructor

theorem IsCode.quoted {e : Value} (h : e.IsCode) : e.quoted.IsData := by
  induction h with
  | int n => exact .int n
  | symbol name => exact .symbol name
  | list _ ih =>
    rw [quoted_code]
    refine .list (by decide) fun v member => ?_
    obtain ⟨e, inside, rfl⟩ := List.mem_map.1 member
    exact ih e inside

theorem IsCode.lambdaOf {params body : List Value} (hparams : ∀ e ∈ params, e.IsCode)
    (hbody : ∀ e ∈ body, e.IsCode) (origin : Option NodeId) :
    (Form.lambdaOf params body origin).IsCode := by
  refine .list fun e member => ?_
  rcases List.mem_cons.1 member with rfl | member
  · exact .symbol "lambda"
  · rcases List.mem_cons.1 member with rfl | inside
    · exact .list hparams
    · exact hbody e inside

end Value

/-- A bound value is data and a deferred expression is code. -/
def Binding.Sound : Binding → Prop
  | .value v => v.IsData
  | .deferred e => e.IsCode

/-- Every binding of every frame is sound, and every value shown is data. -/
structure Memory.Sound (m : Memory) : Prop where
  bindings : ∀ {id f}, m.store.get? id = some f → ∀ p ∈ f.bindings, p.2.Sound
  output : ∀ v ∈ m.output.toList, v.IsData

theorem forall₂_eq_and_iff {α : Type} {P : α → Prop} {xs ys : List α} :
    List.Forall₂ (fun a b => a = b ∧ P a) xs ys ↔ xs = ys ∧ ∀ a ∈ xs, P a := by
  have swap : List.Forall₂ (fun a b => a = b ∧ P a) xs ys ↔
      List.Forall₂ (fun a b => P a ∧ a = b) xs ys :=
    ⟨.imp fun _ _ => And.symm, .imp fun _ _ => And.symm⟩
  rw [swap, List.forall₂_and_left, List.forall₂_eq_eq_eq, and_comm]

theorem Value.forall₂_isCode_items {items items' : List Value} {tag : ListTag}
    {origin origin' : Option NodeId}
    (h : list items tag origin = list items' tag origin' ∧ IsCode (list items tag origin)) :
    List.Forall₂ (fun e e' => e = e' ∧ e.IsCode) items items' := by
  obtain ⟨same, code⟩ := h
  cases same
  cases code with
  | list inside => exact forall₂_eq_and_iff.2 ⟨rfl, inside⟩

namespace Simulation

/-- An evaluation beside itself, with data for values and code for expressions. -/
def disciplined : Simulation where
  toRenaming := .identity
  hidden _ := False
  value v v' := v = v' ∧ v.IsData
  expr e e' := e = e' ∧ e.IsCode
  report := Eq
  before := []
  value_like := by
    rintro v _ ⟨rfl, -⟩
    exact .refl (fun _ => rfl) (fun _ => rfl) (fun _ => rfl) v
  value_atom h := ⟨rfl, Value.isData_of_isAtom h⟩
  value_items := by
    rintro items items' tag origin origin' ⟨same, data⟩
    cases same
    cases data with
    | list _ inside => exact forall₂_eq_and_iff.2 ⟨rfl, inside⟩
  value_cell := by
    intro items items' related
    obtain ⟨rfl, inside⟩ := forall₂_eq_and_iff.1 related
    exact ⟨rfl, .list (by decide) inside⟩
  value_body := by
    rintro id id' params body body' env env' ⟨same, data⟩
    cases same
    cases data with
    | closure inside => exact forall₂_eq_and_iff.2 ⟨rfl, inside⟩
  value_closure := by
    rintro id _ params body body' env _ rfl related rfl
    obtain ⟨rfl, inside⟩ := forall₂_eq_and_iff.1 related
    exact ⟨rfl, .closure inside⟩
  expr_like := by
    rintro e _ ⟨rfl, -⟩
    exact .refl (fun _ => rfl) (fun _ => rfl) (fun _ => rfl) e
  expr_symbol _ := id
  expr_items h _ := Value.forall₂_isCode_items h
  expr_tail h := by simpa using List.forall₂_drop 1 (Value.forall₂_isCode_items h)
  expr_lambda := by
    rintro params params' body body' origin _ hparams hbody rfl
    obtain ⟨rfl, inParams⟩ := forall₂_eq_and_iff.1 hparams
    obtain ⟨rfl, inBody⟩ := forall₂_eq_and_iff.1 hbody
    exact ⟨rfl, .lambdaOf inParams inBody origin⟩
  expr_self := by
    rintro e _ ⟨rfl, code⟩ notSymbol notCode
    cases code with
    | int n => exact ⟨rfl, .int n⟩
    | symbol name => exact (notSymbol name rfl).elim
    | list _ => exact (notCode _ _ rfl).elim
  expr_quoted := by
    rintro e _ ⟨rfl, code⟩
    exact ⟨rfl, code.quoted⟩
  report_fault _ := rfl

theorem disciplined_bound_iff {b b' : Binding} :
    disciplined.Bound b b' ↔ b = b' ∧ b.Sound := by
  constructor
  · intro h
    cases h with
    | value related => exact ⟨congrArg _ related.1, related.2⟩
    | deferred related => exact ⟨congrArg _ related.1, related.2⟩
  · rintro ⟨rfl, sound⟩
    cases b with
    | value v => exact .value ⟨rfl, sound⟩
    | deferred e => exact .deferred ⟨rfl, sound⟩

theorem disciplined_frames_iff {f f' : Frame} :
    disciplined.Frames f f' ↔ f = f' ∧ ∀ p ∈ f.bindings, p.2.Sound := by
  have entry : disciplined.Entries = fun p q => p = q ∧ p.2.Sound := by
    funext p q
    have seen : ¬ disciplined.hidden p.1 := id
    simp only [Entries, seen, not_false_eq_true, true_implies, disciplined_bound_iff, Prod.ext_iff,
      and_assoc]
  have entries : List.Forall₂ disciplined.Entries f.bindings f'.bindings ↔
      f.bindings = f'.bindings ∧ ∀ p ∈ f.bindings, p.2.Sound := by
    rw [entry, forall₂_eq_and_iff]
  have parents : Option.Rel disciplined.frame f.parent f'.parent ↔ f.parent = f'.parent :=
    optionRel_eq_iff
  constructor
  · rintro ⟨parent, bindings⟩
    obtain ⟨same, sound⟩ := entries.1 bindings
    exact ⟨Frame.mk.injEq _ _ _ _ ▸ ⟨parents.1 parent, same⟩, sound⟩
  · rintro ⟨rfl, sound⟩
    exact ⟨parents.2 rfl, entries.2 ⟨rfl, sound⟩⟩

/-- Memories correspond here if they are the same and sound. -/
theorem disciplined_memories_iff {depth : Nat} {m m' : Memory} :
    disciplined.Memories depth m m' ↔ m = m' ∧ m.Sound ∧ m.depth = depth := by
  have frames : disciplined.Frames = fun f f' => f = f' ∧ ∀ p ∈ f.bindings, p.2.Sound :=
    funext₂ fun _ _ => propext disciplined_frames_iff
  have values : disciplined.value = fun v v' => v = v' ∧ v.IsData := rfl
  rw [memories_iff_of_fixed rfl rfl rfl, frames, values]
  simp only [forall₂_eq_and_iff, Array.toList_inj]
  constructor
  · rintro ⟨⟨same, sound⟩, closures, ⟨output, data⟩, depths⟩
    have equal : m = m' := by
      obtain ⟨⟨_⟩, _, _, _⟩ := m
      obtain ⟨⟨_⟩, _, _, _⟩ := m'
      simp only at same closures output depths
      rw [same, closures, output, depths.1, depths.2]
    refine ⟨equal, ⟨fun found => sound _ ?_, data⟩, depths.1⟩
    exact Array.mem_toList_iff.2 (Array.mem_of_getElem? found)
  · rintro ⟨rfl, sound, rfl⟩
    refine ⟨⟨rfl, fun f member => ?_⟩, rfl, ⟨rfl, sound.output⟩, rfl, rfl⟩
    obtain ⟨id, found⟩ := Array.mem_iff_getElem?.1 (Array.mem_toList_iff.1 member)
    exact sound.bindings found

theorem disciplined_contexts (c : Context) : disciplined.Contexts c c where
  limit := rfl
  annotate := by
    rintro origin _ d _ rfl rfl
    rfl

end Simulation

/-! ## Every evaluation is of code -/

open Classical in
/-- The evaluator, with every call that `allowed` refuses left to `trap`. -/
noncomputable def Evaluator.guarded (ev : Evaluator) (allowed : Value → Memory → Prop)
    (trap : Evaluator) : Evaluator :=
  fun e env m => if allowed e m then ev e env m else trap e env m

/-- `eval`, with every call that `allowed` refuses, at any depth, left to `trap`. -/
noncomputable def evalGuarded (allowed : Value → Memory → Prop) (trap : Evaluator) (c : Context) :
    (bound : Nat) → Evaluator
  | 0 => (eval c 0).guarded allowed trap
  | bound + 1 =>
    Evaluator.guarded
      (fun e env => EvalM.nested c.limit (Eval.step c (evalGuarded allowed trap c bound) e env))
      allowed trap

/-- The expression is code and the memory is sound. -/
def CodeInSound (e : Value) (m : Memory) : Prop := e.IsCode ∧ m.Sound

theorem Evaluator.guarded_related {depth : Nat} {ev ev' trap : Evaluator}
    (h : Simulation.disciplined.Evaluators depth ev ev') :
    Simulation.disciplined.Evaluators depth (ev.guarded CodeInSound trap) ev' := by
  intro e e' env env' he frame m m' memories
  have allowed : CodeInSound e m := ⟨he.2, (Simulation.disciplined_memories_iff.1 memories).2.1⟩
  simp only [Evaluator.guarded, allowed, if_true]
  exact h he frame m m' memories

/-- The guard is never used: with it and without it, evaluations go the same way. -/
theorem evalGuarded_related (trap : Evaluator) (c : Context) (bound depth : Nat) :
    Simulation.disciplined.Evaluators depth (evalGuarded CodeInSound trap c bound)
      (eval c bound) := by
  have contexts := Simulation.disciplined_contexts c
  induction bound generalizing depth with
  | zero => exact Evaluator.guarded_related (Simulation.eval_related contexts rfl)
  | succ bound ih =>
    refine Evaluator.guarded_related fun e e' env env' he frame => ?_
    exact Simulation.Related.nested c.limit fun _ =>
      Simulation.step_related contexts (ih (depth + 1)) he frame

/-- The memory is sound and the value, if there is one, is data. -/
def SoundResult : EStateM.Result Diagnostic Memory Value → Prop
  | .ok v m => v.IsData ∧ m.Sound
  | .error _ m => m.Sound

theorem program_guarded {m : Memory} (sound : m.Sound) {program : Value} (code : program.IsCode)
    (trap : Evaluator) (c : Context) (bound : Nat) (env : FrameId) :
    Eval.program (evalGuarded CodeInSound trap c bound) program env m =
        evalProgram c bound program env m ∧
      SoundResult (evalProgram c bound program env m) := by
  have memories : Simulation.disciplined.Memories m.depth m m :=
    Simulation.disciplined_memories_iff.2 ⟨rfl, sound, rfl⟩
  have same : Simulation.disciplined.expr program program := ⟨rfl, code⟩
  have frame : Simulation.disciplined.frame env env := rfl
  have outcomes := Simulation.program_related (evalGuarded_related trap c bound m.depth) frame same
    Value.forall₂_isCode_items m m memories
  obtain ⟨v, w, m₁, m₂, e, e', values, after⟩ | ⟨d, d', m₁, m₂, e, e', reports, after⟩ :=
    outcomes.cases
  · obtain ⟨rfl, data⟩ := values
    obtain ⟨rfl, sound, -⟩ := Simulation.disciplined_memories_iff.1 after
    refine ⟨e.trans e'.symm, ?_⟩
    rw [evalProgram, e']
    exact ⟨data, sound⟩
  · obtain rfl : d = d' := reports
    obtain ⟨rfl, sound, -⟩ := Simulation.disciplined_memories_iff.1 after
    refine ⟨e.trans e'.symm, ?_⟩
    rw [evalProgram, e']
    exact sound

/-- A reading beside itself, that gives code. -/
def Reader.codeReading : Reader.Correspondence where
  node := Eq
  tree := Eq
  value v v' := v = v' ∧ v.IsCode
  tree_next := by rintro t _ rfl; rfl
  tree_push := by
    rintro t _ parent parent' span rfl related
    rw [optionRel_eq_iff.1 related]
  tree_close := by rintro t _ id _ stop head rfl rfl; rfl
  value_int n := ⟨rfl, .int n⟩
  value_symbol name := ⟨rfl, .symbol name⟩
  value_list := by
    rintro items items' id _ related rfl
    obtain ⟨rfl, inside⟩ := forall₂_eq_and_iff.1 related
    exact ⟨rfl, .list inside⟩
  value_name := by rintro v _ ⟨rfl, -⟩; rfl

theorem Reader.isCode_of_readProgram {source : String} {tree tree' : SourceTree} {program : Value}
    (h : Reader.readProgram source tree = .ok program tree') : program.IsCode := by
  have outcomes := codeReading.readProgram_related source tree tree rfl
  rw [h] at outcomes
  cases outcomes with
  | ok related _ => exact related.2

/-! ## Sessions -/

namespace Session

theorem evalSource_sound {s : Session} (sound : s.memory.Sound) (source : String) :
    (s.evalSource source).2.memory.Sound ∧
      ∀ v, (s.evalSource source).1 = .ok v → v.IsData := by
  rw [evalSource_eq]
  cases read : Reader.readProgram source s.tree with
  | error d tree => exact ⟨sound, fun v same => by cases same⟩
  | ok program tree =>
    have code := Reader.isCode_of_readProgram read
    have result := (program_guarded sound code (LazyLisp.eval ⟨s.limit, tree⟩ s.limit)
      ⟨s.limit, tree⟩ s.limit s.global).2
    simp only [evalProgram, perform_eq, context]
    cases ended : LazyLisp.evalProgram ⟨s.limit, tree⟩ s.limit program s.global s.memory with
    | ok v m =>
      rw [ended] at result
      refine ⟨result.2, fun w same => ?_⟩
      cases same
      exact result.1
    | error d m =>
      rw [ended] at result
      exact ⟨result, fun v same => by cases same⟩

theorem rootBindings_sound : ∀ p ∈ rootBindings, p.2.Sound := by
  intro p member
  obtain ⟨b, bound⟩ | ⟨b, bound⟩ := value_of_mem_rootBindings member
  · rw [bound]
    exact .builtin b
  · rw [bound]
    exact .bool b

theorem push_root_sound {m : Memory} (sound : m.Sound) (depth : Nat) :
    Memory.Sound { m with store := m.store.push { bindings := rootBindings }, depth } where
  bindings := by
    intro id f found
    rw [Store.get?_push] at found
    split at found
    · cases found
      exact rootBindings_sound
    · exact sound.bindings found
  output := sound.output

theorem new_sound (limit : Nat) : (Session.new limit).memory.Sound := by
  have empty : Memory.Sound {} :=
    { bindings := fun found => by simp [Store.get?] at found
      output := fun v member => by simp at member }
  exact push_root_sound empty 0

theorem emit_sound {s : Session} {v : Value} (sound : s.memory.Sound) (data : v.IsData) :
    (s.emit v).memory.Sound where
  bindings := sound.bindings
  output := by
    intro w member
    have cases : w ∈ s.memory.output.toList ∨ w = v := by
      simpa [Session.emit, Memory.emit] using member
    rcases cases with before | rfl
    · exact sound.output w before
    · exact data

theorem call_sound {s : Session} (sound : s.memory.Sound) (c : Call) :
    (s.call c).2.memory.Sound ∧ ∀ v, (s.call c).1 = some (.ok v) → v.IsData :=
  call_preserves (P := fun s => s.memory.Sound) (fun _ sound => push_root_sound sound 0)
    (fun _ source sound => evalSource_sound sound source) (fun _ _ => emit_sound) sound c

/-- **Code and data stay apart.** After any calls on a new session, whether they succeeded or not,
every bound value and every value shown is data, every deferred expression is code, and so are the
bodies of all closures among the data. Any further call gives data. And whatever source is evaluated
next, every call of `eval` in the course of it is on code and in a sound memory: to leave any other
call to an arbitrary `trap` makes no difference. -/
theorem code_and_data_apart (limit : Nat) (calls : List Call) :
    let s := (Session.new limit).after calls
    s.memory.Sound ∧ (∀ c v, (s.call c).1 = some (.ok v) → v.IsData) ∧
      ∀ source program tree, Reader.readProgram source s.tree = .ok program tree → program.IsCode ∧
        ∀ trap, Eval.program (evalGuarded CodeInSound trap ⟨s.limit, tree⟩ s.limit) program s.global
          s.memory = LazyLisp.evalProgram ⟨s.limit, tree⟩ s.limit program s.global s.memory := by
  intro s
  have sound : s.memory.Sound :=
    after_preserves (P := fun s => s.memory.Sound) (fun _ c sound => (call_sound sound c).1)
      (new_sound limit) calls
  refine ⟨sound, fun c => (call_sound sound c).2, fun source program tree read => ?_⟩
  have code := Reader.isCode_of_readProgram read
  exact ⟨code, fun trap => (program_guarded sound code trap ⟨s.limit, tree⟩ s.limit s.global).1⟩

/-- After `x` was bound to a quoted list, `(car x)` is read as code, and evaluating it meets code
alone. -/
theorem code_and_data_apart_car :
    let s := (Session.new 9).after [.evalSource "(define x (quote (a b)))"]
    ∃ program tree, Reader.readProgram "(car x)" s.tree = .ok program tree ∧ program.IsCode ∧
      ∀ trap, Eval.program (evalGuarded CodeInSound trap ⟨s.limit, tree⟩ s.limit) program s.global
        s.memory = LazyLisp.evalProgram ⟨s.limit, tree⟩ s.limit program s.global s.memory := by
  intro s
  have reads : (Reader.readProgram "(car x)" s.tree matches .ok _ _) = true := by decide +kernel
  cases read : Reader.readProgram "(car x)" s.tree with
  | ok program tree =>
    exact ⟨program, tree, rfl, (code_and_data_apart 9 _).2.2 "(car x)" program tree read⟩
  | error d tree =>
    rw [read] at reads
    cases reads

end Session

end LazyLisp
