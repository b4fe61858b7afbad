import LazyLisp.Proofs.DepthLimit
import LazyLisp.Proofs.Domain

/-!
# Evaluation is confined to the frames it can reach

From a frame one reaches its parent and the frames that closures in its bindings were made in. The
frames reached from where an expression is evaluated and from the closures in it, together with the
frames still to be made, are a domain. So evaluation changes no other frame, and what can be reached
afterwards from its results or from its frames could be reached before, or is new.
-/

namespace LazyLisp

namespace Value

mutual

/-- The frames that the closures in a value were made in, at any depth and also in the bodies of
closures. -/
def captured : Value → List FrameId
  | .list items _ _ => capturedAll items
  | .closure _ _ body env => env :: capturedAll body
  | _ => []

/-- The frames that the closures in values were made in. -/
def capturedAll : List Value → List FrameId
  | [] => []
  | v :: vs => captured v ++ capturedAll vs

end

theorem capturedAll_eq (vs : List Value) : capturedAll vs = vs.flatMap captured := by
  induction vs with
  | nil => rfl
  | cons v vs ih => rw [capturedAll, ih, List.flatMap_cons]

theorem mem_capturedAll {vs : List Value} {id : FrameId} :
    id ∈ capturedAll vs ↔ ∃ v ∈ vs, id ∈ v.captured := by
  rw [capturedAll_eq, List.mem_flatMap]

/-- Quoting makes no closure and drops none. -/
theorem captured_quoted (v : Value) : v.quoted.captured = v.captured := by
  induction v with
  | list items tag origin ih =>
    cases tag with
    | code =>
      rw [quoted_code, captured, captured, capturedAll_eq, capturedAll_eq, List.flatMap_map]
      exact List.flatMap_congr ih
    | _ => rfl
  | _ => rfl

/-- All closures in the value were made in frames of `frame`. -/
def CapturedIn (frame : FrameId → Prop) (v : Value) : Prop := ∀ id ∈ v.captured, frame id

variable {frame : FrameId → Prop}

theorem capturedIn_list_iff {items : List Value} {tag : ListTag} {origin : Option NodeId} :
    CapturedIn frame (.list items tag origin) ↔ ∀ v ∈ items, v.CapturedIn frame := by
  simp only [CapturedIn, captured, mem_capturedAll]
  constructor
  · exact fun h v member id inside => h id ⟨v, member, inside⟩
  · rintro h id ⟨v, member, inside⟩
    exact h v member id inside

theorem capturedIn_closure_iff {id : Nat} {params : List String} {body : List Value}
    {env : FrameId} : CapturedIn frame (.closure id params body env) ↔
      frame env ∧ ∀ e ∈ body, e.CapturedIn frame := by
  simp only [CapturedIn, captured, List.forall_mem_cons, mem_capturedAll]
  refine and_congr_right fun _ => ⟨fun h e member id inside => h id ⟨e, member, inside⟩, ?_⟩
  rintro h id ⟨e, member, inside⟩
  exact h e member id inside

theorem inside_iff_capturedIn {v : Value} :
    v.Inside frame (CapturedIn frame) ↔ v.CapturedIn frame := by
  induction v with
  | list items tag origin ih =>
    rw [capturedIn_list_iff]
    constructor
    · intro h v member
      cases h with
      | atom atom => cases atom
      | list inside => exact (ih v member).1 (inside v member)
    · exact fun h => .list fun v member => (ih v member).2 (h v member)
  | closure id params body env _ =>
    rw [capturedIn_closure_iff]
    constructor
    · intro h
      cases h with
      | atom atom => cases atom
      | closure env body => exact ⟨env, body⟩
    · exact fun h => .closure h.1 h.2
  | _ => exact iff_of_true (.atom rfl) (by simp [CapturedIn, captured])

end Value

/-- The frames that the closures in a binding were made in. -/
def Binding.captured : Binding → List FrameId
  | .value v => v.captured
  | .deferred e => e.captured

/-- The frames reached from `roots`: from a frame to its parent, and to the frames that closures in
its bindings were made in. -/
inductive Store.Reaches (s : Store) (roots : List FrameId) : FrameId → Prop
  | root {id : FrameId} : id ∈ roots → Reaches s roots id
  | parent {id p : FrameId} {f : Frame} :
    Reaches s roots id → s.get? id = some f → f.parent = some p → Reaches s roots p
  | binding {id p : FrameId} {f : Frame} {entry : String × Binding} :
    Reaches s roots id → s.get? id = some f → entry ∈ f.bindings → p ∈ entry.2.captured →
      Reaches s roots p

namespace Domain

open Value

/-- Frames of a given set, and the expressions whose closures were made in them. -/
def ofFrames (frame : FrameId → Prop) : Domain where
  frame := frame
  expr := CapturedIn frame
  expr_self h _ _ := inside_iff_capturedIn.2 h
  expr_items h _ := capturedIn_list_iff.1 h
  expr_form := by
    intro items origin k f h _ parsed e member
    have args : ∀ e ∈ items.tail, e.CapturedIn frame := fun e member =>
      capturedIn_list_iff.1 h e (List.mem_of_mem_tail member)
    rcases Form.exprs_of_parse capturedIn_list_iff.1 args parsed e member with
      inside | ⟨-, name, params, tag, place, body, split, rfl⟩
    · exact inside
    · rw [split] at args
      obtain ⟨signature, hbody⟩ := List.forall_mem_cons.1 args
      have hparams : ∀ e ∈ params, e.CapturedIn frame := fun e member =>
        capturedIn_list_iff.1 signature e (List.mem_cons_of_mem _ member)
      refine capturedIn_list_iff.2 ?_
      refine List.forall_mem_cons.2 ⟨by simp [CapturedIn, captured], ?_⟩
      exact List.forall_mem_cons.2 ⟨capturedIn_list_iff.2 hparams, hbody⟩
  expr_quoted := by
    intro items origin k datum h _ parsed
    have member : datum ∈ items := by
      refine List.mem_of_mem_tail ?_
      rw [Form.eq_of_parse_quote parsed]
      exact List.mem_singleton_self datum
    refine inside_iff_capturedIn.2 ?_
    unfold CapturedIn
    rw [captured_quoted]
    exact capturedIn_list_iff.1 h datum member

variable {frame : FrameId → Prop}

theorem ofFrames_value_iff {v : Value} : (ofFrames frame).value v ↔ v.CapturedIn frame :=
  inside_iff_capturedIn

theorem ofFrames_bound_iff {b : Binding} :
    (ofFrames frame).bound b ↔ ∀ id ∈ b.captured, frame id := by
  cases b with
  | value v => exact ofFrames_value_iff
  | deferred e => exact Iff.rfl

/-- What is reached from frames of the domain belongs to it. -/
theorem Kept.reaches {s₀ s : Store} (h : (ofFrames frame).Kept s₀ s) {roots : List FrameId}
    (hroots : ∀ id ∈ roots, frame id) {id : FrameId} (reached : s.Reaches roots id) : frame id := by
  induction reached with
  | root member => exact hroots _ member
  | parent _ found parent ih => exact (h.closed ih found).parent _ parent
  | binding _ found member captured ih =>
    exact ofFrames_bound_iff.1 ((h.closed ih found).bindings _ member) _ captured

/-- The frames reached from `roots` and those still to be made. -/
def reached (s : Store) (roots : List FrameId) : Domain :=
  ofFrames fun id => s.Reaches roots id ∨ s.size ≤ id

/-- Before anything is evaluated, the frames reached are closed. -/
theorem reached_kept (s : Store) (roots : List FrameId) : (reached s roots).Kept s s where
  closed := by
    intro id f inside found
    have old : id < s.size := (Array.getElem?_eq_some_iff.1 found).1
    have here : s.Reaches roots id := by
      rcases inside with here | new
      · exact here
      · exact absurd old (Nat.not_lt.2 new)
    refine ⟨fun p parent => .inl (.parent here found parent), fun entry member => ?_⟩
    exact ofFrames_bound_iff.2 fun p captured => .inl (.binding here found member captured)
  others := fun _ => rfl
  fresh := fun le => .inr le
  grown := Nat.le_refl _

theorem reached_inv (m : Memory) (roots : List FrameId) : (reached m.store roots).Inv m m :=
  ⟨reached_kept m.store roots, [], by simp, by simp⟩

end Domain

/-- A new root frame lies in no other, and binds atoms only. -/
theorem Domain.closed_root (D : Domain) : D.Closed { bindings := rootBindings } where
  parent := by simp
  bindings := by
    intro entry member
    obtain ⟨b, bound⟩ | ⟨b, bound⟩ := value_of_mem_rootBindings member
    · rw [bound]
      exact D.atoms rfl
    · rw [bound]
      exact D.atoms rfl

namespace Session

variable {s : Session} {roots : List FrameId} {act : EvalM Value}

/-- A computation that stays in a domain leaves the domain's invariant, and a value of the domain if
any. -/
theorem inv_perform {D : Domain} (start : D.Inv s.memory s.memory)
    (h : Keeps (D.Inv s.memory) D.value act) :
    D.Inv s.memory (s.perform act).2.memory ∧ ∀ v, (s.perform act).1 = .ok v → D.value v := by
  have ends := h s.memory start
  rw [perform_eq]
  cases ended : act s.memory with
  | ok v m =>
    rw [ended] at ends
    refine ⟨ends.2, fun w same => ?_⟩
    obtain rfl := Except.ok.inj same
    exact ends.1
  | error d m =>
    rw [ended] at ends
    exact ⟨ends, fun w same => by cases same⟩

theorem exists_of_perform_error {d : Diagnostic}
    (failed : (s.perform act).1 = .error d) : ∃ m, act s.memory = .error d m := by
  rw [perform_eq] at failed
  cases ended : act s.memory with
  | ok v m =>
    rw [ended] at failed
    cases failed
  | error d' m =>
    rw [ended] at failed
    cases failed
    exact ⟨m, rfl⟩

/-- A computation that stays among the frames reached changes no other. -/
theorem get?_perform_of_not_reaches
    (h : Keeps ((Domain.reached s.memory.store roots).Inv s.memory)
      (Domain.reached s.memory.store roots).value act)
    {id : FrameId} (old : id < s.memory.store.size) (outside : ¬ s.memory.store.Reaches roots id) :
    (s.perform act).2.memory.store.get? id = s.memory.store.get? id := by
  obtain ⟨kept, -⟩ := (inv_perform (Domain.reached_inv _ _) h).1
  refine kept.others fun inside => ?_
  rcases inside with reached | new
  · exact outside reached
  · exact absurd old (Nat.not_lt.2 new)

theorem keeps_eval_reached (s : Session) (e : Value) (env : FrameId) :
    let D := Domain.reached s.memory.store (env :: e.captured)
    Keeps (D.Inv s.memory) D.value (LazyLisp.eval s.context s.limit e env) := by
  intro D
  have expr : D.expr e := fun id member => .inl (.root (List.mem_cons_of_mem _ member))
  have frame : D.frame env := .inl (.root List.mem_cons_self)
  exact D.keeps_eval s.memory s.context s.limit expr frame

theorem keeps_apply_reached (s : Session) (f : Value) (args : List Value) :
    let D := Domain.reached s.memory.store (f.captured ++ Value.capturedAll args)
    Keeps (D.Inv s.memory) D.value (Eval.apply (LazyLisp.eval s.context s.limit) f args) := by
  intro D
  have hf : D.value f := Domain.ofFrames_value_iff.2 fun id member =>
    .inl (.root (List.mem_append_left _ member))
  have hargs : ∀ v ∈ args, D.value v := fun v inside => Domain.ofFrames_value_iff.2 fun id member =>
    .inl (.root (List.mem_append_right _ (Value.mem_capturedAll.2 ⟨v, inside, member⟩)))
  exact Domain.keeps_apply (D.keeps_eval s.memory s.context s.limit) hf hargs

/-- **Evaluation is confined to the frames it can reach.** Evaluate an expression in a frame, with
whatever outcome. A frame that is reached neither from that frame nor from a closure in the
expression is the same as before. And each frame that is reached afterwards, from the result, from a
value newly shown or from a frame reached before, was reached before or was made meanwhile. In the
same way a call changes no frame that is reached neither from the function nor from its arguments:
the parameters of other calls under way are safe from it. -/
theorem eval_confined (s : Session) (e : Value) (env : FrameId) :
    let before := s.memory.store
    let roots := env :: e.captured
    let outcome := s.eval e env
    let after := outcome.2.memory.store
    (∀ id < before.size, ¬ before.Reaches roots id → after.get? id = before.get? id) ∧
      (∃ shown, outcome.2.memory.output.toList = s.memory.output.toList ++ shown ∧
        ∀ roots', (∀ id ∈ roots', (∃ v, outcome.1 = .ok v ∧ id ∈ v.captured) ∨
            (∃ v ∈ shown, id ∈ v.captured) ∨ before.Reaches roots id) →
          ∀ id < after.size, after.Reaches roots' id →
            before.Reaches roots id ∨ before.size ≤ id) ∧
      ∀ f args, ∀ id < before.size, ¬ before.Reaches (f.captured ++ Value.capturedAll args) id →
        (s.apply f args).2.memory.store.get? id = before.get? id := by
  intro before roots outcome after
  have keeps := s.keeps_eval_reached e env
  obtain ⟨⟨kept, shown, split, inside⟩, result⟩ := inv_perform (Domain.reached_inv _ _) keeps
  refine ⟨fun id old outside => get?_perform_of_not_reaches keeps old outside,
    ⟨shown, split, fun roots' hroots id _ reached => kept.reaches (fun root member => ?_) reached⟩,
    fun f args id old outside =>
      get?_perform_of_not_reaches (s.keeps_apply_reached f args) old outside⟩
  rcases hroots root member with ⟨v, returned, captured⟩ | ⟨v, new, captured⟩ | reached
  · exact Domain.ofFrames_value_iff.1 (result v returned) root captured
  · exact Domain.ofFrames_value_iff.1 (inside v new) root captured
  · exact .inl reached

/-- A definition of `x` at the top does not touch the parameter `x` of a call. -/
theorem eval_confined_parameter :
    let root := (Session.new 9).memory
    let call : Frame := { parent := some 0, bindings := [("x", .value (.int 1))] }
    let s := { Session.new 9 with memory := { root with store := root.store.push call } }
    let e : Value := .list [.symbol "define", .symbol "x", .int 2] .code none
    1 < s.memory.store.size ∧ ¬ s.memory.store.Reaches (0 :: e.captured) 1 ∧
      (s.eval e 0).2.memory.store.get? 1 = s.memory.store.get? 1 := by
  intro root call s e
  have only : ∀ {id}, s.memory.store.Reaches (0 :: e.captured) id → id = 0 := by
    intro id reached
    induction reached with
    | root member => exact List.mem_singleton.1 member
    | parent _ found parent ih =>
      subst ih
      obtain rfl := Option.some.inj found
      cases parent
    | @binding id p f entry _ found member captured ih =>
      subst ih
      obtain rfl := Option.some.inj found
      obtain ⟨b, bound⟩ | ⟨b, bound⟩ := value_of_mem_rootBindings member
      · rw [bound] at captured
        cases captured
      · rw [bound] at captured
        cases captured
  have outside : ¬ s.memory.store.Reaches (0 :: e.captured) 1 := by
    intro reached
    cases only reached
  have old : 1 < s.memory.store.size := by decide
  exact ⟨old, outside, (eval_confined s e 0).1 1 old outside⟩

end Session

end LazyLisp
