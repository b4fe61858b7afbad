import Mathlib.Data.List.Forall2
import LazyLisp.Value.Equality
import LazyLisp.Value.Printer
import LazyLisp.Value.Quotation

/-!
# Values up to renaming

Two runs of one program make their frames, closures and source nodes under different numbers. A
`Renaming` says which numbers of the one run stand for which of the other, and two values are
`Like` each other if they differ in such numbers alone. What a program or a user can see of a value
is the same for both: its type, its truth, its text and, since closures correspond one to one, how
it compares with others.
-/

namespace LazyLisp

/-- Which origins, frames and closures of one run stand for which of another. Frames and closures
correspond one to one. -/
structure Renaming where
  origin : Option NodeId → Option NodeId → Prop
  frame : FrameId → FrameId → Prop
  closure : Nat → Nat → Prop
  origin_none : origin none none
  frame_iff : ∀ {a a' b b'}, frame a a' → frame b b' → (a = b ↔ a' = b')
  closure_iff : ∀ {a a' b b'}, closure a a' → closure b b' → (a = b ↔ a' = b')

/-- Everything keeps its number. -/
def Renaming.identity : Renaming where
  origin := Eq
  frame := Eq
  closure := Eq
  origin_none := rfl
  frame_iff := @Eq.congr _
  closure_iff := @Eq.congr _

namespace Value

/-- The values differ at most in the origins, frames and closure numbers that `r` renames. -/
inductive Like (r : Renaming) : Value → Value → Prop
  | void : Like r .void .void
  | bool (b : Bool) : Like r (.bool b) (.bool b)
  | int (n : Int64) : Like r (.int n) (.int n)
  | float (x : Float) : Like r (.float x) (.float x)
  | symbol (name : String) : Like r (.symbol name) (.symbol name)
  | list {items items' : List Value} {tag : ListTag} {origin origin' : Option NodeId} :
    List.Forall₂ (Like r) items items' → r.origin origin origin' →
      Like r (.list items tag origin) (.list items' tag origin')
  | builtin (b : Builtin) : Like r (.builtin b) (.builtin b)
  | closure {id id' : Nat} {params : List String} {body body' : List Value} {env env' : FrameId} :
    r.closure id id' → List.Forall₂ (Like r) body body' → r.frame env env' →
      Like r (.closure id params body env) (.closure id' params body' env')

variable {r : Renaming} {v v' : Value}

theorem Like.truthy (h : Like r v v') : v.truthy = v'.truthy := by
  cases h <;> rfl

theorem Like.isVoid (h : Like r v v') : v.isVoid = v'.isVoid := by
  cases h <;> rfl

theorem Like.not_cell (h : Like r v v') (notCell : ∀ items origin, v ≠ .list items .cons origin)
    (items : List Value) (origin : Option NodeId) : v' ≠ .list items .cons origin := by
  rintro rfl
  cases h with
  | list _ _ => exact notCell _ _ rfl

/-- The three writers agree on like values; the induction is that of the writers. -/
theorem writes_like (r : Renaming) :
    (∀ out v v', Like r v v' → write out v = write out v') ∧
      (∀ out first vs vs', List.Forall₂ (Like r) vs vs' →
        writeItems out first vs = writeItems out first vs') ∧
      ∀ out first vs vs', List.Forall₂ (Like r) vs vs' →
        writeCell out first vs = writeCell out first vs' := by
  apply write.mutual_induct
    (fun out v => ∀ v', Like r v v' → write out v = write out v')
    (fun out first vs => ∀ vs', List.Forall₂ (Like r) vs vs' →
      writeItems out first vs = writeItems out first vs')
    (fun out first vs => ∀ vs', List.Forall₂ (Like r) vs vs' →
      writeCell out first vs = writeCell out first vs')
  case case7 =>
    intro out items origin ih v' h
    cases h with
    | list items _ => rw [write, write, ih _ items]
  case case8 =>
    intro out items tag origin notCons ih v' h
    cases h with
    | list items _ =>
      cases tag with
      | cons => exact absurd rfl notCons
      | _ => simp only [write]; rw [ih _ items]
  case case12 =>
    intro out first v vs ihv ih vs' h
    cases h with
    | cons head tail => rw [writeItems, writeItems, ih _ tail, ihv _ head]
  case case13 =>
    intro out first head items origin ihead ih vs' h
    obtain _ | ⟨hhead, _ | ⟨htail, _ | _⟩⟩ := h
    cases htail with
    | list hitems _ => rw [writeCell, writeCell, ih _ hitems, ihead _ hhead]
  case case14 =>
    intro out first head tail notCell ihead ih vs' h
    obtain _ | ⟨hhead, _ | ⟨htail, _ | _⟩⟩ := h
    rw [writeCell, writeCell, ih _ htail, ihead _ hhead]
    · exact fun items origin same => htail.not_cell (fun i o e => notCell i o e) items origin same
    · exact notCell
  case case15 =>
    intro out first items notCell notTwo ih vs' h
    have notTwo' : ∀ head tail, vs' = [head, tail] → False := by
      rintro head tail rfl
      obtain _ | ⟨_, _ | ⟨_, _ | _⟩⟩ := h
      exact notTwo _ _ rfl
    have notCell' : ∀ head items origin, vs' = [head, .list items .cons origin] → False :=
      fun head items origin => notTwo' head (.list items .cons origin)
    rw [writeCell.eq_3 _ _ _ notCell notTwo, writeCell.eq_3 _ _ _ notCell' notTwo', ih _ h]
  all_goals
    intros
    rename_i h
    cases h
    simp only [write, writeItems]

theorem Like.display (h : Like r v v') : v.display = v'.display :=
  (writes_like r).1 "" v v' h

/-- The two writers that show tags agree on like values. -/
theorem writeDebugs_like (r : Renaming) :
    (∀ out v v', Like r v v' → writeDebug out v = writeDebug out v') ∧
      ∀ out first vs vs', List.Forall₂ (Like r) vs vs' →
        writeDebugItems out first vs = writeDebugItems out first vs' := by
  apply writeDebug.mutual_induct
    (fun out v => ∀ v', Like r v v' → writeDebug out v = writeDebug out v')
    (fun out first vs => ∀ vs', List.Forall₂ (Like r) vs vs' →
      writeDebugItems out first vs = writeDebugItems out first vs')
  case case1 =>
    intro out name v' h
    cases h
    rfl
  case case2 =>
    intro out items tag origin ih v' h
    cases h with
    | list items _ => rw [writeDebug, writeDebug, ih _ items]
  case case3 =>
    intro out v notSymbol notList v' h
    cases h with
    | symbol name => exact (notSymbol name rfl).elim
    | list _ _ => exact (notList _ _ _ rfl).elim
    | closure _ _ _ => simp only [writeDebug, write]
    | _ => rfl
  case case4 =>
    intro out first vs' h
    cases h
    rfl
  case case5 =>
    intro out first v vs ihv ih vs' h
    cases h with
    | cons head tail => rw [writeDebugItems, writeDebugItems, ih _ tail, ihv _ head]

theorem Like.debug (h : Like r v v') : v.debug = v'.debug :=
  (writeDebugs_like r).1 "" v v' h

theorem equalsAll_like {as as' bs bs' : List Value}
    (each : ∀ a ∈ as, ∀ a' b b', Like r a a' → Like r b b' → a.equals b = a'.equals b')
    (ha : List.Forall₂ (Like r) as as') (hb : List.Forall₂ (Like r) bs bs') :
    equalsAll as bs = equalsAll as' bs' := by
  induction ha generalizing bs bs' with
  | nil => cases hb <;> rfl
  | cons head tail ih =>
    cases hb with
    | nil => rfl
    | cons head' tail' =>
      have first := each _ List.mem_cons_self _ _ _ head head'
      have rest := ih (fun a member => each a (List.mem_cons_of_mem _ member)) tail'
      rw [equalsAll, equalsAll, first, rest]

/-- Like values compare alike with like values. -/
theorem Like.equals {a a' b b' : Value} (ha : Like r a a') (hb : Like r b b') :
    a.equals b = a'.equals b' := by
  induction a generalizing a' b b' with
  | list items tag origin ih =>
    cases ha with
    | list hitems _ =>
      cases hb with
      | list hothers _ =>
        rw [Value.equals, Value.equals]
        exact equalsAll_like (fun a member _ _ _ => ih a member) hitems hothers
      | _ => rfl
  | closure id params body env ih =>
    cases ha with
    | closure hid _ _ =>
      cases hb with
      | closure hother _ _ => simp only [Value.equals, beq_eq_beq, r.closure_iff hid hother]
      | _ => rfl
  | _ =>
    cases ha
    cases hb <;> rfl

theorem Like.quoted (h : Like r v v') : Like r v.quoted v'.quoted := by
  induction v generalizing v' with
  | list items tag origin ih =>
    cases h with
    | list hitems horigin =>
      cases tag with
      | code =>
        rw [quoted_code, quoted_code]
        refine .list ?_ horigin
        induction hitems with
        | nil => exact .nil
        | cons head tail ih' =>
          exact .cons (ih _ List.mem_cons_self head)
            (ih' fun v member => ih v (List.mem_cons_of_mem _ member))
      | _ => exact .list hitems horigin
  | closure id params body env ih =>
    cases h with
    | closure hid hbody henv => exact .closure hid hbody henv
  | _ => cases h; constructor

theorem Like.refl {r : Renaming} (origin : ∀ o, r.origin o o) (frame : ∀ f, r.frame f f)
    (closure : ∀ i, r.closure i i) (v : Value) : Like r v v := by
  induction v with
  | list items tag o ih => exact .list (List.forall₂_same.2 ih) (origin o)
  | closure id params body env ih =>
    exact .closure (closure id) (List.forall₂_same.2 ih) (frame env)
  | _ => constructor

end Value

end LazyLisp
