import LazyLisp.Proofs.Relational
import LazyLisp.Reader.Program

/-!
# Corresponding readings

The same tokens, read into two source trees. If the trees correspond in a way that opening and
closing a list preserves, then both readings fail with the same report or neither fails, and the
programs they give correspond.
-/

namespace LazyLisp.Reader

/-- What corresponds in two readings: node ids, trees and the values read. The laws are about the
three things a reading does to a tree, and the three sorts of values it makes. -/
structure Correspondence where
  node : NodeId → NodeId → Prop
  tree : SourceTree → SourceTree → Prop
  value : Value → Value → Prop
  tree_next : ∀ {t t'}, tree t t' → node t.nextId t'.nextId
  tree_push : ∀ {t t' parent parent'} (span : Span), tree t t' → Option.Rel node parent parent' →
    tree (t.push span parent) (t'.push span parent')
  tree_close : ∀ {t t' id id'} (stop : Nat) (head : Option String), tree t t' → node id id' →
    tree (t.close id stop head) (t'.close id' stop head)
  value_int : ∀ n, value (.int n) (.int n)
  value_symbol : ∀ name, value (.symbol name) (.symbol name)
  value_list : ∀ {items items' id id'}, List.Forall₂ value items items' → node id id' →
    value (.list items .code (some id)) (.list items' .code (some id'))
  value_name : ∀ {v v'}, value v v' → v.symbol? = v'.symbol?

namespace Correspondence

variable {C : Correspondence}

/-- Lists opened at the same place, with corresponding nodes and items. -/
structure OpenLists (C : Correspondence) (l l' : OpenList) : Prop where
  node : C.node l.node l'.node
  opening : l.opening = l'.opening
  items : List.Forall₂ C.value l.items l'.items

/-- Programs read up to the same token. -/
structure Readings (C : Correspondence) (r r' : Reading) : Prop where
  innermost : C.OpenLists r.innermost r'.innermost
  around : List.Forall₂ C.OpenLists r.around r'.around

theorem OpenLists.add {l l' : OpenList} {v v' : Value} (h : C.OpenLists l l')
    (hv : C.value v v') : C.OpenLists (l.add v) (l'.add v') :=
  ⟨h.node, h.opening, .cons hv h.items⟩

theorem OpenLists.toValue {l l' : OpenList} (h : C.OpenLists l l') :
    C.value l.toValue l'.toValue :=
  C.value_list (List.rel_reverse h.items) h.node

theorem OpenLists.head? {l l' : OpenList} (h : C.OpenLists l l') : l.head? = l'.head? := by
  unfold OpenList.head?
  obtain ⟨e, e'⟩ | ⟨v, v', e, e', hv⟩ := optionRel_cases (getLast?_related h.items)
  · rw [e, e']
  · rw [e, e']
    exact C.value_name hv

theorem atom_related (lexeme : String) : ExceptRel C.value (atom lexeme) (atom lexeme) := by
  unfold atom
  split
  · exact .ok (C.value_symbol lexeme)
  · split
    · exact .ok (C.value_int _)
    · exact .error _

theorem openList_related {parent parent' : Option NodeId} (span : Span)
    (hparent : Option.Rel C.node parent parent') :
    Runs C.tree Eq C.OpenLists (openList span parent) (openList span parent') :=
  fun _ _ trees =>
    .ok ⟨C.tree_next trees, rfl, .nil⟩ (C.tree_push span trees hparent)

/-- One token. -/
theorem feed_related (t : Token) {r r' : Reading} (h : C.Readings r r') :
    Runs C.tree Eq C.Readings (r.feed t) (r'.feed t) := by
  unfold Reading.feed
  cases t.kind with
  | opening =>
    exact (openList_related t.span (.some h.innermost.node)).bind fun _ _ inner =>
      Runs.pure ⟨inner, .cons h.innermost h.around⟩
  | closing =>
    obtain ⟨inner, around⟩ := r
    obtain ⟨inner', around'⟩ := r'
    obtain ⟨hinner, haround⟩ := h
    cases haround with
    | nil => exact Runs.throw rfl
    | cons houter hrest =>
      refine Runs.bind (Runs.modify fun tree tree' trees => ?_) fun _ _ _ =>
        Runs.pure ⟨houter.add hinner.toValue, hrest⟩
      rw [OpenLists.head? hinner]
      exact C.tree_close _ _ trees hinner.node
  | atom =>
    obtain ⟨v, v', e, e', hv⟩ | ⟨f, e, -⟩ := (atom_related (C := C) t.lexeme).cases
    · obtain rfl := Except.ok.inj (e.symm.trans e')
      simp only [e]
      exact Runs.pure ⟨h.innermost.add hv, h.around⟩
    · simp only [e]
      exact Runs.throw rfl

theorem finish_related {r r' : Reading} (h : C.Readings r r') :
    Runs C.tree Eq C.value r.finish r'.finish := by
  obtain ⟨inner, around⟩ := r
  obtain ⟨inner', around'⟩ := r'
  obtain ⟨hinner, haround⟩ := h
  cases haround with
  | nil => exact Runs.pure (OpenLists.toValue hinner)
  | cons _ _ =>
    refine Runs.throw ?_
    rw [show inner.opening = inner'.opening from hinner.opening]

/-- A whole program: the step for one token, folded over the tokens. -/
theorem readTokens_related (tokens : List Token) (stop : Nat) :
    Runs C.tree Eq C.value (readTokens tokens stop) (readTokens tokens stop) := by
  refine (openList_related _ .none).bind fun root root' hroot => ?_
  have same : List.Forall₂ Eq tokens tokens := List.forall₂_same.2 fun _ _ => rfl
  refine (Runs.foldlM same (B := C.Readings) ⟨hroot, .nil⟩ fun r r' t t' hr ht => ?_).bind
    fun _ _ => finish_related
  subst ht
  exact feed_related t hr

theorem readProgram_related (source : String) :
    Runs C.tree Eq C.value (readProgram source) (readProgram source) :=
  readTokens_related _ _

end Correspondence

end LazyLisp.Reader
