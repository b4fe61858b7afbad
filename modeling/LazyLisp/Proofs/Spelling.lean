import LazyLisp.Proofs.CodeAndData
import LazyLisp.Proofs.Origins
import LazyLisp.Proofs.Reading

/-!
# Values written back as tokens

A value is written as pieces: a list as its items between parentheses, anything else as itself. A
token says one piece. What was read from tokens is written back as what the tokens say, and no two
programs are written alike, origins apart.
-/

namespace LazyLisp

/-- What a token says once its atom is read. -/
inductive Piece where
  | opening
  | closing
  | atom (v : Value)

/-- The piece opens a list. -/
def Piece.opens : Piece → Bool
  | .opening => true
  | _ => false

/-- The piece closes a list. -/
def Piece.closes : Piece → Bool
  | .closing => true
  | _ => false

/-- What the token says; a literal that is too large says nothing. -/
def Token.piece (t : Token) : Except Fault Piece :=
  match t.kind with
  | .opening => .ok .opening
  | .closing => .ok .closing
  | .atom => (Reader.atom t.lexeme).map .atom

/-- The tokens say the pieces, one each and in order. -/
def Spells (tokens : List Token) (pieces : List Piece) : Prop :=
  List.Forall₂ (fun t p => t.piece = .ok p) tokens pieces

namespace Value

mutual

/-- The value in writing. -/
def pieces : Value → List Piece
  | .list items _ _ => .opening :: (piecesAll items ++ [.closing])
  | v => [.atom v]

/-- The values in writing, one after the other. -/
def piecesAll : List Value → List Piece
  | [] => []
  | v :: vs => pieces v ++ piecesAll vs

end

theorem balanced_piecesAll {vs : List Value}
    (each : ∀ v ∈ vs, Balanced Piece.opens Piece.closes v.pieces) :
    Balanced Piece.opens Piece.closes (piecesAll vs) := by
  induction vs with
  | nil => exact .nil
  | cons v vs ih =>
    obtain ⟨first, rest⟩ := List.forall_mem_cons.1 each
    exact first.append (ih rest)

/-- In writing, every list is closed. -/
theorem balanced_pieces (v : Value) : Balanced Piece.opens Piece.closes v.pieces := by
  induction v with
  | list items tag origin ih => exact .wrap rfl rfl rfl rfl (balanced_piecesAll ih)
  | _ => exact .single rfl rfl

/-- The first piece of a value in writing does not close a list. -/
theorem pieces_ne_closing (v : Value) (rest more : List Piece) :
    v.pieces ++ rest ≠ .closing :: more := by
  cases v <;> simp [pieces]

/-- Lists whose items, written up to the closing parenthesis, are the same. -/
theorem bare_of_piecesAll {vs ws : List Value} {rest rest' : List Piece}
    (each : ∀ v ∈ vs, ∀ w ∈ ws, ∀ rest rest', v.pieces ++ rest = w.pieces ++ rest' →
      v.bare = w.bare ∧ rest = rest')
    (same : piecesAll vs ++ .closing :: rest = piecesAll ws ++ .closing :: rest') :
    vs.map bare = ws.map bare ∧ rest = rest' := by
  induction vs generalizing ws with
  | nil =>
    cases ws with
    | nil => simpa [piecesAll] using same
    | cons w ws =>
      simp only [piecesAll, List.nil_append, List.append_assoc] at same
      exact absurd same.symm (pieces_ne_closing w _ _)
  | cons v vs ih =>
    cases ws with
    | nil =>
      simp only [piecesAll, List.nil_append, List.append_assoc] at same
      exact absurd same (pieces_ne_closing v _ _)
    | cons w ws =>
      simp only [piecesAll, List.append_assoc] at same
      obtain ⟨first, others⟩ := each v List.mem_cons_self w List.mem_cons_self _ _ same
      obtain ⟨items, rests⟩ := ih (fun v hv w hw => each v (List.mem_cons_of_mem _ hv) w
        (List.mem_cons_of_mem _ hw)) others
      exact ⟨by rw [List.map_cons, List.map_cons, first, items], rests⟩

/-- **Writing is unambiguous.** Where code is written is seen from the pieces alone. -/
theorem IsCode.bare_of_pieces {v w : Value} (hv : v.IsCode) (hw : w.IsCode)
    {rest rest' : List Piece} (same : v.pieces ++ rest = w.pieces ++ rest') :
    v.bare = w.bare ∧ rest = rest' := by
  induction hv generalizing w rest rest' with
  | int n =>
    cases hw with
    | int m => simpa [pieces, bare] using same
    | _ => simp [pieces] at same
  | symbol name =>
    cases hw with
    | symbol other => simpa [pieces, bare] using same
    | _ => simp [pieces] at same
  | @list items origin _ ih =>
    cases hw with
    | @list items' origin' inside =>
      simp only [pieces, List.cons_append, List.append_assoc, List.cons.injEq, true_and] at same
      obtain ⟨alike, rests⟩ := bare_of_piecesAll
        (fun v hv w hw rest rest' => ih v hv (inside w hw)) same
      exact ⟨by simp only [bare, bareAll_eq, alike], rests⟩
    | _ => simp [pieces] at same

theorem map_bare_of_piecesAll {vs ws : List Value} (hv : ∀ v ∈ vs, v.IsCode)
    (hw : ∀ w ∈ ws, w.IsCode) (same : piecesAll vs = piecesAll ws) : vs.map bare = ws.map bare :=
  (bare_of_piecesAll (fun v mv w mw _ _ => (hv v mv).bare_of_pieces (hw w mw))
    (congrArg (· ++ [Piece.closing]) same)).1

end Value

/-- The tokens determine the pieces that they say. -/
theorem Spells.unique {tokens : List Token} {p q : List Piece} (h : Spells tokens p)
    (h' : Spells tokens q) : p = q := by
  induction h generalizing q with
  | nil => cases h'; rfl
  | cons head _ ih =>
    cases h' with
    | cons head' rest' =>
      rw [Except.ok.inj (head.symm.trans head'), ih rest']

/-- A token has the brackets of the piece that it says. -/
theorem Token.brackets_of_piece {t : Token} {p : Piece} (said : t.piece = .ok p) :
    t.opens = p.opens ∧ t.closes = p.closes := by
  unfold Token.piece at said
  unfold Token.opens Token.closes
  cases kind : t.kind with
  | opening =>
    rw [kind] at said
    cases said
    exact ⟨rfl, rfl⟩
  | closing =>
    rw [kind] at said
    cases said
    exact ⟨rfl, rfl⟩
  | atom =>
    cases read : Reader.atom t.lexeme with
    | error f =>
      rw [kind, read] at said
      cases said
    | ok v =>
      rw [kind, read] at said
      cases said
      exact ⟨rfl, rfl⟩

theorem Spells.exists_piece {tokens : List Token} {p : List Piece} (h : Spells tokens p)
    {tok : Token} (member : tok ∈ tokens) : ∃ q, tok.piece = .ok q := by
  induction h with
  | nil => simp at member
  | cons head _ ih =>
    rcases List.mem_cons.1 member with rfl | later
    · exact ⟨_, head⟩
    · exact ih later

/-- Tokens have the brackets of the pieces that they say, and no literal that is too large. -/
theorem Spells.readable {tokens : List Token} {p : List Piece} (h : Spells tokens p)
    (balanced : Balanced Piece.opens Piece.closes p) :
    Balanced Token.opens Token.closes tokens ∧
      ∀ tok ∈ tokens, tok.kind = .atom → ¬ Reader.TooLarge tok.lexeme := by
  constructor
  · exact balanced.of_forall₂ (fun _ _ said => Token.brackets_of_piece said) h
  · intro tok member kind large
    obtain ⟨q, said⟩ := h.exists_piece member
    have refused := Reader.atom_eq_error_iff.2 ⟨large, rfl⟩
    simp only [Token.piece, kind, refused] at said
    cases said

/-- Only kinds and lexemes count. -/
theorem Spells.congr {a b : List Token} {p : List Piece}
    (same : a.map (fun t => (t.kind, t.lexeme)) = b.map fun t => (t.kind, t.lexeme))
    (h : Spells b p) : Spells a p := by
  induction h generalizing a with
  | nil =>
    rw [List.map_eq_nil_iff.1 same]
    exact .nil
  | cons head _ ih =>
    obtain ⟨t, a, rfl, first, rest⟩ := List.map_eq_cons_iff.1 same
    simp only [Prod.mk.injEq] at first
    refine .cons ?_ (ih rest)
    rw [← head, Token.piece, Token.piece, first.1, first.2]

theorem Spells.append {a b : List Token} {p q : List Piece} (h : Spells a p) (h' : Spells b q) :
    Spells (a ++ b) (p ++ q) :=
  List.rel_append h h'

namespace Reader

/-- An atom is an integer or a symbol. -/
theorem isCode_of_atom {lexeme : String} {v : Value} (h : atom lexeme = .ok v) :
    v.IsCode ∧ v.pieces = [.atom v] := by
  unfold atom at h
  split at h
  · cases h
    exact ⟨.symbol lexeme, rfl⟩
  · split at h
    · cases h
      exact ⟨.int _, rfl⟩
    · cases h

variable {t : SourceTree} {parent first next : Nat} {tokens : List Token} {values : List Value}

theorem Recorded.isCode (h : Recorded t parent first next tokens values) :
    ∀ v ∈ values, v.IsCode := by
  induction h with
  | nil => simp
  | atom _ read _ ih => exact List.forall_mem_cons.2 ⟨(isCode_of_atom read).1, ih⟩
  | list _ _ _ _ _ ihInner ihRest => exact List.forall_mem_cons.2 ⟨.list ihInner, ihRest⟩

/-- What was read is written back as what the tokens say. -/
theorem Recorded.spells (h : Recorded t parent first next tokens values) :
    Spells tokens (Value.piecesAll values) := by
  induction h with
  | nil => exact .nil
  | atom kind read _ ih =>
    rw [Value.piecesAll, (isCode_of_atom read).2]
    refine .cons ?_ ih
    simp [Token.piece, kind, read, Except.map]
  | @list _ _ _ _ o c inner rest items values ho hc _ _ _ ihInner ihRest =>
    have opening : o.piece = .ok .opening := by simp [Token.piece, ho]
    have closing : c.piece = .ok .closing := by simp [Token.piece, hc]
    have written : Spells (o :: (inner ++ c :: rest))
        (.opening :: (Value.piecesAll items ++ .closing :: Value.piecesAll values)) :=
      .cons opening (ihInner.append (.cons closing ihRest))
    simpa [Value.piecesAll, Value.pieces] using written

/-- Tokens that say some code are read as that code, origins apart. -/
theorem exists_readTokens_of_spells {values : List Value} (code : ∀ v ∈ values, v.IsCode)
    (h : Spells tokens (Value.piecesAll values)) (stop : Nat) (t : SourceTree) :
    ∃ items t', readTokens tokens stop t = .ok (.list items .code (some t.nextId)) t' ∧
      items.map Value.bare = values.map Value.bare := by
  have readable := h.readable (Value.balanced_piecesAll fun v _ => v.balanced_pieces)
  obtain ⟨program, t', read⟩ := (exists_readTokens_iff tokens stop t).2 readable
  rcases readTokens_cases tokens stop t with ⟨_, _, again, accepted⟩ | ⟨d, _, again, -⟩
  · obtain ⟨items, rfl, recorded⟩ := accepted.recorded
    have same := recorded.spells.unique h
    exact ⟨items, _, again, Value.map_bare_of_piecesAll recorded.isCode code same⟩
  · rw [read] at again
    cases again

end Reader

end LazyLisp
