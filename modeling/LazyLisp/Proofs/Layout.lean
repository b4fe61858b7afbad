import LazyLisp.Proofs.Reading
import LazyLisp.Token

/-!
# How tokens lie in a text

`Layout offset cs tokens` says that the characters `cs`, which begin at byte `offset`, consist of
the tokens and of separators between them, where no atom ends before it must. Every text has a
layout, and its tokens are those that the lexer finds. Parentheses are the same in a text and in its
tokens; so a text can be taken apart at any of them, and a part that begins and ends with a
parenthesis is laid out anywhere as it is in its place.
-/

namespace LazyLisp

/-- The number of bytes that characters take. -/
def bytes (cs : List Char) : Nat := (String.ofList cs).utf8ByteSize

@[simp] theorem bytes_nil : bytes [] = 0 := rfl

@[simp] theorem bytes_append (a b : List Char) : bytes (a ++ b) = bytes a + bytes b := by
  simp [bytes, String.ofList_append, String.utf8ByteSize_append]

@[simp] theorem bytes_cons (c : Char) (cs : List Char) :
    bytes (c :: cs) = c.utf8Size + bytes cs := by
  have split : bytes ([c] ++ cs) = bytes [c] + bytes cs := bytes_append [c] cs
  have one : bytes [c] = c.utf8Size := String.utf8ByteSize_singleton
  rw [← one, ← split]
  rfl

/-- The character of a parenthesis. -/
def Token.Kind.bracket? : Token.Kind → Option Char
  | .opening => some '('
  | .closing => some ')'
  | .atom => none

/-- The token of the given kind that the characters `word` make at `offset`. -/
def Token.at (kind : Token.Kind) (word : List Char) (offset : Nat) : Token :=
  ⟨kind, String.ofList word, ⟨offset, offset + bytes word⟩⟩

/-- The characters from byte `offset` on consist of the tokens and of separators. An atom goes on as
long as it can. -/
inductive Layout : (offset : Nat) → List Char → List Token → Prop
  | done {offset : Nat} : Layout offset [] []
  | separator {offset : Nat} {c : Char} {cs : List Char} {tokens : List Token} :
    isSeparator c = true → Layout (offset + c.utf8Size) cs tokens → Layout offset (c :: cs) tokens
  | bracket {offset : Nat} {c : Char} {kind : Token.Kind} {cs : List Char} {tokens : List Token} :
    kind.bracket? = some c → Layout (offset + c.utf8Size) cs tokens →
      Layout offset (c :: cs) (Token.at kind [c] offset :: tokens)
  | atom {offset : Nat} {word cs : List Char} {tokens : List Token} :
    word ≠ [] → (∀ c ∈ word, isAtomChar c = true) → (∀ c ∈ cs.head?, isAtomChar c = false) →
      Layout (offset + bytes word) cs tokens →
      Layout offset (word ++ cs) (Token.at .atom word offset :: tokens)

/-! ## The lexer finds the layout -/

namespace Lexer

theorem feed_atomChar (s : Lexer) {c : Char} (h : isAtomChar c = true) : s.feed c = s.extend c := by
  simp only [isAtomChar, Bool.and_eq_true, Bool.not_eq_true', bne_iff_ne] at h
  obtain ⟨⟨separator, opening⟩, closing⟩ := h
  simp [feed, separator, opening, closing]

theorem foldl_feed_word {word : List Char} (h : ∀ c ∈ word, isAtomChar c = true) (s : Lexer) :
    word.foldl feed s = word.foldl extend s := by
  induction word generalizing s with
  | nil => rfl
  | cons c word ih =>
    obtain ⟨first, rest⟩ := List.forall_mem_cons.1 h
    rw [List.foldl_cons, List.foldl_cons, feed_atomChar s first, ih rest]

/-- While an atom is read, its characters pile up. -/
theorem foldl_extend (word : List Char) {s : Lexer} (inside : s.pending ≠ []) :
    word.foldl extend s =
      { s with pending := word.reverse ++ s.pending, position := s.position + bytes word } := by
  induction word generalizing s with
  | nil => rfl
  | cons c word ih =>
    have begun : s.pending.isEmpty = false := by simpa using inside
    rw [List.foldl_cons, ih (List.cons_ne_nil _ _)]
    simp [extend, begun, Nat.add_assoc]

/-- The state of the lexer between two tokens. -/
def between (tokens : Array Token) (start position : Nat) : Lexer := ⟨tokens, [], start, position⟩

theorem foldl_feed_atom {word : List Char} (nonempty : word ≠ [])
    (h : ∀ c ∈ word, isAtomChar c = true) (tokens : Array Token) (start position : Nat) :
    word.foldl feed (between tokens start position) =
      ⟨tokens, word.reverse, position, position + bytes word⟩ := by
  rw [foldl_feed_word h]
  cases word with
  | nil => exact absurd rfl nonempty
  | cons c word =>
    rw [List.foldl_cons, foldl_extend word (List.cons_ne_nil _ _)]
    simp [between, extend, Nat.add_assoc]

/-- An atom is ended by the next character as it is by the end of the text. -/
theorem feed_flush (s : Lexer) {c : Char} (h : isAtomChar c = false) :
    s.feed c = s.flush.feed c := by
  have position : s.flush.position = s.position := by
    unfold flush
    split <;> rfl
  have again : s.flush.flush = s.flush := by
    cases pending : s.pending <;> simp [flush, pending]
  have cases : isSeparator c = true ∨ c = '(' ∨ c = ')' := by
    by_cases separator : isSeparator c = true
    · exact .inl separator
    · right
      simpa [isAtomChar, separator, Classical.or_iff_not_imp_left] using h
  rcases cases with separator | rfl | rfl
  · simp [feed, separator, separate, again, position]
  · simp [feed, isSeparator, bracket, again, position]
  · simp [feed, isSeparator, bracket, again, position]

end Lexer

open Lexer in
/-- From a state between two tokens, the lexer adds the tokens of the layout. -/
theorem Layout.lexed {offset : Nat} {cs : List Char} {found : List Token}
    (h : Layout offset cs found) (tokens : Array Token) (start : Nat) :
    (cs.foldl feed (between tokens start offset)).flush.tokens.toList = tokens.toList ++ found := by
  induction h generalizing tokens start with
  | done => simp [between, flush]
  | @separator offset c cs found separator _ ih =>
    have fed : (between tokens start offset).feed c =
        between tokens start (offset + c.utf8Size) := by
      simp [feed, separator, separate, between, flush]
    rw [List.foldl_cons, fed, ih]
  | @bracket offset c kind cs found isBracket _ ih =>
    have fed : (between tokens start offset).feed c =
        between (tokens.push (Token.at kind [c] offset)) start (offset + c.utf8Size) := by
      cases kind with
      | opening =>
        obtain rfl := Option.some.inj isBracket
        rfl
      | closing =>
        obtain rfl := Option.some.inj isBracket
        rfl
      | atom => cases isBracket
    rw [List.foldl_cons, fed, ih]
    simp
  | @atom offset word cs found nonempty inside maximal _ ih =>
    rw [List.foldl_append, foldl_feed_atom nonempty inside]
    obtain ⟨c, pending, reversed⟩ : ∃ c pending, word.reverse = c :: pending :=
      List.exists_cons_of_ne_nil (by simpa using nonempty)
    have flushed : Lexer.flush ⟨tokens, word.reverse, offset, offset + bytes word⟩ =
        between (tokens.push (Token.at .atom word offset)) offset (offset + bytes word) := by
      have back : (c :: pending).reverse = word := by rw [← reversed, List.reverse_reverse]
      simp [flush, between, Token.at, ← back]
    -- what follows the atom ends it, so the lexer may as well stand between two tokens
    have ended : (cs.foldl feed ⟨tokens, word.reverse, offset, offset + bytes word⟩).flush =
        (cs.foldl feed (between (tokens.push (Token.at .atom word offset)) offset
          (offset + bytes word))).flush := by
      rw [← flushed]
      cases cs with
      | nil => rw [List.foldl_nil, List.foldl_nil, flushed]; rfl
      | cons d cs => rw [List.foldl_cons, List.foldl_cons, feed_flush _ (maximal d (by simp))]
    rw [ended, ih]
    simp

/-- Every text has a layout. The induction is on the length, since an atom is taken off whole. -/
theorem exists_layout (offset : Nat) (cs : List Char) : ∃ tokens, Layout offset cs tokens := by
  generalize length : cs.length = n
  induction n using Nat.strongRecOn generalizing offset cs with
  | ind n ih =>
    cases cs with
    | nil => exact ⟨[], .done⟩
    | cons c cs =>
      have next : cs.length < n := by rw [← length, List.length_cons]; exact Nat.lt_succ_self _
      by_cases inAtom : isAtomChar c = true
      · have split : (c :: cs).takeWhile isAtomChar ++ (c :: cs).dropWhile isAtomChar = c :: cs :=
          List.takeWhile_append_dropWhile
        have shorter : ((c :: cs).dropWhile isAtomChar).length < n := by
          rw [List.dropWhile_cons_of_pos inAtom]
          exact Nat.lt_of_le_of_lt (List.dropWhile_sublist isAtomChar).length_le next
        obtain ⟨tokens, rest⟩ :=
          ih _ shorter (offset + bytes ((c :: cs).takeWhile isAtomChar)) _ rfl
        rw [← split]
        refine ⟨_, .atom ?_ (fun d member => ?_) (fun d first => ?_) rest⟩
        · simp [List.takeWhile_cons_of_pos inAtom]
        · exact List.all_eq_true.1 List.all_takeWhile d member
        · have stops := List.head?_dropWhile_not isAtomChar (c :: cs)
          rw [Option.mem_def.1 first] at stops
          simpa using stops
      · obtain ⟨tokens, rest⟩ := ih _ next (offset + c.utf8Size) cs rfl
        by_cases separator : isSeparator c = true
        · exact ⟨tokens, .separator separator rest⟩
        · by_cases opening : c = '('
          · have isBracket : Token.Kind.opening.bracket? = some c := by rw [opening]; rfl
            exact ⟨_, .bracket isBracket rest⟩
          · have closing : c = ')' := by
              simpa [isAtomChar, separator, opening] using inAtom
            have isBracket : Token.Kind.closing.bracket? = some c := by rw [closing]; rfl
            exact ⟨_, .bracket isBracket rest⟩

/-- **The lexer finds the layout of a text,** and a text has no other. -/
theorem layout_iff_tokenize {source : String} {tokens : List Token} :
    Layout 0 source.toList tokens ↔ tokenize source = tokens := by
  have found : ∀ {tokens}, Layout 0 source.toList tokens → tokenize source = tokens :=
    fun h => h.lexed #[] 0
  constructor
  · exact found
  · rintro rfl
    obtain ⟨tokens, layout⟩ := exists_layout 0 source.toList
    rw [found layout]
    exact layout

/-! ## Parts of a text -/

namespace Layout

variable {offset : Nat} {cs : List Char} {tokens before after : List Token} {tok : Token}

/-- A text is taken apart at a parenthesis. -/
theorem split {c : Char} (h : Layout offset cs (before ++ tok :: after))
    (isBracket : tok.kind.bracket? = some c) :
    ∃ x y, cs = x ++ c :: y ∧ Layout offset x before ∧
      tok.span = ⟨offset + bytes x, offset + bytes x + c.utf8Size⟩ ∧
      Layout (offset + bytes x + c.utf8Size) y after := by
  generalize all : before ++ tok :: after = found at h
  induction h generalizing before with
  | done => simp at all
  | @separator offset d cs found separator _ ih =>
    obtain ⟨x, y, rfl, first, place, rest⟩ := ih all
    refine ⟨d :: x, y, rfl, .separator separator first, ?_, ?_⟩
    · simpa [Nat.add_assoc] using place
    · simpa [Nat.add_assoc] using rest
  | @bracket offset d kind cs found isBracket' rest ih =>
    cases before with
    | nil =>
      obtain ⟨rfl, rfl⟩ := List.cons.inj all
      obtain rfl : d = c := Option.some.inj (isBracket'.symm.trans isBracket)
      exact ⟨[], cs, rfl, .done, by simp [Token.at], rest⟩
    | cons t before =>
      obtain ⟨rfl, same⟩ := List.cons.inj all
      obtain ⟨x, y, rfl, first, place, rest⟩ := ih same
      refine ⟨d :: x, y, rfl, .bracket isBracket' first, ?_, ?_⟩
      · simpa [Nat.add_assoc] using place
      · simpa [Nat.add_assoc] using rest
  | @atom offset word cs found nonempty inside maximal _ ih =>
    cases before with
    | nil =>
      obtain ⟨rfl, -⟩ := List.cons.inj all
      cases isBracket
    | cons t before =>
      obtain ⟨rfl, same⟩ := List.cons.inj all
      obtain ⟨x, y, rfl, first, place, rest⟩ := ih same
      refine ⟨word ++ x, y, by simp, .atom nonempty inside (fun d head => ?_) first, ?_, ?_⟩
      · -- the part before the parenthesis begins as the whole rest did
        exact maximal d (by rw [List.head?_append, Option.mem_def.1 head]; rfl)
      · simpa [Nat.add_assoc] using place
      · simpa [Nat.add_assoc] using rest

/-- A text is put together where the second part does not go on with an atom. -/
theorem append {x y : List Char} (h : Layout offset x before)
    (h' : Layout (offset + bytes x) y after) (ends : ∀ c ∈ y.head?, isAtomChar c = false) :
    Layout offset (x ++ y) (before ++ after) := by
  induction h with
  | done => simpa using h'
  | separator separator _ ih =>
    exact .separator separator (ih (by simpa [Nat.add_assoc] using h'))
  | bracket isBracket _ ih =>
    exact .bracket isBracket (ih (by simpa [Nat.add_assoc] using h'))
  | @atom offset word cs found nonempty inside maximal _ ih =>
    rw [List.append_assoc]
    refine .atom nonempty inside (fun d head => ?_) (ih (by simpa [Nat.add_assoc] using h'))
    cases cs with
    | nil => exact ends d head
    | cons e cs => exact maximal d head

/-- A text between parentheses. -/
theorem wrap (h : Layout (offset + 1) cs tokens) :
    Layout offset ('(' :: (cs ++ [')'])) (Token.at .opening ['('] offset ::
      (tokens ++ [Token.at .closing [')'] (offset + 1 + bytes cs)])) := by
  have close : Layout (offset + 1 + bytes cs) [')']
      [Token.at .closing [')'] (offset + 1 + bytes cs)] := .bracket rfl .done
  have ends : ∀ c ∈ [')'].head?, isAtomChar c = false := by simp [isAtomChar]
  exact .bracket rfl (h.append close ends)

/-- The same characters elsewhere make tokens of the same kinds and lexemes. -/
theorem moved (h : Layout offset cs tokens) (offset' : Nat) :
    ∃ tokens', Layout offset' cs tokens' ∧
      tokens'.map (fun t => (t.kind, t.lexeme)) = tokens.map fun t => (t.kind, t.lexeme) := by
  induction h generalizing offset' with
  | done => exact ⟨[], .done, rfl⟩
  | @separator _ c _ _ separator _ ih =>
    obtain ⟨tokens', layout, same⟩ := ih (offset' + c.utf8Size)
    exact ⟨tokens', .separator separator layout, same⟩
  | @bracket _ c _ _ _ isBracket _ ih =>
    obtain ⟨tokens', layout, same⟩ := ih (offset' + c.utf8Size)
    exact ⟨_, .bracket isBracket layout, by simp [Token.at, same]⟩
  | @atom _ word _ _ nonempty inside maximal _ ih =>
    obtain ⟨tokens', layout, same⟩ := ih (offset' + bytes word)
    exact ⟨_, .atom nonempty inside maximal layout, by simp [Token.at, same]⟩

/-! ## Parentheses in a text and in its tokens -/

/-- The character is a parenthesis. -/
def isParenthesis (c : Char) : Bool := c == '(' || c == ')'

/-- The parentheses of a text are those of its tokens. -/
theorem brackets (h : Layout offset cs tokens) :
    cs.filter isParenthesis = tokens.filterMap fun t => t.kind.bracket? := by
  induction h with
  | done => rfl
  | @separator _ c _ _ separator _ ih =>
    have neither : ¬ isParenthesis c = true := by
      intro bracket
      obtain rfl | rfl : c = '(' ∨ c = ')' := by simpa [isParenthesis] using bracket
      · cases separator
      · cases separator
    rw [List.filter_cons_of_neg neither, ih]
  | @bracket offset c kind _ _ isBracket _ ih =>
    have bracket : isParenthesis c = true := by
      cases kind <;> cases isBracket <;> rfl
    have found : (Token.at kind [c] offset).kind.bracket? = some c := isBracket
    rw [List.filter_cons_of_pos bracket, List.filterMap_cons, found, ih]
  | @atom _ word _ _ _ inside _ _ ih =>
    have neither : word.filter isParenthesis = [] := by
      rw [List.filter_eq_nil_iff]
      intro c member bracket
      have atomChar := inside c member
      simp only [isAtomChar, Bool.and_eq_true, bne_iff_ne] at atomChar
      simp [isParenthesis, atomChar.1.2, atomChar.2] at bracket
    rw [List.filter_append, neither, List.nil_append, List.filterMap_cons_none rfl, ih]

/-- Where the parentheses are the same, their numbers are. -/
theorem counts_of_brackets {p : List Char} {q : List Token}
    (same : p.filter isParenthesis = q.filterMap fun t => t.kind.bracket?) :
    p.countP (· == '(') = q.countP Token.opens ∧ p.countP (· == ')') = q.countP Token.closes := by
  have opened := congrArg (List.countP (· == '(')) same
  have closed := congrArg (List.countP (· == ')')) same
  rw [List.countP_filter, List.countP_filterMap] at opened closed
  constructor
  · refine Eq.trans (List.countP_congr fun c _ => ?_)
      (opened.trans (List.countP_congr fun t _ => ?_))
    · simp +contextual [isParenthesis]
    · cases kind : t.kind <;> simp [Token.opens, Token.Kind.bracket?, kind]
  · refine Eq.trans (List.countP_congr fun c _ => ?_)
      (closed.trans (List.countP_congr fun t _ => ?_))
    · simp +contextual [isParenthesis]
    · cases kind : t.kind <;> simp [Token.closes, Token.Kind.bracket?, kind]

/-- A text with balanced tokens has balanced parentheses. -/
theorem balanced (h : Layout offset cs tokens) (even : Balanced Token.opens Token.closes tokens) :
    Balanced (· == '(') (· == ')') cs where
  ahead := by
    intro p inside
    have beginning := inside.filter isParenthesis
    rw [h.brackets] at beginning
    obtain ⟨q, before, same⟩ := List.prefix_filterMap_iff.1 beginning
    obtain ⟨opened, closed⟩ := counts_of_brackets same
    rw [opened, closed]
    exact even.ahead q before
  even := by
    obtain ⟨opened, closed⟩ := counts_of_brackets h.brackets
    rw [opened, closed]
    exact even.even

end Layout

end LazyLisp
