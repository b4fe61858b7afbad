import LazyLisp.Proofs.Literal
import LazyLisp.Proofs.SourceNodes
import LazyLisp.Session

/-!
# Printing undoes reading

What was read from a source prints as a text that is read as the same again, origins apart: a
printed number is a literal of that number, a symbol read from a text is one word of it, and in
print no two atoms touch. Quoting changes the tags of lists, which are not printed, so the value of
`(quote d)` prints as `d` does.
-/

namespace LazyLisp

/-! ## Texts and what they say -/

/-- The characters make one atom: there are some, and none of them ends it. -/
structure Word (cs : List Char) : Prop where
  nonempty : cs ≠ []
  inside : ∀ c ∈ cs, isAtomChar c = true

/-- The atoms of a text are words. -/
theorem Layout.words {offset : Nat} {cs : List Char} {tokens : List Token}
    (h : Layout offset cs tokens) {tok : Token} (member : tok ∈ tokens) (kind : tok.kind = .atom) :
    Word tok.lexeme.toList := by
  induction h with
  | done => cases member
  | separator _ _ ih => exact ih member
  | bracket isBracket _ ih =>
    rcases List.mem_cons.1 member with rfl | later
    · obtain rfl : _ = Token.Kind.atom := kind
      cases isBracket
    · exact ih later
  | atom nonempty inside _ _ ih =>
    rcases List.mem_cons.1 member with rfl | later
    · exact ⟨by simpa [Token.at] using nonempty, by simpa [Token.at] using inside⟩
    · exact ih later

/-- Wherever the text stands, it is laid out as tokens that say the pieces. -/
def Says (text : String) (pieces : List Piece) : Prop :=
  ∀ offset, ∃ tokens, Layout offset text.toList tokens ∧ Spells tokens pieces

namespace Says

variable {a b : String} {p q : List Piece}

theorem empty : Says "" [] := fun _ => ⟨[], .done, .nil⟩

theorem word {v : Value} (h : Word a.toList) (read : Reader.atom a = .ok v) : Says a [.atom v] := by
  intro offset
  have layout : Layout offset (a.toList ++ []) [Token.at .atom a.toList offset] :=
    .atom h.nonempty h.inside (by simp) .done
  rw [List.append_nil] at layout
  refine ⟨_, layout, .cons ?_ .nil⟩
  simp [Token.piece, Token.at, read, Except.map]

theorem append (ha : Says a p) (hb : Says b q) (ends : ∀ c ∈ b.toList.head?, isAtomChar c = false) :
    Says (a ++ b) (p ++ q) := by
  intro offset
  obtain ⟨tokens, layout, spells⟩ := ha offset
  obtain ⟨tokens', layout', spells'⟩ := hb (offset + bytes a.toList)
  refine ⟨tokens ++ tokens', ?_, spells.append spells'⟩
  rw [String.toList_append]
  exact layout.append layout' ends

theorem after_space (h : Says a p) : Says (" " ++ a) p := by
  intro offset
  obtain ⟨tokens, layout, spells⟩ := h (offset + ' '.utf8Size)
  exact ⟨tokens, by simpa using layout.separator rfl, spells⟩

theorem wrap (h : Says a p) : Says ("(" ++ a ++ ")") (.opening :: (p ++ [.closing])) := by
  intro offset
  obtain ⟨tokens, layout, spells⟩ := h (offset + 1)
  refine ⟨_, by simpa using layout.wrap, .cons rfl (spells.append (.cons rfl .nil))⟩

theorem spells (h : Says a p) : Spells (tokenize a) p := by
  obtain ⟨tokens, layout, spells⟩ := h 0
  rwa [layout_iff_tokenize.1 layout]

end Says

/-! ## Code that can be read from a text -/

/-- The digits and the sign of a literal are a word. -/
theorem Reader.Literal.word {text : List Char} {n : Int} (h : Literal text n) : Word text := by
  have digit : ∀ c : Char, '0' ≤ c ∧ c ≤ '9' → isAtomChar c = true := by
    intro c range
    have other : ∀ d : Char, ¬ ('0' ≤ d ∧ d ≤ '9') → c ≠ d := by
      rintro d outside rfl
      exact outside range
    simp [isAtomChar, isSeparator, other]
  cases h with
  | natural digits => exact ⟨digits.nonempty, fun c member => digit c (digits.decimal c member)⟩
  | negative digits =>
    refine ⟨List.cons_ne_nil _ _, List.forall_mem_cons.2 ⟨by decide, ?_⟩⟩
    exact fun c member => digit c (digits.decimal c member)

namespace Value

/-- Code whose every symbol is a word that is read as that symbol. -/
inductive Legible : Value → Prop
  | int (n : Int64) : Legible (.int n)
  | symbol {name : String} :
    Word name.toList → Reader.atom name = .ok (.symbol name) → Legible (.symbol name)
  | list {items : List Value} {origin : Option NodeId} :
    (∀ v ∈ items, Legible v) → Legible (.list items .code origin)

theorem legible_list {items : List Value} {origin : Option NodeId} :
    Legible (.list items .code origin) ↔ ∀ v ∈ items, Legible v := by
  constructor
  · rintro (_ | _ | inside)
    exact inside
  · exact .list

theorem Legible.isCode {v : Value} (h : v.Legible) : v.IsCode := by
  induction h with
  | int n => exact .int n
  | symbol _ _ => exact .symbol _
  | list _ ih => exact .list ih

end Value

namespace Reader

/-- A word is read as a number or as the symbol of that name. -/
theorem legible_of_atom {lexeme : String} {v : Value} (word : Word lexeme.toList)
    (read : atom lexeme = .ok v) : v.Legible := by
  have given := read
  unfold atom at read
  split at read
  · cases read
    exact .symbol word given
  · split at read
    · cases read
      exact .int _
    · cases read

theorem Recorded.legible {t : SourceTree} {parent first next : Nat} {tokens : List Token}
    {values : List Value} (h : Recorded t parent first next tokens values)
    (words : ∀ tok ∈ tokens, tok.kind = .atom → Word tok.lexeme.toList) :
    ∀ v ∈ values, v.Legible := by
  induction h with
  | nil => simp
  | atom kind read _ ih =>
    obtain ⟨first, rest⟩ := List.forall_mem_cons.1 words
    exact List.forall_mem_cons.2 ⟨legible_of_atom (first kind) read, ih rest⟩
  | list _ _ _ _ _ ihInner ihRest =>
    obtain ⟨inner, rest⟩ := List.forall_mem_append.1 (List.forall_mem_cons.1 words).2
    exact List.forall_mem_cons.2 ⟨.list (ihInner inner), ihRest (List.forall_mem_cons.1 rest).2⟩

/-- A program that was read is legible. -/
theorem Accepted.legible {source : String} {stop : Nat} {t t' : SourceTree} {program : Value}
    (h : Accepted (tokenize source) stop t program t') : program.Legible := by
  have layout : Layout 0 source.toList (tokenize source) := layout_iff_tokenize.2 rfl
  obtain ⟨forms, rfl, recorded⟩ := h.recorded
  exact .list (recorded.legible fun tok member kind => layout.words member kind)

end Reader

/-- What lies in a legible program is legible. -/
theorem Nested.legible {program : Value} (h : program.Legible) {path : List Value}
    (nested : Nested program path) : ∀ v ∈ path, v.Legible := by
  induction nested with
  | program => exact List.forall_mem_singleton.2 h
  | item _ member ih =>
    refine List.forall_mem_cons.2 ⟨?_, ih⟩
    cases (List.forall_mem_cons.1 ih).1 with
    | list inside => exact inside _ member

/-! ## Printing -/

namespace Value

theorem writeItems_cons (first : Bool) (v : Value) (vs : List Value) :
    writeItems "" first (v :: vs) = gap first ++ (v.display ++ writeItems "" false vs) := by
  have rest := (writes_append (gap first ++ v.display)).2.1 "" false vs
  rw [String.append_empty] at rest
  rw [writeItems, write_eq, String.empty_append, rest, String.append_assoc]

theorem display_list {tag : ListTag} (notCell : tag ≠ .cons) (items : List Value)
    (origin : Option NodeId) :
    display (.list items tag origin) = "(" ++ writeItems "" true items ++ ")" := by
  have inside := (writes_append "(").2.1 "" true items
  cases tag with
  | cons => exact absurd rfl notCell
  | _ => rw [display, write, String.empty_append, ← inside, String.append_empty]; simp

/-- Items in print say what the items are, if each one does. -/
theorem printed_writeItems {vs : List Value} (each : ∀ v ∈ vs, Says v.display v.pieces)
    (first : Bool) : Says (writeItems "" first vs) (piecesAll vs) := by
  induction vs generalizing first with
  | nil =>
    rw [writeItems]
    exact .empty
  | cons v vs ih =>
    obtain ⟨here, others⟩ := List.forall_mem_cons.1 each
    have ends : ∀ c ∈ (writeItems "" false vs).toList.head?, isAtomChar c = false := by
      cases vs with
      | nil => simp [writeItems]
      | cons w ws => simp [writeItems_cons, gap, isAtomChar, isSeparator]
    have said := here.append (ih others false) ends
    rw [writeItems_cons, piecesAll]
    cases first with
    | true => simpa [gap] using said
    | false => exact said.after_space

/-- What can be read prints as a text that says it. -/
theorem Legible.printed {v : Value} (h : v.Legible) : Says v.display v.pieces := by
  induction h with
  | int n =>
    have text : display (.int n) = n.toInt.repr := by rw [display, write, String.empty_append]
    rw [text, pieces]
    · exact .word (Reader.literal_repr n.toInt).word (Reader.atom_repr n)
    · simp
  | @symbol name word read =>
    have text : display (.symbol name) = name := by rw [display, write, String.empty_append]
    rw [text, pieces]
    · exact .word word read
    · simp
  | list _ ih =>
    rw [display_list (by decide), pieces]
    exact (printed_writeItems ih true).wrap

end Value

/-! ## Quoting -/

namespace Value

mutual

/-- The value with nothing said about which of its lists are code and which are data. -/
def untagged : Value → Value
  | .list items _ origin => .list (untaggedAll items) .quoted origin
  | v => v

/-- The values, with nothing said about their lists. -/
def untaggedAll : List Value → List Value
  | [] => []
  | v :: vs => untagged v :: untaggedAll vs

end

theorem untaggedAll_eq (vs : List Value) : untaggedAll vs = vs.map untagged := by
  induction vs with
  | nil => rfl
  | cons v vs ih => rw [untaggedAll, ih, List.map_cons]

/-- Quoting changes tags only. -/
theorem untagged_quoted (v : Value) : v.quoted.untagged = v.untagged := by
  induction v with
  | list items tag origin ih =>
    cases tag with
    | code =>
      rw [quoted_code, untagged, untagged, untaggedAll_eq, untaggedAll_eq, List.map_map]
      congr 1
      exact List.map_congr_left ih
    | _ => rfl
  | _ => rfl

theorem writeItems_map {f : Value → Value} {vs : List Value}
    (same : ∀ v ∈ vs, (f v).display = v.display) (first : Bool) :
    writeItems "" first (vs.map f) = writeItems "" first vs := by
  induction vs generalizing first with
  | nil => rfl
  | cons v vs ih =>
    obtain ⟨here, others⟩ := List.forall_mem_cons.1 same
    rw [List.map_cons, writeItems_cons, writeItems_cons, here, ih others]

/-- Tags are not printed, unless a list is made of cells. -/
theorem display_quoted (v : Value) : v.quoted.display = v.display := by
  induction v with
  | list items tag origin ih =>
    cases tag with
    | code =>
      rw [quoted_code, display_list (by decide), display_list (by decide), writeItems_map ih]
    | _ => rfl
  | _ => rfl

end Value

/-- A quotation gives what it quotes, as data, and changes nothing. -/
theorem Session.eval_quote {s : Session} (spare : s.memory.depth < s.limit) (d : Value)
    (origin : Option NodeId) (env : FrameId) :
    s.eval (.list [.symbol "quote", d] .code origin) env = (.ok d.quoted, s) := by
  obtain ⟨bound, limit⟩ : ∃ bound, s.limit = bound + 1 := ⟨s.limit - 1, by omega⟩
  have evaluated : LazyLisp.eval s.context s.limit (.list [.symbol "quote", d] .code origin) env
      s.memory = .ok d.quoted s.memory := by
    rw [limit]
    exact EvalM.nested_of_ok spare rfl
  rw [Session.eval, perform_eq, evaluated]

/-! ## The round trip -/

namespace Reader

/-- Into whatever tree the text is read, and wherever its source is said to end, it is
one form, which is `v` but for origins. -/
def ReadsBack (text : String) (v : Value) : Prop :=
  ∀ stop t, ∃ form t', readTokens (tokenize text) stop t =
    .ok (.list [form] .code (some t.nextId)) t' ∧ form.bare = v.bare

theorem readsBack_display {v : Value} (h : v.Legible) : ReadsBack v.display v :=
  exists_readTokens_of_pieces h.isCode h.printed.spells

/-- **Printing undoes reading.** A program that was read prints as a text of one form, which is the
program again, up to origins. For whatever form `d` of the program, at any depth, `(quote d)`
evaluates to a value in every frame, if one more evaluation is allowed, and changes nothing: the
value has the structure of `d` but holds no code list, prints as `d` does, and is read from its text
as `d` is, up to origins. -/
theorem printing_undoes_reading {source : String} {stop : Nat} {t t' : SourceTree} {program : Value}
    (read : readTokens (tokenize source) stop t = .ok program t') :
    ReadsBack program.display program ∧
      ∀ d around, Nested program (d :: around) → ∀ (s : Session) env origin,
        s.memory.depth < s.limit →
        ∃ v, s.eval (.list [.symbol "quote", d] .code origin) env = (.ok v, s) ∧
          v.untagged = d.untagged ∧ v.IsData ∧ v.display = d.display ∧ ReadsBack v.display d := by
  have legible := (accepted_of_readTokens read).legible
  refine ⟨readsBack_display legible, ?_⟩
  intro d around nested s env origin spare
  have form : d.Legible := nested.legible legible d List.mem_cons_self
  have same : d.quoted.display = d.display := d.display_quoted
  refine ⟨d.quoted, Session.eval_quote spare d origin env, d.untagged_quoted, form.isCode.quoted,
    same, ?_⟩
  rw [same]
  exact readsBack_display form

/-- The source begins with the least number, with a zero in front of it, and has a name that begins
like a number; a list lies in a list. -/
theorem printing_undoes_reading_nested :
    let source := "(-09223372036854775808\t(λ-1 ()))-"
    let s := Session.new 1
    (readTokens (tokenize source) 40 {} matches .ok (.list [.list [.int _, .list ..] .., _] ..) _) =
        true ∧ s.memory.depth < s.limit ∧
      ∃ program t' d outer, readTokens (tokenize source) 40 {} = .ok program t' ∧
        Nested program [d, outer, program] ∧ ReadsBack program.display program ∧
        ∃ v, s.eval (.list [.symbol "quote", d] .code none) s.global = (.ok v, s) ∧
          v.untagged = d.untagged ∧ v.IsData ∧ v.display = d.display ∧ ReadsBack v.display d := by
  intro source s
  refine (fun shape => ⟨shape, by decide, ?_⟩) (by decide +kernel)
  split at shape
  · rename_i n inner tag origin tag' origin' last tag'' origin'' t' read
    have nested : Nested (.list [.list [.int n, .list inner tag origin] tag' origin', last] tag''
        origin'') [.list inner tag origin, .list [.int n, .list inner tag origin] tag' origin',
          .list [.list [.int n, .list inner tag origin] tag' origin', last] tag'' origin''] :=
      .item (.item .program (by simp)) (by simp)
    obtain ⟨back, quotes⟩ := printing_undoes_reading read
    exact ⟨_, t', _, _, read, nested, back, quotes _ _ nested s s.global none (by decide)⟩
  · cases shape

end Reader

end LazyLisp
