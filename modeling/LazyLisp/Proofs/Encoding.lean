import Mathlib.Data.List.Forall2
import LazyLisp.Session

/-!
# Bytes as text

The decoder against the encoding that strings have. A lead byte announces the continuation bytes of
a character; bytes as they are announced are the encoding of the character that they assemble to,
and every character is encoded so. It follows where the decoder stops and how far a report goes:
bytes that are no text are rejected after the longest part of them that is text, and the span covers
the bytes that still began a character.

Decoding comes before anything else is done, so bytes that are rejected leave a session as it was.
-/

namespace LazyLisp.Utf8

/-! ## The bytes of a character -/

namespace ByteRange

theorem contains_iff {r : ByteRange} {b : UInt8} :
    r.contains b = true ↔ r.least.toNat ≤ b.toNat ∧ b.toNat ≤ r.greatest.toNat := by
  simp [contains, UInt8.le_iff_toNat_le]

theorem any_contains_iff {b : UInt8} :
    any.contains b = true ↔ 0x80 ≤ b.toNat ∧ b.toNat ≤ 0xBF := contains_iff

end ByteRange

/-- The bytes lie in the ranges, one in each. -/
def Matches (ranges : List ByteRange) (bytes : List UInt8) : Prop :=
  List.Forall₂ (fun r b => r.contains b = true) ranges bytes

/-- The number whose high bits are `bits` and whose lower bits the bytes give, six each. -/
def assemble (bits : Nat) (bytes : List UInt8) : Nat :=
  bytes.foldl (fun code b => code * 64 + (b.toNat - 0x80)) bits

theorem assemble_nil (bits : Nat) : assemble bits [] = bits := by
  rw [assemble, List.foldl_nil]

theorem assemble_cons (bits : Nat) (b : UInt8) (bytes : List UInt8) :
    assemble bits (b :: bytes) = assemble (bits * 64 + (b.toNat - 0x80)) bytes := by
  rw [assemble, List.foldl_cons, assemble]

/-- What a lead byte announces, by the length of the character. The second byte of a longer one is
restricted so that the number it begins is not too small for that length, nor a surrogate, nor past
the last code point; the restriction leaves some bytes. -/
inductive Announces (lead : UInt8) : Lead → Prop
  | one : lead.toNat < 0x80 → Announces lead ⟨lead.toNat, []⟩
  | two {bits : Nat} : lead.toNat = 0xC0 + bits → 0x02 ≤ bits → bits < 0x20 →
    Announces lead ⟨bits, [.any]⟩
  | three {bits : Nat} {r : ByteRange} : lead.toNat = 0xE0 + bits → bits < 0x10 →
    r.contains r.least = true →
    (∀ b, r.contains b = true ↔ (0x80 ≤ b.toNat ∧ b.toNat ≤ 0xBF) ∧
      0x20 ≤ assemble bits [b] ∧ (assemble bits [b] < 0x360 ∨ 0x380 ≤ assemble bits [b])) →
    Announces lead ⟨bits, [r, .any]⟩
  | four {bits : Nat} {r : ByteRange} : lead.toNat = 0xF0 + bits → bits < 0x05 →
    r.contains r.least = true →
    (∀ b, r.contains b = true ↔ (0x80 ≤ b.toNat ∧ b.toNat ≤ 0xBF) ∧
      0x10 ≤ assemble bits [b] ∧ assemble bits [b] < 0x110) →
    Announces lead ⟨bits, [r, .any, .any]⟩

theorem announces_of_ofByte? {lead : UInt8} {l : Lead} (h : Lead.ofByte? lead = some l) :
    Announces lead l := by
  unfold Lead.ofByte? at h
  simp only [UInt8.lt_iff_toNat_lt, ← UInt8.toNat_inj, UInt8.reduceToNat, ite_eq_iff,
    Option.some.injEq, reduceCtorEq, and_false, false_or, or_false] at h
  -- one case for each row of the table
  obtain ⟨_, rfl⟩ | ⟨_, _, ⟨_, rfl⟩ | ⟨_, ⟨_, rfl⟩ | ⟨_, ⟨_, rfl⟩ | ⟨_, ⟨_, rfl⟩ | ⟨_, ⟨_, rfl⟩ |
    ⟨_, ⟨_, rfl⟩ | ⟨_, _, rfl⟩⟩⟩⟩⟩⟩⟩ := h
  · exact .one (by omega)
  · exact .two (by omega) (by omega) (by omega)
  any_goals refine Announces.three (by omega) (by omega) (by decide) fun b => ?_
  any_goals refine Announces.four (by omega) (by omega) (by decide) fun b => ?_
  all_goals
    simp only [ByteRange.contains_iff, ByteRange.any, assemble_cons, assemble_nil,
      UInt8.reduceToNat]
    omega

theorem exists_ofByte? (lead : UInt8)
    (h : lead.toNat < 0x80 ∨ 0xC2 ≤ lead.toNat ∧ lead.toNat < 0xF5) :
    ∃ l, Lead.ofByte? lead = some l := by
  cases found : Lead.ofByte? lead with
  | some l => exact ⟨l, rfl⟩
  | none =>
    unfold Lead.ofByte? at found
    simp only [UInt8.lt_iff_toNat_lt, ← UInt8.toNat_inj, UInt8.reduceToNat, ite_eq_iff,
      reduceCtorEq, and_false, false_or, and_true] at found
    omega

theorem Announces.contains_least {lead : UInt8} {l : Lead} (h : Announces lead l) :
    ∀ r ∈ l.continuations, r.contains r.least = true := by
  have any : ByteRange.any.contains ByteRange.any.least = true := by decide
  cases h <;> simp_all

/-- The bytes that stand for a number: one below `0x80`, two below `0x800`, three below `0x10000`,
else four; the first one says how many there are, and each of the others gives six bits. -/
inductive Spelled (n : Nat) : List UInt8 → Prop
  | one {a : UInt8} : n < 0x80 → a.toNat = n → Spelled n [a]
  | two {a b : UInt8} : 0x80 ≤ n → n < 0x800 → a.toNat = 0xC0 + n / 64 →
    b.toNat = 0x80 + n % 64 → Spelled n [a, b]
  | three {a b c : UInt8} : 0x800 ≤ n → n < 0x10000 → a.toNat = 0xE0 + n / 64 / 64 →
    b.toNat = 0x80 + n / 64 % 64 → c.toNat = 0x80 + n % 64 → Spelled n [a, b, c]
  | four {a b c d : UInt8} : 0x10000 ≤ n → n < 0x110000 → a.toNat = 0xF0 + n / 64 / 64 / 64 →
    b.toNat = 0x80 + n / 64 / 64 % 64 → c.toNat = 0x80 + n / 64 % 64 → d.toNat = 0x80 + n % 64 →
    Spelled n [a, b, c, d]

theorem spelled_utf8EncodeChar (c : Char) : Spelled c.toNat (String.utf8EncodeChar c) := by
  have last : c.toNat < 0x110000 := by
    rcases c.valid with small | large
    · exact Nat.lt_trans small (by decide)
    · exact large.2
  have byte : ∀ n < 256, (UInt8.ofNat n).toNat = n := fun n small => UInt8.toNat_ofNat_of_lt small
  have value : c.val.toNat = c.toNat := rfl
  unfold String.utf8EncodeChar
  rw [value]
  dsimp only
  split_ifs
  · exact .one (by omega) (byte _ (by omega))
  · refine .two (by omega) (by omega) ?_ ?_
    all_goals rw [byte _ (by omega)]; omega
  · refine .three (by omega) (by omega) ?_ ?_ ?_
    all_goals rw [byte _ (by omega)]; omega
  · refine .four (by omega) (by omega) ?_ ?_ ?_ ?_
    all_goals rw [byte _ (by omega)]; omega

theorem Spelled.unique {n : Nat} {bytes bytes' : List UInt8} (h : Spelled n bytes)
    (h' : Spelled n bytes') : bytes = bytes' := by
  cases h <;> cases h' <;>
    first
      | omega
      | simp only [List.cons.injEq, ← UInt8.toNat_inj, and_true]
        omega

/-- Bytes as a lead byte announces them spell the number that they assemble to, which is a code
point and no surrogate. -/
theorem Announces.spelled {lead : UInt8} {l : Lead} {tail : List UInt8} (h : Announces lead l)
    (matched : Matches l.continuations tail) :
    (assemble l.bits tail).isValidChar ∧ Spelled (assemble l.bits tail) (lead :: tail) := by
  unfold Nat.isValidChar
  cases h with
  | one small =>
    cases matched
    rw [assemble_nil]
    exact ⟨.inl (Nat.lt_trans small (by decide)), .one small rfl⟩
  | two leads least most =>
    obtain ⟨x, _, hx, done, rfl⟩ := List.forall₂_cons_left_iff.1 matched
    cases done
    rw [ByteRange.any_contains_iff] at hx
    simp only [assemble_cons, assemble_nil]
    exact ⟨.inl (by omega), .two (by omega) (by omega) (by omega) (by omega)⟩
  | three leads most _ second =>
    -- what the second byte may be is what keeps the number out of the ranges that are left out
    obtain ⟨x, _, hx, rest, rfl⟩ := List.forall₂_cons_left_iff.1 matched
    obtain ⟨y, _, hy, done, rfl⟩ := List.forall₂_cons_left_iff.1 rest
    cases done
    rw [second] at hx
    rw [ByteRange.any_contains_iff] at hy
    simp only [assemble_cons, assemble_nil] at hx ⊢
    exact ⟨by omega, .three (by omega) (by omega) (by omega) (by omega) (by omega)⟩
  | four leads most _ second =>
    obtain ⟨x, _, hx, rest, rfl⟩ := List.forall₂_cons_left_iff.1 matched
    obtain ⟨y, _, hy, rest', rfl⟩ := List.forall₂_cons_left_iff.1 rest
    obtain ⟨z, _, hz, done, rfl⟩ := List.forall₂_cons_left_iff.1 rest'
    cases done
    rw [second] at hx
    rw [ByteRange.any_contains_iff] at hy hz
    simp only [assemble_cons, assemble_nil] at hx ⊢
    exact ⟨by omega, .four (by omega) (by omega) (by omega) (by omega) (by omega) (by omega)⟩

/-- And every character is spelled by bytes as its lead byte announces them. -/
theorem Spelled.exists_lead {n : Nat} {bytes : List UInt8} (h : Spelled n bytes)
    (valid : n.isValidChar) :
    ∃ lead tail l, bytes = lead :: tail ∧ Lead.ofByte? lead = some l ∧
      Matches l.continuations tail ∧ assemble l.bits tail = n := by
  have any : ∀ {b : UInt8} {k : Nat}, b.toNat = 0x80 + k % 64 →
      ByteRange.any.contains b = true := by
    intro b k six
    rw [ByteRange.any_contains_iff]
    omega
  unfold Nat.isValidChar at valid
  cases h with
  | @one a small ha =>
    obtain ⟨l, found⟩ := exists_ofByte? a (by omega)
    refine ⟨_, _, l, rfl, found, ?_⟩
    cases announces_of_ofByte? found with
    | one _ => exact ⟨.nil, by rw [assemble_nil, ha]⟩
    | _ => omega
  | @two a b least most ha hb =>
    obtain ⟨l, found⟩ := exists_ofByte? a (by omega)
    refine ⟨_, _, l, rfl, found, ?_⟩
    cases announces_of_ofByte? found with
    | two leads _ _ =>
      refine ⟨.cons (any hb) .nil, ?_⟩
      simp only [assemble_cons, assemble_nil]
      omega
    | _ => omega
  | @three a b c least most ha hb hc =>
    obtain ⟨l, found⟩ := exists_ofByte? a (by omega)
    refine ⟨_, _, l, rfl, found, ?_⟩
    cases announces_of_ofByte? found with
    | three leads _ _ second =>
      refine ⟨.cons ((second _).2 ?_) (.cons (any hc) .nil), ?_⟩
      all_goals
        simp only [assemble_cons, assemble_nil]
        omega
    | _ => omega
  | @four a b c d least most ha hb hc hd =>
    obtain ⟨l, found⟩ := exists_ofByte? a (by omega)
    refine ⟨_, _, l, rfl, found, ?_⟩
    cases announces_of_ofByte? found with
    | four leads _ _ second =>
      refine ⟨.cons ((second _).2 ?_) (.cons (any hc) (.cons (any hd) .nil)), ?_⟩
      all_goals
        simp only [assemble_cons, assemble_nil]
        omega
    | _ => omega

/-- The encodings of characters, by their lead bytes. -/
theorem utf8EncodeChar_eq_iff {c : Char} {lead : UInt8} {tail : List UInt8} :
    String.utf8EncodeChar c = lead :: tail ↔
      ∃ l, Lead.ofByte? lead = some l ∧ Matches l.continuations tail ∧
        Char.ofNat (assemble l.bits tail) = c := by
  constructor
  · intro encoded
    obtain ⟨_, _, l, same, found, matched, code⟩ := (spelled_utf8EncodeChar c).exists_lead c.valid
    rw [encoded] at same
    cases same
    refine ⟨l, found, matched, ?_⟩
    rw [code, Char.ofNat_toNat]
  · rintro ⟨l, found, matched, rfl⟩
    obtain ⟨valid, spelled⟩ := (announces_of_ofByte? found).spelled matched
    have number : (Char.ofNat (assemble l.bits tail)).toNat = assemble l.bits tail := by
      rw [Char.ofNat, dif_pos valid]
      rfl
    have encoding := spelled_utf8EncodeChar (Char.ofNat (assemble l.bits tail))
    rw [number] at encoding
    exact encoding.unique spelled

/-! ## Reading a character -/

/-- The bytes are the beginning of a character's encoding, but not the whole of it. -/
def Begins (bytes : List UInt8) : Prop :=
  ∃ c, bytes <+: String.utf8EncodeChar c ∧ bytes ≠ String.utf8EncodeChar c

theorem begins_nil : Begins [] := by
  refine ⟨'a', List.nil_prefix, ?_⟩
  exact (String.utf8EncodeChar_ne_nil).symm

theorem Matches.least {ranges : List ByteRange}
    (h : ∀ r ∈ ranges, r.contains r.least = true) :
    Matches ranges (ranges.map ByteRange.least) := by
  induction ranges with
  | nil => exact .nil
  | cons r ranges ih =>
    obtain ⟨here, others⟩ := List.forall_mem_cons.1 h
    exact .cons here (ih others)

/-- A character has begun with a lead byte and continuation bytes, and needs more of them. -/
theorem begins_cons_iff {lead : UInt8} {tail : List UInt8} :
    Begins (lead :: tail) ↔ ∃ l done r later, Lead.ofByte? lead = some l ∧
      l.continuations = done ++ r :: later ∧ Matches done tail := by
  constructor
  · rintro ⟨c, ⟨more, whole⟩, part⟩
    obtain ⟨l, found, matched, -⟩ := utf8EncodeChar_eq_iff.1 whole.symm
    have first := List.forall₂_take_append _ _ _ matched
    have second := List.forall₂_drop_append _ _ _ matched
    cases rest : l.continuations.drop tail.length with
    | nil =>
      rw [rest] at second
      cases second
      rw [List.append_nil] at whole
      exact absurd whole part
    | cons r later =>
      refine ⟨l, _, r, later, found, ?_, first⟩
      rw [← rest, List.take_append_drop]
  · rintro ⟨l, done, r, later, found, ranges, matched⟩
    have nonempty := (announces_of_ofByte? found).contains_least
    rw [ranges] at nonempty
    have others : Matches (r :: later) ((r :: later).map ByteRange.least) :=
      .least fun r member => nonempty r (List.mem_append_right _ member)
    have all : Matches l.continuations (tail ++ (r :: later).map ByteRange.least) :=
      ranges ▸ List.rel_append matched others
    have encoded := utf8EncodeChar_eq_iff.2 ⟨l, found, all, rfl⟩
    refine ⟨_, ⟨_, encoded.symm⟩, ?_⟩
    rw [encoded]
    simp

/-- Bytes in the ranges are read. -/
theorem continueChar_append {done : List ByteRange} {good : List UInt8}
    (matched : Matches done good) (code length : Nat) (ranges : List ByteRange)
    (bytes : List UInt8) :
    continueChar code length (done ++ ranges) (good ++ bytes) =
      continueChar (assemble code good) (length + good.length) ranges bytes := by
  induction matched generalizing code length with
  | nil => rfl
  | @cons r b done good here _ ih =>
    rw [List.cons_append, List.cons_append, continueChar, if_pos here, ih, assemble_cons,
      List.length_cons, Nat.add_assoc, Nat.add_comm 1]

/-- As many bytes as possible, put into the ranges. -/
theorem exists_longest_match (ranges : List ByteRange) (bytes : List UInt8) :
    ∃ done later good rest, ranges = done ++ later ∧ bytes = good ++ rest ∧ Matches done good ∧
      ∀ r ∈ later.head?, ∀ b ∈ rest.head?, r.contains b = false := by
  induction ranges generalizing bytes with
  | nil => exact ⟨[], [], [], bytes, rfl, rfl, .nil, by simp⟩
  | cons r ranges ih =>
    cases bytes with
    | nil => exact ⟨[], r :: ranges, [], [], rfl, rfl, .nil, by simp⟩
    | cons b bytes =>
      cases inside : r.contains b with
      | false => exact ⟨[], r :: ranges, [], b :: bytes, rfl, rfl, .nil, by simpa using inside⟩
      | true =>
        obtain ⟨done, later, good, rest, rfl, rfl, matched, stops⟩ := ih bytes
        exact ⟨r :: done, later, b :: good, rest, rfl, rfl, .cons inside matched, stops⟩

theorem readChar_of_encoding {c : Char} {lead : UInt8} {bytes rest : List UInt8}
    (h : lead :: bytes = String.utf8EncodeChar c ++ rest) : readChar lead bytes = .char c rest := by
  obtain ⟨lead', tail, encoded⟩ :=
    List.exists_cons_of_ne_nil (String.utf8EncodeChar_ne_nil (c := c))
  rw [encoded] at h
  cases h
  obtain ⟨l, found, matched, rfl⟩ := utf8EncodeChar_eq_iff.1 encoded
  unfold readChar
  rw [found]
  have read := continueChar_append matched l.bits 1 [] rest
  rw [List.append_nil] at read
  exact read

/-- How many of the bytes are to blame if no character starts with them: all, if they may be the
beginning of one; else those that were, but at least one. -/
structure Misread (bytes : List UInt8) (length : Nat) : Prop where
  nonempty : 0 < length
  inside : length ≤ bytes.length
  cutOff : Begins bytes → length = bytes.length
  malformed : ¬ Begins bytes → ∃ n ≤ bytes.length, Begins (bytes.take n) ∧
    (∀ k ≤ bytes.length, Begins (bytes.take k) → k ≤ n) ∧ length = max 1 n

/-- After a byte outside its range nothing can complete the character. -/
theorem not_begins {lead b : UInt8} {l : Lead} {done later : List ByteRange} {r : ByteRange}
    {good : List UInt8} (found : Lead.ofByte? lead = some l)
    (ranges : l.continuations = done ++ r :: later) (matched : Matches done good)
    (outside : r.contains b = false) (more : List UInt8) :
    ¬ Begins (lead :: (good ++ b :: more)) := by
  intro begins
  obtain ⟨l', done', r', later', found', ranges', matched'⟩ := begins_cons_iff.1 begins
  rw [found] at found'
  cases found'
  -- a longer beginning would put the same byte into the same range
  have rest := List.forall₂_drop_append _ _ _ matched'
  obtain ⟨r'', _, inside, -, same⟩ := List.forall₂_cons_right_iff.1 rest
  have length : done.length = good.length := matched.length_eq
  have within : good.length ≤ done'.length := by
    rw [matched'.length_eq, List.length_append]
    omega
  have here : (done ++ r :: later).drop good.length = (done' ++ r' :: later').drop good.length := by
    rw [← ranges, ranges']
  rw [← length, List.drop_left, length, List.drop_append_of_le_length within, same] at here
  cases here
  rw [outside] at inside
  cases inside

theorem misread_unled {lead : UInt8} (unled : Lead.ofByte? lead = none) (bytes : List UInt8) :
    Misread (lead :: bytes) 1 := by
  have never : ∀ tail, ¬ Begins (lead :: tail) := by
    intro tail begins
    obtain ⟨l, _, _, _, found, -⟩ := begins_cons_iff.1 begins
    rw [unled] at found
    cases found
  refine ⟨Nat.one_pos, by simp, fun begins => absurd begins (never _), fun _ => ?_⟩
  refine ⟨0, Nat.zero_le _, begins_nil, ?_, rfl⟩
  intro k _ begins
  cases k with
  | zero => exact Nat.le_refl _
  | succ k => exact absurd begins (never _)

theorem misread_cutOff {lead : UInt8} {bytes : List UInt8} (begins : Begins (lead :: bytes)) :
    Misread (lead :: bytes) (1 + bytes.length) where
  nonempty := by omega
  inside := by simp [Nat.add_comm]
  cutOff _ := by simp [Nat.add_comm]
  malformed other := absurd begins other

theorem misread_outside {lead b : UInt8} {good rest : List UInt8} (begins : Begins (lead :: good))
    (stuck : ∀ more, ¬ Begins (lead :: (good ++ b :: more))) :
    Misread (lead :: (good ++ b :: rest)) (1 + good.length) := by
  refine ⟨by omega, ?_, fun whole => absurd whole (stuck rest), fun _ => ?_⟩
  · simp only [List.length_cons, List.length_append]
    omega
  refine ⟨1 + good.length, ?_, ?_, ?_, by omega⟩
  · simp only [List.length_cons, List.length_append]
    omega
  · rw [Nat.add_comm, List.take_succ_cons, List.take_left]
    exact begins
  · intro k _ longer
    by_contra more
    obtain ⟨j, rfl⟩ : ∃ j, k = good.length + (j + 1) + 1 := ⟨k - good.length - 2, by omega⟩
    rw [List.take_succ_cons, List.take_length_add_append, List.take_succ_cons] at longer
    exact stuck _ longer

/-- A character that is read stands at the beginning of the bytes; where none is, none starts. -/
theorem readChar_spec (lead : UInt8) (bytes : List UInt8) :
    match readChar lead bytes with
    | .char c rest => lead :: bytes = String.utf8EncodeChar c ++ rest
    | .malformed length => Misread (lead :: bytes) length
    | .cutOff => Misread (lead :: bytes) (1 + bytes.length) := by
  unfold readChar
  cases found : Lead.ofByte? lead with
  | none => exact misread_unled found bytes
  | some l =>
    dsimp only
    obtain ⟨done, later, good, rest, ranges, rfl, matched, stops⟩ :=
      exists_longest_match l.continuations bytes
    rw [ranges, continueChar_append matched]
    cases later with
    | nil =>
      rw [List.append_nil] at ranges
      have encoded := utf8EncodeChar_eq_iff.2 ⟨l, found, ranges ▸ matched, rfl⟩
      rw [continueChar]
      dsimp only
      rw [encoded, List.cons_append]
    | cons r later =>
      have begins : Begins (lead :: good) :=
        begins_cons_iff.2 ⟨l, done, r, later, found, ranges, matched⟩
      cases rest with
      | nil =>
        rw [List.append_nil]
        exact misread_cutOff begins
      | cons b rest =>
        have outside : r.contains b = false := stops r rfl b rfl
        rw [continueChar, if_neg (by rw [outside]; exact Bool.false_ne_true)]
        exact misread_outside begins (not_begins found ranges matched outside)

/-! ## Texts -/

/-- The bytes of the characters, one after the other. -/
def bytesOf (chars : List Char) : List UInt8 := chars.flatMap String.utf8EncodeChar

/-- The bytes of a text. -/
def encode (text : String) : List UInt8 := text.toUTF8.data.toList

/-- The bytes are those of some text. -/
def IsText (bytes : List UInt8) : Prop := ∃ text, encode text = bytes

theorem bytesOf_cons (c : Char) (chars : List Char) :
    bytesOf (c :: chars) = String.utf8EncodeChar c ++ bytesOf chars := List.flatMap_cons

theorem encode_eq (text : String) : encode text = bytesOf text.toList := by
  unfold encode bytesOf
  rw [String.toUTF8_eq_toByteArray, ← String.utf8Encode_toList, List.utf8Encode]
  simp

theorem isText_iff {bytes : List UInt8} : IsText bytes ↔ ∃ chars, bytes = bytesOf chars := by
  constructor
  · rintro ⟨text, rfl⟩
    exact ⟨text.toList, encode_eq text⟩
  · rintro ⟨chars, rfl⟩
    exact ⟨String.ofList chars, by rw [encode_eq, String.toList_ofList]⟩

theorem decodeFrom_cons (position : Nat) (before : List Char) (lead : UInt8) (bytes : List UInt8) :
    decodeFrom position before (lead :: bytes) =
      match readChar lead bytes with
      | .char c rest => decodeFrom (position + c.utf8Size) (c :: before) rest
      | .malformed length => .error ⟨position, position + length⟩
      | .cutOff => .error ⟨position, position + 1 + bytes.length⟩ := by
  rw [decodeFrom]
  split <;> simp_all

/-- Encoded characters are read, whatever follows them. -/
theorem decodeFrom_append (chars : List Char) (position : Nat) (before : List Char)
    (rest : List UInt8) :
    decodeFrom position before (bytesOf chars ++ rest) =
      decodeFrom (position + (bytesOf chars).length) (chars.reverse ++ before) rest := by
  induction chars generalizing position before with
  | nil => rfl
  | cons c chars ih =>
    obtain ⟨lead, tail, encoded⟩ :=
      List.exists_cons_of_ne_nil (String.utf8EncodeChar_ne_nil (c := c))
    have size : (String.utf8EncodeChar c).length = c.utf8Size := String.length_utf8EncodeChar c
    have read : readChar lead (tail ++ (bytesOf chars ++ rest)) = .char c (bytesOf chars ++ rest) :=
      readChar_of_encoding (by rw [encoded, List.cons_append])
    rw [bytesOf_cons, List.append_assoc, List.length_append, size, encoded, List.cons_append,
      decodeFrom_cons, read]
    dsimp only
    rw [ih, List.reverse_cons, List.append_assoc, Nat.add_assoc]
    rfl

/-- Bytes are encoded characters throughout, or up to a place where no character starts. -/
theorem decodeFrom_cases (position : Nat) (before : List Char) (bytes : List UInt8) :
    (∃ chars, bytes = bytesOf chars ∧
      decodeFrom position before bytes = .ok (before.reverse ++ chars)) ∨
    ∃ chars bad length, bytes = bytesOf chars ++ bad ∧ Misread bad length ∧
      decodeFrom position before bytes =
        .error ⟨position + (bytesOf chars).length, position + (bytesOf chars).length + length⟩ := by
  fun_induction decodeFrom position before bytes with
  | case1 position before => exact .inl ⟨[], rfl, by rw [List.append_nil]⟩
  | case2 position before lead bytes c rest read ih =>
    have here := readChar_spec lead bytes
    rw [read] at here
    dsimp only at here
    have size : (String.utf8EncodeChar c).length = c.utf8Size := String.length_utf8EncodeChar c
    rw [here]
    obtain ⟨chars, rfl, decoded⟩ | ⟨chars, bad, length, rfl, misread, failed⟩ := ih
    · refine .inl ⟨c :: chars, (bytesOf_cons c chars).symm, ?_⟩
      rw [decoded, List.reverse_cons, List.append_assoc]
      rfl
    · refine .inr ⟨c :: chars, bad, length, ?_, misread, ?_⟩
      · rw [bytesOf_cons, List.append_assoc]
      · rw [failed, bytesOf_cons, List.length_append, size, ← Nat.add_assoc]
  | case3 position before lead bytes length read =>
    have here := readChar_spec lead bytes
    rw [read] at here
    exact .inr ⟨[], lead :: bytes, length, rfl, here, rfl⟩
  | case4 position before lead bytes read =>
    have here := readChar_spec lead bytes
    rw [read] at here
    refine .inr ⟨[], lead :: bytes, _, rfl, here, ?_⟩
    rw [Nat.add_assoc]
    rfl

/-- A span at which bytes are rejected: what stands before it is text, as much of it as there is; it
covers the bytes that still began a character, but at least one, and all the rest if the bytes were
merely cut off. -/
structure Rejected (bytes : List UInt8) (span : Span) : Prop where
  text : IsText (bytes.take span.start)
  longest : ∀ n ≤ bytes.length, IsText (bytes.take n) → n ≤ span.start
  nonempty : span.start < span.stop
  inside : span.stop ≤ bytes.length
  cutOff : Begins (bytes.drop span.start) → span.stop = bytes.length
  malformed : ¬ Begins (bytes.drop span.start) →
    ∃ n ≤ (bytes.drop span.start).length, Begins ((bytes.drop span.start).take n) ∧
      (∀ k ≤ (bytes.drop span.start).length, Begins ((bytes.drop span.start).take k) → k ≤ n) ∧
      span.stop - span.start = max 1 n

theorem decode_encode (text : String) : decode (encode text) = .ok text := by
  have decoded := decodeFrom_append text.toList 0 [] []
  rw [List.append_nil, decodeFrom, List.append_nil, List.reverse_reverse] at decoded
  rw [decode, encode_eq, decoded]
  dsimp only
  rw [String.ofList_toList]

/-- A failure starts no earlier than the characters that were read. -/
theorem le_start_of_isText {bytes : List UInt8} {span : Span} {n : Nat}
    (failed : decodeFrom 0 [] bytes = .error span) (text : IsText (bytes.take n))
    (within : n ≤ bytes.length) : n ≤ span.start := by
  obtain ⟨chars, encoded⟩ := isText_iff.1 text
  have size : (bytesOf chars).length = n := by rw [← encoded, List.length_take_of_le within]
  rw [← List.take_append_drop n bytes, encoded, decodeFrom_append, size, Nat.zero_add] at failed
  obtain ⟨_, _, decoded⟩ | ⟨_, _, _, _, _, failed'⟩ :=
    decodeFrom_cases n (chars.reverse ++ []) (bytes.drop n)
  · rw [decoded] at failed
    cases failed
  · rw [failed'] at failed
    cases failed
    exact Nat.le_add_right _ _

theorem decode_of_not_text {bytes : List UInt8} (other : ¬ IsText bytes) :
    ∃ span, decode bytes = .error ((Fault.encoding span.start).diagnosticAt span) ∧
      Rejected bytes span := by
  obtain ⟨chars, encoded, -⟩ | ⟨chars, bad, length, encoded, misread, failed⟩ :=
    decodeFrom_cases 0 [] bytes
  · exact absurd (isText_iff.2 ⟨chars, encoded⟩) other
  rw [Nat.zero_add] at failed
  refine ⟨_, by rw [decode, failed], ?_⟩
  have before : bytes.take (bytesOf chars).length = bytesOf chars := by rw [encoded, List.take_left]
  have after : bytes.drop (bytesOf chars).length = bad := by rw [encoded, List.drop_left]
  have size : bytes.length = (bytesOf chars).length + bad.length := by
    rw [encoded, List.length_append]
  have nonempty := misread.nonempty
  have inside := misread.inside
  constructor
  case text => exact isText_iff.2 ⟨chars, before⟩
  case longest => exact fun n within text => le_start_of_isText failed text within
  case nonempty => exact Nat.lt_add_of_pos_right nonempty
  case inside =>
    show (bytesOf chars).length + length ≤ bytes.length
    omega
  case cutOff =>
    intro begins
    rw [after] at begins
    rw [misread.cutOff begins, size]
  case malformed =>
    dsimp only
    rw [after, Nat.add_sub_cancel_left]
    exact misread.malformed

end LazyLisp.Utf8

namespace LazyLisp.Session

/-- **Bytes are handled as the text they encode, or rejected without effect.** Bytes that encode a
text have its tokens, and running them is running the text. All others are refused with one report
by both: the session stays as it is, and the span tells where the text in the bytes ends and how far
what follows could still have been a character. -/
theorem bytes_as_text_or_rejected (s : Session) (bytes : List UInt8) :
    (∀ text, Utf8.encode text = bytes →
      tokenizeBytes bytes = .ok (tokenize text) ∧ s.runBytes bytes = s.run text) ∧
    (¬ Utf8.IsText bytes → ∃ d span, tokenizeBytes bytes = .error d ∧
      s.runBytes bytes = (.error d, s) ∧ d.kind.text = "LexError" ∧ d.span = some span ∧
      Utf8.Rejected bytes span) := by
  constructor
  · rintro text rfl
    unfold tokenizeBytes runBytes
    rw [Utf8.decode_encode]
    exact ⟨rfl, rfl⟩
  · intro other
    obtain ⟨span, failed, rejected⟩ := Utf8.decode_of_not_text other
    refine ⟨(Fault.encoding span.start).diagnosticAt span, span, ?_, ?_, rfl, rfl, rejected⟩
    · rw [tokenizeBytes, failed]
      rfl
    · rw [runBytes, failed]

end LazyLisp.Session
