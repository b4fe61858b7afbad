import LazyLisp.Fault

/-!
# UTF-8

Decoding of raw bytes. A character is a lead byte followed by up to three continuation bytes; the
lead byte fixes the range of each continuation byte, which excludes overlong forms, surrogates and
values past the last code point. Where the bytes are not text, the report covers the bytes that
still began a character: at least one, and all the rest if the input was merely cut off.
-/

namespace LazyLisp.Utf8

/-- An inclusive range of bytes. -/
structure ByteRange where
  least : UInt8
  greatest : UInt8

namespace ByteRange

/-- Whether a byte lies in the range, ends included. -/
def contains (r : ByteRange) (b : UInt8) : Bool := r.least ≤ b && b ≤ r.greatest

/-- The bytes that may continue a character where its lead byte asks for nothing narrower. -/
def any : ByteRange := ⟨0x80, 0xBF⟩

end ByteRange

/-- What a lead byte announces: the high bits of the code point and the ranges of the continuation
bytes, in order. -/
structure Lead where
  bits : Nat
  continuations : List ByteRange

/-- The meaning of a byte at the start of a character; `none` if no character starts with it. -/
def Lead.ofByte? (b : UInt8) : Option Lead :=
  if b < 0x80 then some ⟨b.toNat, []⟩
  else if b < 0xC2 then none
  else if b < 0xE0 then some ⟨b.toNat - 0xC0, [.any]⟩
  else if b = 0xE0 then some ⟨0, [⟨0xA0, 0xBF⟩, .any]⟩
  else if b = 0xED then some ⟨0xD, [⟨0x80, 0x9F⟩, .any]⟩
  else if b < 0xF0 then some ⟨b.toNat - 0xE0, [.any, .any]⟩
  else if b = 0xF0 then some ⟨0, [⟨0x90, 0xBF⟩, .any, .any]⟩
  else if b < 0xF4 then some ⟨b.toNat - 0xF0, [.any, .any, .any]⟩
  else if b = 0xF4 then some ⟨4, [⟨0x80, 0x8F⟩, .any, .any]⟩
  else none

/-- The attempt to read one character. -/
inductive Step where
  /-- A character and the bytes after it. -/
  | char (c : Char) (rest : List UInt8)
  /-- The first `length` bytes start no character. -/
  | malformed (length : Nat)
  /-- The input ended inside a character. -/
  | cutOff

/-- Reads the continuation bytes in `ranges`, after `length` bytes that gave `code` so far. -/
def continueChar (code length : Nat) : List ByteRange → List UInt8 → Step
  | [], rest => .char (Char.ofNat code) rest
  | _ :: _, [] => .cutOff
  | r :: ranges, b :: rest =>
    if r.contains b then continueChar (code * 64 + (b.toNat - 0x80)) (length + 1) ranges rest
    else .malformed length

/-- Reads the character that `lead` starts. -/
def readChar (lead : UInt8) (rest : List UInt8) : Step :=
  match Lead.ofByte? lead with
  | none => .malformed 1
  | some l => continueChar l.bits 1 l.continuations rest

theorem continueChar_shrinks {code length : Nat} {ranges : List ByteRange} {bytes rest : List UInt8}
    {c : Char} (h : continueChar code length ranges bytes = .char c rest) :
    rest.length ≤ bytes.length := by
  induction ranges generalizing code length bytes with
  | nil => simp only [continueChar, Step.char.injEq] at h; simp [h.2]
  | cons r ranges ih =>
    cases bytes with
    | nil => simp [continueChar] at h
    | cons b bytes =>
      simp only [continueChar] at h
      split at h
      · exact Nat.le_succ_of_le (ih h)
      · simp at h

theorem readChar_shrinks {lead : UInt8} {bytes rest : List UInt8} {c : Char}
    (h : readChar lead bytes = .char c rest) : rest.length ≤ bytes.length := by
  unfold readChar at h
  split at h
  · simp at h
  · exact continueChar_shrinks h

/-- Decodes from byte offset `position` on, with the characters read before it (last one first). A
failure gives the span of the bytes at fault. -/
def decodeFrom (position : Nat) (before : List Char) (bytes : List UInt8) :
    Except Span (List Char) :=
  match bytes with
  | [] => .ok before.reverse
  | lead :: bytes =>
    match h : readChar lead bytes with
    | .char c rest => decodeFrom (position + c.utf8Size) (c :: before) rest
    | .malformed length => .error ⟨position, position + length⟩
    | .cutOff => .error ⟨position, position + 1 + bytes.length⟩
termination_by bytes.length
decreasing_by
  have := readChar_shrinks h
  simp only [List.length_cons]
  omega

/-- The text that the bytes encode. -/
def decode (bytes : List UInt8) : Except Diagnostic String :=
  match decodeFrom 0 [] bytes with
  | .ok chars => .ok (String.ofList chars)
  | .error span => .error ((Fault.encoding span.start).diagnosticAt span)

end LazyLisp.Utf8
