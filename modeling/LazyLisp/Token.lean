import LazyLisp.Text.Utf8

/-!
# Tokens

A source text is split into parentheses and atoms. Space, tab, carriage return and line feed
separate; every other character belongs to an atom. The text is read once from left to right:
`Lexer.feed` takes one character, and `tokenize` is the fold of `feed` over the text, so the tokens
of `a ++ b` are those of `b` read from the state that `a` leaves.
-/

namespace LazyLisp

/-- The three sorts of lexemes. -/
inductive Token.Kind where
  | opening
  | closing
  | atom
  deriving DecidableEq, Repr

/-- A lexeme with the bytes it occupies. -/
structure Token where
  kind : Token.Kind
  lexeme : String
  span : Span
  deriving DecidableEq, Repr

/-- Exactly space, tab, carriage return and line feed. -/
def isSeparator (c : Char) : Bool := c = ' ' || c = '\t' || c = '\r' || c = '\n'

/-- A character that may stand in an atom. -/
def isAtomChar (c : Char) : Bool := !isSeparator c && c != '(' && c != ')'

/-- A text read in part: the finished tokens, the characters of the atom being read (last one
first), the offset at which it began and the offset reached. -/
structure Lexer where
  tokens : Array Token := #[]
  pending : List Char := []
  start : Nat := 0
  position : Nat := 0

namespace Lexer

/-- Ends the atom being read, if there is one. -/
def flush (s : Lexer) : Lexer :=
  match s.pending with
  | [] => s
  | pending =>
    { s with
      tokens := s.tokens.push ⟨.atom, String.ofList pending.reverse, ⟨s.start, s.position⟩⟩
      pending := [] }

/-- Ends the atom being read and moves past `c`. -/
def separate (s : Lexer) (c : Char) : Lexer :=
  { s.flush with position := s.position + c.utf8Size }

/-- Ends the atom being read and adds the parenthesis `c`. -/
def bracket (s : Lexer) (kind : Token.Kind) (c : Char) : Lexer :=
  let next := s.position + c.utf8Size
  let s := s.flush
  { s with tokens := s.tokens.push ⟨kind, c.toString, ⟨s.position, next⟩⟩, position := next }

/-- Begins an atom with `c`, or adds `c` to the one being read. -/
def extend (s : Lexer) (c : Char) : Lexer :=
  { s with
    pending := c :: s.pending
    start := if s.pending.isEmpty then s.position else s.start
    position := s.position + c.utf8Size }

/-- Reads one character. -/
def feed (s : Lexer) (c : Char) : Lexer :=
  if isSeparator c then s.separate c
  else if c = '(' then s.bracket .opening c
  else if c = ')' then s.bracket .closing c
  else s.extend c

end Lexer

/-- The tokens of a text, in order. -/
def tokenize (source : String) : List Token :=
  (source.toList.foldl Lexer.feed {}).flush.tokens.toList

/-- The tokens of the text that the bytes encode. -/
def tokenizeBytes (bytes : List UInt8) : Except Diagnostic (List Token) :=
  (Utf8.decode bytes).map tokenize

end LazyLisp
