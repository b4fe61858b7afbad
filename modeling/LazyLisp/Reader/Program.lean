import LazyLisp.Reader.Atom
import LazyLisp.Token

/-!
# Reading programs

Tokens are read one at a time, with the lists still open kept on a stack; a program is the fold of
`Reading.feed` over its tokens, and a code list of its forms. Every list leaves a node in the source
tree when it opens, so the nodes of a program that cannot be read remain in the tree.
-/

namespace LazyLisp.Reader

/-- Reading extends a source tree, also where it fails. -/
abbrev ReadM := EStateM Diagnostic SourceTree

/-- A list whose end has not been read: its node, the span of what opened it, and the items read so
far, last one first. -/
structure OpenList where
  node : NodeId
  opening : Span
  items : List Value := []

/-- The list with one more item. -/
def OpenList.add (l : OpenList) (v : Value) : OpenList := { l with items := v :: l.items }

/-- The list as a value, with no more items to come. -/
def OpenList.toValue (l : OpenList) : Value := .list l.items.reverse .code (some l.node)

/-- The name of the symbol at the head of the list. -/
def OpenList.head? (l : OpenList) : Option String := l.items.getLast?.bind Value.symbol?

/-- A program read in part: the innermost open list and the open lists around it. The outermost
one is the program itself. -/
structure Reading where
  innermost : OpenList
  around : List OpenList := []

/-- Adds a list to the tree. It never fails: whether the tree is full, with `2 ^ 32` lists, is not
checked (see `SourceTree.push`). -/
def openList (span : Span) (parent : Option NodeId) : ReadM OpenList := do
  let tree ← get
  set (tree.push span parent)
  return { node := tree.nextId, opening := span }

namespace Reading

/-- Reads one token. -/
def feed (r : Reading) (t : Token) : ReadM Reading :=
  match t.kind with
  | .opening => do
    let inner ← openList t.span (some r.innermost.node)
    return ⟨inner, r.innermost :: r.around⟩
  | .closing =>
    match r.around with
    | [] => throw (Fault.strayClosing.diagnosticAt t.span)
    | outer :: around => do
      modify fun tree => tree.close r.innermost.node t.span.stop r.innermost.head?
      return ⟨outer.add r.innermost.toValue, around⟩
  | .atom =>
    match atom t.lexeme with
    | .ok v => return { r with innermost := r.innermost.add v }
    | .error f => throw (f.diagnosticAt t.span)

/-- The program, if no list but itself is open. -/
def finish (r : Reading) : ReadM Value :=
  match r.around with
  | [] => return r.innermost.toValue
  | _ :: _ => throw (Fault.unterminated.diagnosticAt r.innermost.opening)

end Reading

/-- Reads the tokens of a program that ends at byte offset `stop`. The program's own node starts
at its first token. -/
def readTokens (tokens : List Token) (stop : Nat) : ReadM Value := do
  let start := (tokens.head?.map fun t => t.span.start).getD 0
  let root ← openList ⟨start, stop⟩ none
  let reading ← tokens.foldlM Reading.feed ⟨root, []⟩
  reading.finish

/-- Reads a source text as one code list of its forms. -/
def readProgram (source : String) : ReadM Value :=
  readTokens (tokenize source) source.utf8ByteSize

/-- Reads tokens into a new source tree. The program ends with its last token. -/
def parse (tokens : List Token) : Except Diagnostic (Value × SourceTree) :=
  match (readTokens tokens ((tokens.getLast?.map fun t => t.span.stop).getD 0)).run {} with
  | .ok program tree => .ok (program, tree)
  | .error d _ => .error d

end LazyLisp.Reader
