import LazyLisp.Span

/-!
# Diagnostics

What a failed reading or evaluation reports: a kind, a message, the place in the source if it is
known, and notes that name the enclosing forms. `Diagnostic.text` is the report a user sees.
-/

namespace LazyLisp

/-- The classes of failure. An unbound symbol carries its name. -/
inductive Diagnostic.Kind where
  | encoding
  | reading
  | unbound (name : String)
  | arity
  | notCallable
  | type
  | evaluation
  | depth
  deriving DecidableEq, Repr, Inhabited

/-- The word that heads a report of this kind. -/
def Diagnostic.Kind.text : Diagnostic.Kind → String
  | .encoding => "LexError"
  | .reading => "ParseError"
  | .unbound _ => "UnboundSymbolError"
  | .arity => "ArityError"
  | .notCallable => "NotCallableError"
  | .type => "TypeError"
  | .evaluation => "EvalError"
  | .depth => "StackOverflowError"

/-- A failure as reported to the user. -/
structure Diagnostic where
  kind : Diagnostic.Kind
  message : String
  span : Option Span := none
  notes : List String := []
  deriving DecidableEq, Repr, Inhabited

namespace Diagnostic

/-- The same failure, placed at `s`. -/
def withSpan (d : Diagnostic) (s : Span) : Diagnostic := { d with span := some s }

/-- The first line, ` (start..stop)` only if the place is known; then, only if there are notes, each
on a line of its own, indented. A report with notes ends in a newline and one without does not. -/
def text (d : Diagnostic) : String :=
  let place := match d.span with
    | some s => " (" ++ s.text ++ ")"
    | none => ""
  let notes := match d.notes with
    | [] => ""
    | notes => "\n" ++ String.join (notes.map fun note => "  note: " ++ note ++ "\n")
  d.kind.text ++ ": " ++ d.message ++ place ++ notes

end Diagnostic

end LazyLisp
