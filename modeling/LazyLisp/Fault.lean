import LazyLisp.Diagnostic

/-!
# Faults

The causes for which reading or evaluation stops, and their wording. Values that a message quotes
are held as their printed text, so a fault says nothing about where in the source they came from.
-/

namespace LazyLisp

/-- How a special form can be misshapen. -/
inductive Misshape where
  | quoteArguments (received : Nat)
  | defineNothing
  | defineValue (name : String)
  | defineTarget
  | defineUnnamed
  | defineName
  | defineBody (name : String)
  | lambdaNothing
  | lambdaParameters
  | lambdaParameter (parameter : String)
  | lambdaBody
  | ifArguments (received : Nat)
  | setArguments
  | setTarget
  | letNothing
  | letBindings
  | letBody
  | letPair (binding : String)
  | letName (name : String)
  deriving DecidableEq, Repr

namespace Misshape

/-- What is wrong with the form. -/
def message : Misshape → String
  | .quoteArguments n => "`quote` expects exactly one argument but received " ++ n.repr
  | .defineNothing => "`define` expects a name and a value"
  | .defineValue name => "`(define " ++ name ++ " ...)` expects exactly one value expression"
  | .defineTarget => "`define` expects a symbol or a (name params...) list"
  | .defineUnnamed => "`define` signature is missing a function name"
  | .defineName => "`define` function name must be a symbol"
  | .defineBody name => "`define` of `" ++ name ++ "` has an empty body"
  | .lambdaNothing => "`lambda` expects a parameter list"
  | .lambdaParameters => "`lambda` parameters must be a list of symbols"
  | .lambdaParameter p => "`lambda` parameter `" ++ p ++ "` is not a symbol"
  | .lambdaBody => "`lambda` has an empty body"
  | .ifArguments n =>
    "`if` expects a test, a consequent and an optional alternative, received " ++ n.repr ++
      " arguments"
  | .setArguments => "`set!` expects a name and a value"
  | .setTarget => "`set!` target must be a symbol"
  | .letNothing => "`let` expects a binding list"
  | .letBindings => "`let` bindings must be a list of (name value) pairs"
  | .letBody => "`let` has an empty body"
  | .letPair b => "`let` binding `" ++ b ++ "` is not a (name value) pair"
  | .letName n => "`let` binding name `" ++ n ++ "` is not a symbol"

end Misshape

/-- Why reading or evaluation stopped. -/
inductive Fault where
  /-- The bytes are not UTF-8 text from this offset on. -/
  | encoding (offset : Nat)
  | strayClosing
  | integerRange (literal : String)
  | unterminated
  | unbound (name : String)
  /-- More evaluations were nested than the limit allows. -/
  | depth (limit : Nat)
  | emptyApplication
  | emptyBody
  | notCallable (type text : String)
  | closureArity (expected received : Nat)
  | builtinArity (name arity : String) (received : Nat)
  | wrongType (name expected found : String)
  | overflow (name : String)
  | divisionByZero
  | exponentRange
  | emptyList (name : String)
  | misshape (cause : Misshape)
  deriving DecidableEq, Repr

namespace Fault

/-- The class a fault is reported under. -/
def kind : Fault → Diagnostic.Kind
  | .encoding _ => .encoding
  | .strayClosing | .integerRange _ | .unterminated => .reading
  | .unbound name => .unbound name
  | .depth _ => .depth
  | .notCallable .. => .notCallable
  | .closureArity .. | .builtinArity .. => .arity
  | .wrongType .. => .type
  | .emptyApplication | .emptyBody | .overflow _ | .divisionByZero | .exponentRange
  | .emptyList _ | .misshape _ => .evaluation

/-- The message a fault is reported with. -/
def message : Fault → String
  | .encoding offset => "input is not valid UTF-8 text at byte " ++ offset.repr
  | .strayClosing => "unexpected `)` with no matching `(`"
  | .integerRange literal => "integer literal `" ++ literal ++ "` is out of range"
  | .unterminated => "unterminated list: input ended before matching `)`"
  | .unbound name => "unbound symbol `" ++ name ++ "`"
  | .depth limit => "maximum evaluation depth of " ++ limit.repr ++ " exceeded"
  | .emptyApplication => "cannot evaluate an empty list"
  | .emptyBody => "function body is empty"
  | .notCallable type text => type ++ " `" ++ text ++ "` is not callable"
  | .closureArity expected received =>
    "function expected " ++ expected.repr ++ " arguments but received " ++ received.repr
  | .builtinArity name arity received =>
    "`" ++ name ++ "` expected " ++ arity ++ " arguments but received " ++ received.repr
  | .wrongType name expected found =>
    "`" ++ name ++ "` expected " ++ expected ++ " but found " ++ found
  | .overflow name => "integer overflow in `" ++ name ++ "`"
  | .divisionByZero => "division by zero"
  | .exponentRange => "exponent too large in `expt`"
  | .emptyList name => "`" ++ name ++ "` of an empty list"
  | .misshape cause => cause.message

/-- The report of a fault whose place is not known yet. -/
def diagnostic (f : Fault) : Diagnostic := { kind := f.kind, message := f.message }

/-- The report of a fault at `s`. -/
def diagnosticAt (f : Fault) (s : Span) : Diagnostic := f.diagnostic.withSpan s

end Fault

end LazyLisp
