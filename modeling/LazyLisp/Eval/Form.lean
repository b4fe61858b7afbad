import LazyLisp.Fault
import LazyLisp.Value.Printer

/-!
# Special forms

Six names at the head of a code list give its other items a meaning of their own. `Form.parse`
checks the shape of such a list, and only of that list: it evaluates nothing.
-/

namespace LazyLisp

/-- The names with a meaning of their own. -/
inductive Keyword where
  | quote
  | define
  | lambda
  | ifThen
  | assign
  | letIn
  deriving DecidableEq, Repr

/-- The keyword of this name. -/
def Keyword.ofName? : String → Option Keyword
  | "quote" => some .quote
  | "define" => some .define
  | "lambda" => some .lambda
  | "if" => some .ifThen
  | "set!" => some .assign
  | "let" => some .letIn
  | _ => none

/-- A well-shaped special form. -/
inductive Form where
  | quote (datum : Value)
  | define (name : String) (expr : Value)
  | lambda (params : List String) (body : List Value)
  | ifThen (test consequent : Value) (alternative : Option Value)
  | assign (name : String) (expr : Value)
  | letIn (bindings : List (String × Value)) (body : List Value)

namespace Form

/-- The names in a parameter list; the first item that is no symbol is at fault. -/
def paramNames (params : List Value) : Except Misshape (List String) :=
  params.mapM fun p =>
    match p with
    | .symbol name => .ok name
    | p => .error (.lambdaParameter p.display)

/-- One binding of a `let`: a list, of any tag, of a symbol and an expression. -/
def letBinding (b : Value) : Except Misshape (String × Value) :=
  match b with
  | .list [.symbol name, expr] _ _ => .ok (name, expr)
  | .list [name, _] _ _ => .error (.letName name.display)
  | b => .error (.letPair b.display)

/-- The function that `(define (name params...) body...)` binds: a `lambda` form that reports as the
`define` form it stands for. -/
def lambdaOf (params body : List Value) (origin : Option NodeId) : Value :=
  .list (.symbol "lambda" :: .list params .code none :: body) .code origin

/-- `(define name expr)`, or `(define (name params...) body...)`, which defines a function. -/
def parseDefine (origin : Option NodeId) : List Value → Except Misshape Form
  | [] => .error .defineNothing
  | .symbol name :: rest =>
    match rest with
    | [expr] => .ok (.define name expr)
    | _ => .error (.defineValue name)
  | .list signature _ _ :: body =>
    match signature, body with
    | [], _ => .error .defineUnnamed
    | .symbol name :: _, [] => .error (.defineBody name)
    | .symbol name :: params, body => .ok (.define name (lambdaOf params body origin))
    | _ :: _, _ => .error .defineName
  | _ :: _ => .error .defineTarget

/-- `(lambda (params...) body...)` -/
def parseLambda : List Value → Except Misshape Form
  | [] => .error .lambdaNothing
  | .list params _ _ :: body => do
    let names ← paramNames params
    if body.isEmpty then throw .lambdaBody
    return .lambda names body
  | _ :: _ => .error .lambdaParameters

/-- `(let ((name expr)...) body...)`. All bindings are checked before the frame of the `let` is
made. To check each one just before it is put into the new frame would make no difference that can
be seen: no expression is evaluated meanwhile, and nothing refers to a frame that is given up half
filled. -/
def parseLet : List Value → Except Misshape Form
  | [] => .error .letNothing
  | .list bindings _ _ :: body => do
    if body.isEmpty then throw .letBody
    return .letIn (← bindings.mapM letBinding) body
  | _ :: _ => .error .letBindings

/-- The form that a keyword makes of the items after it. `origin` is the node of the whole list. -/
def parse (k : Keyword) (origin : Option NodeId) (args : List Value) : Except Misshape Form :=
  match k, args with
  | .quote, [datum] => .ok (.quote datum)
  | .quote, args => .error (.quoteArguments args.length)
  | .define, args => parseDefine origin args
  | .lambda, args => parseLambda args
  | .ifThen, [test, consequent] => .ok (.ifThen test consequent none)
  | .ifThen, [test, consequent, alternative] => .ok (.ifThen test consequent (some alternative))
  | .ifThen, args => .error (.ifArguments args.length)
  | .assign, [.symbol name, expr] => .ok (.assign name expr)
  | .assign, [_, _] => .error .setTarget
  | .assign, _ => .error .setArguments
  | .letIn, args => parseLet args

end Form

end LazyLisp
