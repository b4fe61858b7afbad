import LazyLisp.Eval.Form
import LazyLisp.Eval.Memory
import LazyLisp.Value.Quotation

/-!
# Evaluation

`step` evaluates one expression, given an evaluator for the expressions inside it. `evalIn` closes
the knot: every evaluation counts while it is under way, and one that would exceed the limit fails.
So evaluation ends on every expression and every memory, also for programs that would otherwise run
forever.

All of it is written once, for any computations that have the `Effects`. `eval` is evaluation in
`EvalM`.
-/

namespace LazyLisp

/-- What stays fixed during an evaluation: the depth allowed in all, and the source tree for
reports. -/
structure Context where
  limit : Nat
  tree : SourceTree

/-- Places a report that has no place yet at the list of `origin`, and names the lists around it. -/
def Context.annotate (c : Context) (origin : Option NodeId) (d : Diagnostic) : Diagnostic :=
  match d.span, origin.bind fun id => (c.tree.get? id).map (id, ·) with
  | none, some (id, node) =>
    { d with span := some node.span, notes := d.notes ++ c.tree.traceback id }
  | _, _ => d

/-- Evaluates an expression in a frame, by a computation in `M`. -/
abbrev EvaluatorIn (M : Type → Type) := Value → FrameId → M Value

/-- Evaluates an expression in a frame. -/
abbrev Evaluator := EvaluatorIn EvalM

variable {M : Type → Type} [Monad M] [Effects M]

namespace Eval

open Effects

/-- Evaluates expressions in order; the value is that of the last one, or `start` if there are
none. -/
def sequence (ev : EvaluatorIn M) (env : FrameId) (start : Value) (exprs : List Value) : M Value :=
  exprs.foldlM (fun _ e => ev e env) start

/-- Evaluates the body of a function or of a `let`. -/
def body (ev : EvaluatorIn M) (env : FrameId) : List Value → M Value
  | [] => raise .emptyBody
  | exprs => sequence ev env .void exprs

/-- The value of a symbol. A deferred binding is evaluated in the frame that holds it, which then
keeps the value. -/
def resolve (ev : EvaluatorIn M) (env : FrameId) (name : String) : M Value := do
  match ← lookup env name with
  | (.value v, _) => return v
  | (.deferred e, owner) => settle owner name e (← ev e owner)

theorem resolve_eq (ev : Evaluator) (env : FrameId) (name : String) :
    resolve ev env name = (do
      match ← EvalM.lookup env name with
      | (.value v, _) => return v
      | (.deferred e, owner) => EvalM.force owner name (← ev e owner)) := rfl

/-- The frame of a call: the parameters, bound to the arguments, inside the frame that the function
was made in. -/
def callFrame (env : FrameId) (params : List String) (args : List Value) : Frame :=
  (params.zip args).foldl (fun f (name, v) => f.set name (.value v)) { parent := some env }

/-- The frame of a `let`. Of two bindings of one name the first counts. -/
def letFrame (env : FrameId) (bindings : List (String × Value)) : Frame :=
  bindings.foldl (fun f (name, e) => f.setNew name (.deferred e)) { parent := some env }

/-- Calls a function with evaluated arguments. -/
def apply (ev : EvaluatorIn M) (f : Value) (args : List Value) : M Value :=
  match f with
  | .builtin b => callBuiltin b args
  | .closure _ params exprs env =>
    if args.length = params.length then do
      body ev (← newFrame (callFrame env params args)) exprs
    else raise (.closureArity params.length args.length)
  | v => raise (.notCallable v.typeName v.display)

/-- Evaluates a special form. -/
def form (ev : EvaluatorIn M) (env : FrameId) : Form → M Value
  | .quote datum => return datum.quoted
  | .define name e => do
    Effects.define env name e
    return .symbol name
  | .lambda params exprs => newClosure params exprs env
  | .ifThen test consequent alternative => do
    if (← ev test env).truthy then ev consequent env
    else
      match alternative with
      | some e => ev e env
      | none => return .void
  | .assign name e => do
    Effects.assign env name (← ev e env)
    return .symbol name
  | .letIn bindings exprs => do
    body ev (← newFrame (letFrame env bindings)) exprs

/-- Evaluates every item from left to right, then calls the first with the others. -/
def application (ev : EvaluatorIn M) (env : FrameId) (items : List Value) : M Value := do
  match ← items.mapM (ev · env) with
  | [] => raise .emptyApplication
  | f :: args => apply ev f args

/-- Evaluates a code list: a special form if a keyword heads it, an application otherwise. -/
def codeList (ev : EvaluatorIn M) (env : FrameId) (origin : Option NodeId) (items : List Value) :
    M Value :=
  match items with
  | .symbol name :: args =>
    match Keyword.ofName? name with
    | some k =>
      match Form.parse k origin args with
      | .ok f => form ev env f
      | .error m => raise (.misshape m)
    | none => application ev env items
  | items => application ev env items

/-- Evaluates the forms of a program by means of `ev`. -/
def program (ev : EvaluatorIn M) (program : Value) (env : FrameId) : M Value :=
  match program with
  | .list forms _ _ => sequence ev env .void forms
  | e => ev e env

/-- Evaluates one expression by means of `ev`. Everything but symbols and code lists is its own
value. -/
def step (c : Context) (ev : EvaluatorIn M) : EvaluatorIn M := fun e env =>
  match e with
  | .symbol name => resolve ev env name
  | .list items .code origin => reporting (c.annotate origin) (codeList ev env origin items)
  | e => return e

theorem step_code (c : Context) (ev : Evaluator) (items : List Value) (origin : Option NodeId)
    (env : FrameId) :
    step c ev (.list items .code origin) env =
      (codeList ev env origin items).adaptExcept (c.annotate origin) := rfl

end Eval

/-- Evaluates an expression. The recursion is on a bound for the evaluations nested inside this one.
Under way are at most `c.limit`, so a bound of `c.limit` is never the one that is reached first. -/
def evalIn (c : Context) : (bound : Nat) → EvaluatorIn M
  | 0 => fun _ _ => Effects.raise (.depth c.limit)
  | bound + 1 => fun e env => Effects.nested c.limit (Eval.step c (evalIn c bound) e env)

/-- Evaluates an expression and changes the memory. -/
def eval (c : Context) (bound : Nat) : Evaluator := evalIn c bound

theorem eval_zero (c : Context) (e : Value) (env : FrameId) :
    eval c 0 e env = EvalM.raise (.depth c.limit) := rfl

theorem eval_succ (c : Context) (bound : Nat) (e : Value) (env : FrameId) :
    eval c (bound + 1) e env = EvalM.nested c.limit (Eval.step c (eval c bound) e env) := rfl

/-- Evaluates the forms of a program in order; its value is that of the last one. A value that is no
list counts as a program of one form. -/
def evalProgram (c : Context) (bound : Nat) (program : Value) (env : FrameId) : EvalM Value :=
  Eval.program (eval c bound) program env

end LazyLisp
