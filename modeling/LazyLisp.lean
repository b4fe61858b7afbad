import LazyLisp.Builtin.Basic
import LazyLisp.Builtin.Call
import LazyLisp.CommandLine
import LazyLisp.Decimal.Float
import LazyLisp.Decimal.Shortest
import LazyLisp.Diagnostic
import LazyLisp.Eval.Form
import LazyLisp.Eval.Memory
import LazyLisp.Eval.Step
import LazyLisp.Fault
import LazyLisp.Files
import LazyLisp.Main
import LazyLisp.Number
import LazyLisp.Reader.Atom
import LazyLisp.Reader.Program
import LazyLisp.Repl
import LazyLisp.Scope
import LazyLisp.Session
import LazyLisp.SourceTree
import LazyLisp.Span
import LazyLisp.Text.Blank
import LazyLisp.Text.Utf8
import LazyLisp.Token
import LazyLisp.Value.Basic
import LazyLisp.Value.Equality
import LazyLisp.Value.Printer
import LazyLisp.Value.Quotation
import LazyLisp.Proofs.DepthLimit
import LazyLisp.Proofs.OwnerWalk
import LazyLisp.Proofs.Renaming
import LazyLisp.Proofs.Simulation.Basic
import LazyLisp.Proofs.Simulation.Memory
import LazyLisp.Proofs.Simulation.Builtin
import LazyLisp.Proofs.Simulation.Eval
import LazyLisp.Proofs.Simulation.Reader
import LazyLisp.Proofs.Calls
import LazyLisp.Proofs.CodeAndData
import LazyLisp.Proofs.TreeNumber
import LazyLisp.Proofs.Reset
import LazyLisp.Proofs.Origins
import LazyLisp.Proofs.Brackets
import LazyLisp.Proofs.Literal
import LazyLisp.Proofs.Computation
import LazyLisp.Proofs.Reading
import LazyLisp.Proofs.Descent
import LazyLisp.Proofs.Spelling
import LazyLisp.Proofs.Acceptance
import LazyLisp.Proofs.Layout
import LazyLisp.Proofs.SourceNodes
import LazyLisp.Proofs.Domain
import LazyLisp.Proofs.Confinement
import LazyLisp.Proofs.Active
import LazyLisp.Proofs.FailingForm
import LazyLisp.Proofs.Concatenation
import LazyLisp.Proofs.Printing
import LazyLisp.Proofs.UnusedDefinition
import LazyLisp.Proofs.FrameStore
import LazyLisp.Proofs.FrameGrowth
import LazyLisp.Proofs.Division
import LazyLisp.Proofs.Log
import LazyLisp.Proofs.Forcing
import LazyLisp.Proofs.Provenance
import LazyLisp.Proofs.StaleNodes
import LazyLisp.Proofs.Decomposition
import LazyLisp.Proofs.IntegerArithmetic
import LazyLisp.Proofs.Shape
import LazyLisp.Proofs.Numbering
import LazyLisp.Proofs.LetAsCall
import LazyLisp.Proofs.Assignment
import LazyLisp.Proofs.Cells
import LazyLisp.Proofs.Encoding
import LazyLisp.Proofs.FunctionDefinition
import LazyLisp.Proofs.Equality
import LazyLisp.Proofs.Traceback
