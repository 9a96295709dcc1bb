import MacroLisp.Main
import MacroLisp.Proofs.Evaluation.Convergence
import MacroLisp.Proofs.Evaluation.Effect
import MacroLisp.Proofs.Scope.Confinement
import MacroLisp.Proofs.Engine.Services
import MacroLisp.Proofs.Template.Filling
import MacroLisp.Proofs.Template.Evaluation
import MacroLisp.Proofs.Number.Bits
import MacroLisp.Proofs.Number.ReadBack
import MacroLisp.Proofs.Reader.ReadBack
import MacroLisp.Proofs.Expansion.FixedPoint
import MacroLisp.Proofs.Expansion.Callee
import MacroLisp.Proofs.Expansion.Limit
import MacroLisp.Proofs.Spans.Node
import MacroLisp.Proofs.Spans.Reader
import MacroLisp.Proofs.Domain.Data
import MacroLisp.Proofs.Domain.Evaluation
import MacroLisp.Proofs.Spans.Evaluation
import MacroLisp.Proofs.Spans.Session
import MacroLisp.Proofs.Reader.Grammar
import MacroLisp.Proofs.Reader.Beginning
import MacroLisp.Proofs.Reader.Parsing
import MacroLisp.Proofs.Likeness.Node
import MacroLisp.Proofs.Likeness.Builtin
import MacroLisp.Proofs.Likeness.State
import MacroLisp.Proofs.Likeness.Reader
import MacroLisp.Proofs.Likeness.Evaluation
import MacroLisp.Proofs.Likeness.Engine
import MacroLisp.Proofs.Likeness.Spans
import MacroLisp.Proofs.Script.Independence
import MacroLisp.Proofs.Reader.Computed
import MacroLisp.Proofs.Scope.History
import MacroLisp.Proofs.Spans.Services
import MacroLisp.Proofs.Reader.Joining
import MacroLisp.Proofs.Reader.Slices
import MacroLisp.Proofs.Reader.Comment
import MacroLisp.Proofs.Reader.Refusal
import MacroLisp.Proofs.Evaluation.Logs
import MacroLisp.Proofs.Engine.Splitting
import MacroLisp.Proofs.MacroFree.Region
import MacroLisp.Proofs.MacroFree.Tracking
import MacroLisp.Proofs.MacroFree.Plain
import MacroLisp.Proofs.MacroFree.Invisible
import MacroLisp.Proofs.Engine.Reset
import MacroLisp.Proofs.Script.Passing
import MacroLisp.Proofs.Script.Suite
import MacroLisp.Proofs.Repl.Lines
import MacroLisp.Proofs.Repl.Completeness
import MacroLisp.Proofs.Repl.Trimming
import MacroLisp.Proofs.Repl.Input
import MacroLisp.Proofs.Repl.Session
import MacroLisp.Proofs.Evaluation.Composition
import MacroLisp.Proofs.Expansion.Gate
import MacroLisp.Proofs.Engine.Guarded
import MacroLisp.Proofs.CommandLine.Limit
import MacroLisp.Proofs.Evaluation.Door
import MacroLisp.Proofs.Evaluation.Attribution
import MacroLisp.Proofs.Scope.Parameters
import MacroLisp.Proofs.Expansion.Trace
import MacroLisp.Proofs.Number.Order
import MacroLisp.Proofs.Builtin.Comparison
import MacroLisp.Proofs.Number.Document
import MacroLisp.Proofs.Dump.Document
import MacroLisp.Proofs.Dump.Lossless
import MacroLisp.Proofs.Engine.Output
