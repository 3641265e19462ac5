import SignalNet.Compile.Action
import SignalNet.Compile.Command
import SignalNet.Compile.Compiler
import SignalNet.Compile.Error
import SignalNet.Compile.Lower
import SignalNet.Compile.Parameters
import SignalNet.Compile.Ports
import SignalNet.Compile.Rule
import SignalNet.Compile.Session
import SignalNet.Compile.State
import SignalNet.Decimal.Layout
import SignalNet.Decimal.Reader
import SignalNet.Decimal.Shortest
import SignalNet.Document
import SignalNet.Expr.Build
import SignalNet.Expr.Error
import SignalNet.Expr.Form
import SignalNet.Expr.Persist
import SignalNet.Expr.Pool
import SignalNet.Expr.Probe
import SignalNet.Expr.Simplify
import SignalNet.Expr.Substitute
import SignalNet.Expr.Typing
import SignalNet.Geometry
import SignalNet.Host
import SignalNet.Ident
import SignalNet.Kind
import SignalNet.Listener
import SignalNet.Motion.Action
import SignalNet.Motion.Command
import SignalNet.Motion.StateExpr
import SignalNet.Net.Error
import SignalNet.Net.Export
import SignalNet.Net.Fragment
import SignalNet.Net.Order
import SignalNet.Net.Primitive
import SignalNet.Net.Reaction
import SignalNet.Net.Simulator
import SignalNet.Operator
import SignalNet.Operator.Eval
import SignalNet.Proofs.Compile.Lowering
import SignalNet.Proofs.Compile.Representation
import SignalNet.Proofs.Computation
import SignalNet.Proofs.Net.Reaction
import SignalNet.Proofs.Net.Cycle
import SignalNet.Proofs.Net.Order
import SignalNet.Proofs.Net.Run
import SignalNet.Proofs.Net.Sweep
import SignalNet.Proofs.Net.Wiring
import SignalNet.Proofs.Pool.Construction
import SignalNet.Proofs.Pool.Course
import SignalNet.Proofs.Pool.WellFormed
import SignalNet.Scalar.Double
import SignalNet.Scalar.Finite
import SignalNet.Scalar.Rigid
import SignalNet.Scope
import SignalNet.Settings
import SignalNet.Settings.Text
import SignalNet.Signal
import SignalNet.Table
import SignalNet.Text.Invisible
import SignalNet.Text.Quoted
import SignalNet.Value
import SignalNet.Value.Text
import SignalNet.View
import SignalNet.Yaml.Block
import SignalNet.Yaml.Cursor
import SignalNet.Yaml.Lexer
import SignalNet.Yaml.Plain
import SignalNet.Yaml.Quoted
import SignalNet.Yaml.Tag
import SignalNet.Yaml.Token
import SignalNet.Yaml.Tree
import SignalNet.Proofs.Compile.Meaning
import SignalNet.Proofs.Net.Typing
import SignalNet.Proofs.Compile.Accepts
import SignalNet.Proofs.Pool.Known
import SignalNet.Proofs.Compile.Probe
import SignalNet.Proofs.Net.Soundness
import SignalNet.Proofs.Compile.Typing
import SignalNet.Proofs.Motion.Parts
import SignalNet.Proofs.Motion.Built
import SignalNet.Proofs.Compile.Signals
import SignalNet.Proofs.Compile.Soundness
import SignalNet.Proofs.Net.Equations
import SignalNet.Proofs.Scalar.Sign
import SignalNet.Proofs.Folding.Known
import SignalNet.Proofs.Folding.Course
import SignalNet.Proofs.Compile.Traversal
import SignalNet.Proofs.Compile.Loops
import SignalNet.Proofs.Motion.Scale
import SignalNet.Proofs.Scalar.Exact
import SignalNet.Proofs.Motion.Slowing
import SignalNet.Proofs.Compile.Cancellation
import SignalNet.Proofs.Compile.Discipline
import SignalNet.Proofs.Motion.Scopes
import SignalNet.Proofs.Compile.Isolation
import SignalNet.Proofs.Motion.Plain
import SignalNet.Proofs.Net.Settling
import SignalNet.Proofs.Compile.Failures
import SignalNet.Proofs.Compile.Closing
import SignalNet.Proofs.Compile.Rounds
import SignalNet.Proofs.Compile.Completion
import SignalNet.Proofs.Compile.Calls
import SignalNet.Proofs.Motion.States
import SignalNet.Proofs.Compile.States
import SignalNet.Proofs.Compile.Announced
import SignalNet.Proofs.Compile.Commands
import SignalNet.Proofs.Net.Acyclic
import SignalNet.Proofs.Compile.Override
import SignalNet.Proofs.Scalar.Products
import SignalNet.Proofs.Motion.Moving
import SignalNet.Proofs.Compile.Approach
import SignalNet.Proofs.Compile.Milestones
import SignalNet.Net.Ledger
import SignalNet.Proofs.Net.Ledger
import SignalNet.Proofs.Net.Slots
import SignalNet.Proofs.Net.Independence
import SignalNet.Proofs.Compile.Lookups
import SignalNet.Proofs.Compile.Supply
import SignalNet.Proofs.Net.Priority
import SignalNet.Proofs.Net.Sharing
import SignalNet.Proofs.Compile.Observation
import SignalNet.Proofs.Pool.Replay
import SignalNet.Proofs.Listener
import SignalNet.Proofs.Compile.Channels
import SignalNet.Proofs.Compile.Wrapping
import SignalNet.Proofs.Net.Readiness
import SignalNet.Proofs.Compile.Entries
import SignalNet.Proofs.Compile.Placeholders
import SignalNet.Proofs.Motion.History
import SignalNet.Proofs.Pool.Reduced
import SignalNet.Proofs.Pool.Replacements
import SignalNet.Proofs.Folding.Regrouping
import SignalNet.Proofs.Compile.Dynamics
import SignalNet.Proofs.Folding.Preservation
import SignalNet.Proofs.Pool.Atomicity
import SignalNet.Proofs.Pool.Tree
import SignalNet.Proofs.Pool.Substitution
import SignalNet.Proofs.Net.Stopped
import SignalNet.Proofs.Net.Rejected
import SignalNet.Proofs.Pool.Interrupted
import SignalNet.Proofs.Compile.Constants
import SignalNet.Proofs.Pool.Joining
import SignalNet.Proofs.Compile.Availability
import SignalNet.Proofs.Compile.Constancy
import SignalNet.Proofs.Pool.Operands
import SignalNet.Proofs.Pool.Probes
import SignalNet.Proofs.Pool.Representation
