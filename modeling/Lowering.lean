import Lowering.Double
import Lowering.Double.Shortest
import Lowering.Double.Text
import Lowering.Text.Hidden
import Lowering.Text.Layout
import Lowering.Text.Quoted
import Lowering.Json
import Lowering.Json.Decimal
import Lowering.Json.Reader
import Lowering.Json.Printer
import Lowering.Json.Error
import Lowering.Tree.Kind
import Lowering.Tree.Fields
import Lowering.Tree.Node
import Lowering.Tree.Reader
import Lowering.Tree.Printer
import Lowering.Code.Operation
import Lowering.Code.Op
import Lowering.Code.Value
import Lowering.Code.Heap
import Lowering.Strategy
import Lowering.Code.Describe
import Lowering.Event
import Lowering.Compile.State
import Lowering.Compile.Emitter
import Lowering.Compile
import Lowering.Image
import Lowering.Link
import Lowering.Image.Listing
import Lowering.Image.Schema
import Lowering.Image.Datum
import Lowering.Image.Wire
import Lowering.Image.Json
import Lowering.Code.Snapshot
import Lowering.Session
import Lowering.Cli.Options
import Lowering.Cli.Filter
import Lowering.Cli
import Lowering.Main
import Lowering.Proofs.Link.Graph
import Lowering.Proofs.Link.Table
import Lowering.Proofs.Link.Spec
import Lowering.Proofs.Link.Order
import Lowering.Proofs.Link.Identity
import Lowering.Proofs.Link.Sequences
import Lowering.Proofs.Link.Renaming
import Lowering.Proofs.Compile.Built
import Lowering.Proofs.Compile.Closed
import Lowering.Proofs.Compile.Linkable
import Lowering.Proofs.Flow.Machine
import Lowering.Proofs.Flow.Preservation
import Lowering.Proofs.Terms.Computed
import Lowering.Proofs.Compile.Uniform
import Lowering.Proofs.Compile.History
import Lowering.Proofs.Compile.Composition
import Lowering.Proofs.Compile.Handles
import Lowering.Proofs.Tree.Walk
import Lowering.Proofs.Compile.Refusal
import Lowering.Proofs.Image.Shapes
import Lowering.Proofs.Image.Bytes
import Lowering.Proofs.Compile.Redirect
import Lowering.Proofs.Compile.Context
import Lowering.Proofs.Compile.Roles
import Lowering.Proofs.Compile.Writers
import Lowering.Proofs.Compile.Acyclic
import Lowering.Proofs.Compile.Operands
import Lowering.Proofs.Tree.Grammar
import Lowering.Proofs.Double.ReadBack
import Lowering.Proofs.Json.Decimal
import Lowering.Proofs.Json.Fuel
import Lowering.Proofs.Json.ReadBack
import Lowering.Proofs.Tree.RoundTrip
import Lowering.Proofs.Link.Mirror
import Lowering.Proofs.Compile.Frame
import Lowering.Proofs.Json.Pretty
import Lowering.Proofs.Image.Text
import Lowering.Proofs.Link.Descent
import Lowering.Proofs.Link.Reading
import Lowering.Proofs.Compile.Labels
import Lowering.Proofs.Compile.Lists
import Lowering.Proofs.Compile.Tags
import Lowering.Proofs.Image.Truncation
import Lowering.Proofs.Image.Shortest
import Lowering.Proofs.Image.Fuel
import Lowering.Proofs.Image.Readability
import Lowering.Proofs.Image.Lines
import Lowering.Proofs.Tree.Findings
import Lowering.Proofs.Compile.Findings
import Lowering.Proofs.Compile.Folding
import Lowering.Proofs.Image.Rows
