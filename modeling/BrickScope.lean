import BrickScope.Analysis.Report
import BrickScope.Analysis.Steps
import BrickScope.Annotation
import BrickScope.Construct
import BrickScope.Context
import BrickScope.Decimal.Shortest
import BrickScope.Decode.Error
import BrickScope.Decode.Format
import BrickScope.Decode.Shape
import BrickScope.Distinct
import BrickScope.Existence.Basic
import BrickScope.Existence.Evidence
import BrickScope.Existence.Schema
import BrickScope.Json.Basic
import BrickScope.Json.Lexeme
import BrickScope.Json.Number
import BrickScope.Json.Printer
import BrickScope.Log
import BrickScope.Pipeline.Basic
import BrickScope.Pipeline.Element
import BrickScope.Pipeline.Json
import BrickScope.Pipeline.Outline
import BrickScope.Pipeline.Position
import BrickScope.Pipeline.Visits
import BrickScope.Pipeline.Walk
import BrickScope.Proofs.Analysis.Descent
import BrickScope.Proofs.Analysis.Diagnostics
import BrickScope.Proofs.Analysis.History
import BrickScope.Proofs.Analysis.Identity
import BrickScope.Proofs.Analysis.Injection
import BrickScope.Proofs.Analysis.Isolation
import BrickScope.Proofs.Analysis.Memory
import BrickScope.Proofs.Analysis.Resolution
import BrickScope.Proofs.Analysis.Run
import BrickScope.Proofs.Analysis.ScopeLaw
import BrickScope.Proofs.Analysis.Stacks
import BrickScope.Proofs.Analysis.Trace
import BrickScope.Proofs.Analysis.Violations
import BrickScope.Proofs.Analysis.Walk
import BrickScope.Proofs.Decode.Record
import BrickScope.Proofs.Existence.Definedness
import BrickScope.Proofs.Existence.Evidence
import BrickScope.Proofs.Existence.Folding
import BrickScope.Proofs.Existence.Naming
import BrickScope.Proofs.Existence.Openness
import BrickScope.Proofs.Existence.Permissive
import BrickScope.Proofs.Existence.SingleWrites
import BrickScope.Proofs.Existence.Tags
import BrickScope.Proofs.Pipeline.Contents
import BrickScope.Proofs.Pipeline.Coverage
import BrickScope.Proofs.Pipeline.Mentions
import BrickScope.Proofs.Pipeline.Placement
import BrickScope.Proofs.Pipeline.Position
import BrickScope.Proofs.Pipeline.RoundTrip
import BrickScope.Proofs.Pipeline.Spots
import BrickScope.Proofs.Pipeline.Swap
import BrickScope.Proofs.Pipeline.VisitOrder
import BrickScope.Proofs.Schema.Distinct
import BrickScope.Proofs.Schema.RoundTrip
import BrickScope.Proofs.Sources
import BrickScope.Proofs.Spelling
import BrickScope.Proofs.Template.Agreement
import BrickScope.Proofs.Template.Closers
import BrickScope.Proofs.Template.Composition
import BrickScope.Proofs.Template.Cursor
import BrickScope.Proofs.Template.Dashes
import BrickScope.Proofs.Template.Faults
import BrickScope.Proofs.Template.Layout
import BrickScope.Proofs.Template.Literals
import BrickScope.Proofs.Template.LongestPath
import BrickScope.Proofs.Template.Opacity
import BrickScope.Proofs.Template.Quoting
import BrickScope.Proofs.Template.Segmentation
import BrickScope.Proofs.Template.Skipping
import BrickScope.Proofs.Template.Tiling
import BrickScope.Proofs.Template.Tokens
import BrickScope.Proofs.Template.Words
import BrickScope.Reference
import BrickScope.Registry
import BrickScope.Schema.Basic
import BrickScope.Schema.Json
import BrickScope.Settings
import BrickScope.Table
import BrickScope.Template.Json
import BrickScope.Template.References
import BrickScope.Template.Tag
import BrickScope.Template.Token
import BrickScope.Text.Blank
import BrickScope.Text.Class
import BrickScope.Text.Digit
import BrickScope.Text.Offset
import BrickScope.Proofs.Analysis.BoundNames
import BrickScope.Proofs.Existence.Merging
import BrickScope.Proofs.Analysis.Sigils
import BrickScope.Proofs.Existence.Readers
import BrickScope.Proofs.Analysis.Malformed
import BrickScope.Proofs.Existence.Writes
import BrickScope.Proofs.Existence.Provenance
import BrickScope.Proofs.Analysis.Guards
import BrickScope.Proofs.Template.OpenIndices
