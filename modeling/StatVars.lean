import StatVars.Bundle
import StatVars.Calendar.Date
import StatVars.Calendar.Instant
import StatVars.Calendar.Parser
import StatVars.Change.Add
import StatVars.Change.Basic
import StatVars.Change.Insert
import StatVars.Change.Run
import StatVars.Change.Write
import StatVars.Command.Basic
import StatVars.Command.Batch
import StatVars.Command.Codec
import StatVars.Command.Normalize
import StatVars.Config
import StatVars.Conversation.Basic
import StatVars.Conversation.Host
import StatVars.Conversation.Memory
import StatVars.Conversation.Nearest
import StatVars.Conversation.Outage
import StatVars.Conversation.Session
import StatVars.Described
import StatVars.Fallible
import StatVars.Json.Basic
import StatVars.Json.Number
import StatVars.Json.Reader
import StatVars.Json.Record
import StatVars.Json.Writer
import StatVars.Literal.Basic
import StatVars.Literal.Parser
import StatVars.Literal.Relaxed
import StatVars.Main
import StatVars.Number.Binary64
import StatVars.Number.Decimal
import StatVars.Number.Estimate
import StatVars.Number.Shortest
import StatVars.Path.Access
import StatVars.Path.Basic
import StatVars.Path.Codec
import StatVars.Path.Format
import StatVars.Path.Parser
import StatVars.Proofs.Access
import StatVars.Proofs.Annotations
import StatVars.Proofs.ArgumentSlices
import StatVars.Proofs.Avoid
import StatVars.Proofs.Balance
import StatVars.Proofs.BlockSlices
import StatVars.Proofs.Blocks
import StatVars.Proofs.ByteScan
import StatVars.Proofs.ByteSteps
import StatVars.Proofs.Calls
import StatVars.Proofs.ClosedLeaves
import StatVars.Proofs.Closing
import StatVars.Proofs.Coherence
import StatVars.Proofs.Composition
import StatVars.Proofs.Creation
import StatVars.Proofs.Descriptions
import StatVars.Proofs.Digits
import StatVars.Proofs.Edit
import StatVars.Proofs.Effect
import StatVars.Proofs.Estimates
import StatVars.Proofs.ExactSums
import StatVars.Proofs.Frame
import StatVars.Proofs.Growth
import StatVars.Proofs.Guards
import StatVars.Proofs.Hereditary
import StatVars.Proofs.Independence
import StatVars.Proofs.Isolation
import StatVars.Proofs.JsonString
import StatVars.Proofs.JsonText
import StatVars.Proofs.LineEnds
import StatVars.Proofs.LiteralText
import StatVars.Proofs.NearestSnapshot
import StatVars.Proofs.Nesting
import StatVars.Proofs.NumberText
import StatVars.Proofs.Numbers
import StatVars.Proofs.OpenContainers
import StatVars.Proofs.Overlay
import StatVars.Proofs.Pass
import StatVars.Proofs.PathGrammar
import StatVars.Proofs.PathLength
import StatVars.Proofs.PathText
import StatVars.Proofs.Persistence
import StatVars.Proofs.Recorded
import StatVars.Proofs.Records
import StatVars.Proofs.Recovery
import StatVars.Proofs.Refresh
import StatVars.Proofs.Refusal
import StatVars.Proofs.Regeneration
import StatVars.Proofs.Regular
import StatVars.Proofs.Reinference
import StatVars.Proofs.RelaxedText
import StatVars.Proofs.Rendering
import StatVars.Proofs.Reports
import StatVars.Proofs.Rollback
import StatVars.Proofs.RootWrites
import StatVars.Proofs.Rounding
import StatVars.Proofs.SafeExtraction
import StatVars.Proofs.Samples
import StatVars.Proofs.SchemaText
import StatVars.Proofs.Seam
import StatVars.Proofs.SelfContained
import StatVars.Proofs.Shape
import StatVars.Proofs.Slices
import StatVars.Proofs.Slots
import StatVars.Proofs.StandardText
import StatVars.Proofs.Succession
import StatVars.Proofs.Truth
import StatVars.Proofs.Unannotated
import StatVars.Proofs.Walks
import StatVars.Proofs.WholeNumbers
import StatVars.Report
import StatVars.Schema.Basic
import StatVars.Schema.Check
import StatVars.Schema.Codec
import StatVars.Schema.Infer
import StatVars.Schema.Reconcile
import StatVars.Statement.Arguments
import StatVars.Statement.Basic
import StatVars.Statement.Scan
import StatVars.Statement.Tag
import StatVars.Table
import StatVars.Template
import StatVars.Text.Blank
import StatVars.Text.CaseFold
import StatVars.Text.Combining
import StatVars.Text.Printable
import StatVars.Text.Quoted
import StatVars.Text.Quotes
import StatVars.Text.Ranges
import StatVars.Text.Utf8
import StatVars.Text.WordChar
