import ByteSchema.Expression.Operand
import ByteSchema.Main
import ByteSchema.Proofs.Attribution
import ByteSchema.Proofs.Borrowed
import ByteSchema.Proofs.Causes
import ByteSchema.Proofs.Chunks
import ByteSchema.Proofs.Codec
import ByteSchema.Proofs.Coherence
import ByteSchema.Proofs.Composition
import ByteSchema.Proofs.Condition
import ByteSchema.Proofs.Content
import ByteSchema.Proofs.Data
import ByteSchema.Proofs.Distinct
import ByteSchema.Proofs.ErrorPath
import ByteSchema.Proofs.Escape
import ByteSchema.Proofs.Evaluation
import ByteSchema.Proofs.Exact
import ByteSchema.Proofs.Extent
import ByteSchema.Proofs.Failing
import ByteSchema.Proofs.Faithful
import ByteSchema.Proofs.Fields
import ByteSchema.Proofs.Follows
import ByteSchema.Proofs.Grammar
import ByteSchema.Proofs.Growth
import ByteSchema.Proofs.Guards
import ByteSchema.Proofs.Ignored
import ByteSchema.Proofs.IntegerBytes
import ByteSchema.Proofs.Interrupted
import ByteSchema.Proofs.Json
import ByteSchema.Proofs.Layout
import ByteSchema.Proofs.Lexical
import ByteSchema.Proofs.Limits
import ByteSchema.Proofs.Lines
import ByteSchema.Proofs.Loading
import ByteSchema.Proofs.Locality
import ByteSchema.Proofs.Mirror
import ByteSchema.Proofs.Numeral
import ByteSchema.Proofs.Offsets
import ByteSchema.Proofs.Order
import ByteSchema.Proofs.Overlap
import ByteSchema.Proofs.Payload
import ByteSchema.Proofs.Portable
import ByteSchema.Proofs.Printing
import ByteSchema.Proofs.Qualified
import ByteSchema.Proofs.ReaderComplete
import ByteSchema.Proofs.ReaderSound
import ByteSchema.Proofs.Records
import ByteSchema.Proofs.Remainder
import ByteSchema.Proofs.Repetition
import ByteSchema.Proofs.Replay
import ByteSchema.Proofs.Resolution
import ByteSchema.Proofs.RoundTrip
import ByteSchema.Proofs.Selection
import ByteSchema.Proofs.Span
import ByteSchema.Proofs.Status
import ByteSchema.Proofs.Summary
import ByteSchema.Proofs.TerminatedList
import ByteSchema.Proofs.TerminatedText
import ByteSchema.Proofs.Termination
import ByteSchema.Proofs.Tightest
import ByteSchema.Proofs.Tiling
import ByteSchema.Proofs.Tokens
import ByteSchema.Proofs.Tree
import ByteSchema.Proofs.Unreadable
import ByteSchema.Proofs.Visit
import ByteSchema.Proofs.Warnings
import ByteSchema.Proofs.WriteOnce
