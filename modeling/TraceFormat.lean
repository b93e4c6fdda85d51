import TraceFormat.Declaration.Layout
import TraceFormat.Definition.Equality
import TraceFormat.Definition.Write
import TraceFormat.Descriptor.Json
import TraceFormat.Metadata
import TraceFormat.Proofs.Cursor.Number
import TraceFormat.Proofs.Text.Utf8
import TraceFormat.Proofs.Decode.Run
import TraceFormat.Proofs.Cursor.Text
import TraceFormat.Proofs.Decode.RoundTrip
import TraceFormat.Proofs.Decode.Conformance
import TraceFormat.Proofs.Scope.Closed
import TraceFormat.Proofs.Scope.Stack
import TraceFormat.Proofs.Decode.Consumed
import TraceFormat.Proofs.Decode.Lexical
import TraceFormat.Proofs.Event.InOrder
import TraceFormat.Proofs.Decode.InStep
import TraceFormat.Proofs.Decode.Limits
import TraceFormat.Proofs.Decode.Translation
import TraceFormat.Proofs.Declaration.EnumTable
import TraceFormat.Proofs.Decode.Layout
import TraceFormat.Proofs.Decode.Sized
import TraceFormat.Proofs.Decode.Region
import TraceFormat.Proofs.Definition.ReadBack
import TraceFormat.Proofs.Declaration.Names
import TraceFormat.Proofs.Definition.Ways
import TraceFormat.Proofs.Scope.OwnPath
import TraceFormat.Proofs.Cursor.Words
import TraceFormat.Proofs.Descriptor.Expand
import TraceFormat.Proofs.Descriptor.WellFormed
import TraceFormat.Proofs.Decode.Legal
import TraceFormat.Proofs.Cursor.Numbering
import TraceFormat.Proofs.Descriptor.RoundTrip
import TraceFormat.Proofs.Cursor.Packed
import TraceFormat.Proofs.Decode.Sequence
import TraceFormat.Proofs.Decode.Selected
import TraceFormat.Proofs.Definition.Siblings
import TraceFormat.Proofs.Decode.StringEnd
import TraceFormat.Proofs.Decode.Paid
import TraceFormat.Proofs.Declaration.EnumOrder
import TraceFormat.Proofs.Text.Numeral
import TraceFormat.Proofs.Definition.Footprint
import TraceFormat.Proofs.Event.Merged
import TraceFormat.Proofs.Cursor.AllOrNothing
import TraceFormat.Proofs.Declaration.SameLayout
import TraceFormat.Proofs.Definition.Characters
import TraceFormat.Proofs.Event.Timestamp
