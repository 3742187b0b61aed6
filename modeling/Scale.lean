import Scale.Error
import Scale.LittleEndian
import Scale.Digits
import Scale.Scheme
import Scale.Sink
import Scale.Source
import Scale.Compact.Basic
import Scale.Integer
import Scale.Counted
import Scale.BitSeq
import Scale.BitSeq.Codec
import Scale.BitSeq.Lemmas
import Scale.Bounded
import Scale.WideUInt
import Scale.Enumeration
import Scale.Value.Basic
import Scale.Value.Order
import Scale.Value.Table
import Scale.Value.Lawful
import Scale.Layout
import Scale.Schema.Basic
import Scale.Schema.Layout
import Scale.Schema.Guarded
import Scale.Definitions
import Scale.Encode
import Scale.Decode
import Scale.Overwrite
import Scale.Append
import Scale.Catalogue
import Scale.Derive.Plan
import Scale.Derive.Codec
import Scale.Proofs.Emission
import Scale.Proofs.Compact.ClassicForm
import Scale.Proofs.Compact.Classic
import Scale.Proofs.Compact.ClassicGrammar
import Scale.Proofs.Compact.Jam
import Scale.Proofs.Compact.JamGrammar
import Scale.Proofs.Compact.Scheme
import Scale.Proofs.Compact.Integer
import Scale.Proofs.Counts
import Scale.Proofs.Reading.Collections
import Scale.Proofs.Reading.Congruence
import Scale.Proofs.Reading.Stability
import Scale.Proofs.Value.Parts
import Scale.Proofs.Value.Traversal
import Scale.Proofs.Writing.Congruence
import Scale.Proofs.Writing.Equations
import Scale.Proofs.Writing.Sinks
import Scale.Proofs.Append.Outcomes
import Scale.Proofs.Append.Runs
import Scale.Proofs.FixedInt
import Scale.Proofs.Utf8
import Scale.Proofs.Schema.Typing
import Scale.Proofs.Reading.Spans
import Scale.Proofs.Reading.Canonical
import Scale.Proofs.Forgetting.Congruence
import Scale.Proofs.Reading.Depth
import Scale.Proofs.Reading.Equations
import Scale.Proofs.RoundTrip.Steps
import Scale.Proofs.Forgetting.Equations
import Scale.Proofs.RoundTrip.Parts
import Scale.Proofs.RoundTrip.Values
import Scale.Proofs.Reading.Sources
import Scale.Proofs.Reading.Refusals
import Scale.Proofs.Derive.Fields
import Scale.Proofs.Derive.Products
import Scale.Proofs.Derive.Plans
import Scale.Proofs.Writing.Failures
import Scale.Proofs.Writing.Verdicts
import Scale.Proofs.Value.Table
import Scale.Proofs.Reading.Typing
import Scale.Proofs.RoundTrip.Separation
import Scale.Proofs.Reading.Persistence
import Scale.Proofs.Reading.Tables
import Scale.Proofs.RoundTrip.Tables
import Scale.Proofs.Overwriting.Merge
import Scale.Proofs.Overwriting.Steps
import Scale.Proofs.Overwriting.Agreement
import Scale.Proofs.Overwriting.Frame
import Scale.Proofs.RoundTrip.CountGuard
import Scale.Proofs.RoundTrip.Pointers
import Scale.Proofs.Derive.Schemas
import Scale.Proofs.BitHistory
import Scale.Proofs.RoundTrip.CodedAlike
import Scale.Proofs.Safety.Operations
import Scale.Proofs.Safety.Sources
import Scale.Proofs.Safety.Digits
import Scale.Proofs.Safety.Classic
import Scale.Proofs.Safety.Jam
import Scale.Proofs.Safety.Integers
import Scale.Proofs.Safety.Counted
import Scale.Proofs.Safety.Reading
import Scale.Proofs.Safety.Overwriting
import Scale.Proofs.Safety.Writing
import Scale.Proofs.Safety.Coding
import Scale.Proofs.RawSpans
import Scale.Proofs.Compact.Types
import Scale.Proofs.Value.Inventory
import Scale.Proofs.Reading.Along
import Scale.Proofs.Reading.Amplification
import Scale.Proofs.Reading.Nodes
import Scale.Proofs.Reading.Recursion
import Scale.Proofs.Append.EncodedItems
import Scale.Proofs.Derive.Acceptance
import Scale.Proofs.Derive.Enumerations
import Scale.Proofs.IntegerCoding
import Scale.Proofs.WideUInt
import Scale.Proofs.Compact.Size
import Scale.Proofs.Append.Growth
import Scale.Proofs.TrimmedDigits
import Scale.Proofs.Derive.Selection
