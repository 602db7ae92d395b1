import TaggedSum.Codec.Decode
import TaggedSum.Codec.Encode
import TaggedSum.Codec.Plan
import TaggedSum.Dispatch.Dispatcher
import TaggedSum.Dispatch.Plan
import TaggedSum.Emit.Body
import TaggedSum.Emit.Codec
import TaggedSum.Emit.Config
import TaggedSum.Emit.Dispatch
import TaggedSum.Emit.Expression
import TaggedSum.Emit.Name
import TaggedSum.Emit.Source
import TaggedSum.Emit.Types
import TaggedSum.IntWidth
import TaggedSum.Json.Basic
import TaggedSum.Json.Binary64
import TaggedSum.Json.Numeral
import TaggedSum.Json.Outline
import TaggedSum.Json.Reader
import TaggedSum.Json.Shortest
import TaggedSum.Json.Token
import TaggedSum.Json.Writer
import TaggedSum.Members
import TaggedSum.Payload
import TaggedSum.Proofs.Codec.Agreement
import TaggedSum.Proofs.Codec.Canonical
import TaggedSum.Proofs.Codec.Comparison
import TaggedSum.Proofs.Codec.Decode
import TaggedSum.Proofs.Codec.DecodeFault
import TaggedSum.Proofs.Codec.Descent
import TaggedSum.Proofs.Codec.Discarding
import TaggedSum.Proofs.Codec.Encode
import TaggedSum.Proofs.Codec.EncodeFault
import TaggedSum.Proofs.Codec.Failure
import TaggedSum.Proofs.Codec.KeyOrder
import TaggedSum.Proofs.Codec.Leniency
import TaggedSum.Proofs.Codec.Locality
import TaggedSum.Proofs.Codec.Lookup
import TaggedSum.Proofs.Codec.Navigation
import TaggedSum.Proofs.Codec.Plan
import TaggedSum.Proofs.Codec.Replacement
import TaggedSum.Proofs.Codec.Report
import TaggedSum.Proofs.Codec.RoundTrip
import TaggedSum.Proofs.Codec.Trimming
import TaggedSum.Proofs.Dispatch.Registration
import TaggedSum.Proofs.Emit.Assembly
import TaggedSum.Proofs.Emit.Capture
import TaggedSum.Proofs.Emit.Counterpart
import TaggedSum.Proofs.Emit.Declared
import TaggedSum.Proofs.Emit.Decoding
import TaggedSum.Proofs.Emit.Faithful
import TaggedSum.Proofs.Emit.FreeText
import TaggedSum.Proofs.Emit.Literal
import TaggedSum.Proofs.Emit.Mark
import TaggedSum.Proofs.Emit.Meaning
import TaggedSum.Proofs.Emit.Mention
import TaggedSum.Proofs.Emit.Name
import TaggedSum.Proofs.Emit.Reading
import TaggedSum.Proofs.Emit.Scope
import TaggedSum.Proofs.Emit.Shows
import TaggedSum.Proofs.Emit.Unqualified
import TaggedSum.Proofs.Emit.Wording
import TaggedSum.Proofs.Emit.Words
import TaggedSum.Proofs.Emit.Writing
import TaggedSum.Proofs.Json.Order
import TaggedSum.Proofs.Json.Outline
import TaggedSum.Proofs.Json.Text
import TaggedSum.Proofs.Lists
import TaggedSum.Proofs.Members
import TaggedSum.Proofs.Outcome
import TaggedSum.Proofs.Schema.CutOff
import TaggedSum.Proofs.Schema.Cycle
import TaggedSum.Proofs.Schema.Description
import TaggedSum.Proofs.Schema.Details
import TaggedSum.Proofs.Schema.Document
import TaggedSum.Proofs.Schema.Element
import TaggedSum.Proofs.Schema.FieldType
import TaggedSum.Proofs.Schema.FreeText
import TaggedSum.Proofs.Schema.Handler
import TaggedSum.Proofs.Schema.Loaded
import TaggedSum.Proofs.Schema.Named
import TaggedSum.Proofs.Schema.Nesting
import TaggedSum.Proofs.Schema.Order
import TaggedSum.Proofs.Schema.Placement
import TaggedSum.Proofs.Schema.Reading
import TaggedSum.Proofs.Schema.Reference
import TaggedSum.Proofs.Schema.Resolved
import TaggedSum.Proofs.Schema.Spelling
import TaggedSum.Proofs.Schema.Tree
import TaggedSum.Proofs.Schema.Trimmed
import TaggedSum.Proofs.Schema.Validation
import TaggedSum.Proofs.Schema.WellFormed
import TaggedSum.Proofs.Text.Identifier
import TaggedSum.Proofs.Text.Literal
import TaggedSum.Proofs.Text.Readable
import TaggedSum.Proofs.Text.SnakeCase
import TaggedSum.Proofs.Wire.Integer
import TaggedSum.Proofs.Wire.Slot
import TaggedSum.Proofs.Wire.Tagged
import TaggedSum.Proofs.Xml.Attribute
import TaggedSum.Proofs.Xml.Content
import TaggedSum.Proofs.Xml.Opened
import TaggedSum.Proofs.Xml.Reference
import TaggedSum.Proofs.Xml.Tree
import TaggedSum.Schema.Basic
import TaggedSum.Schema.DataError
import TaggedSum.Schema.Document
import TaggedSum.Schema.Draft
import TaggedSum.Schema.Element
import TaggedSum.Schema.Error
import TaggedSum.Schema.FieldType
import TaggedSum.Schema.ParseError
import TaggedSum.Schema.Reading
import TaggedSum.Schema.Resolution
import TaggedSum.Schema.Resolved
import TaggedSum.Schema.Validation
import TaggedSum.Text.Basic
import TaggedSum.Text.Character
import TaggedSum.Text.Name
import TaggedSum.Text.Quoted
import TaggedSum.Value
import TaggedSum.Wire.DecodeError
import TaggedSum.Wire.EncodeError
import TaggedSum.Wire.Slot
import TaggedSum.Wire.Tagged
import TaggedSum.Xml.Attribute
import TaggedSum.Xml.Event
import TaggedSum.Xml.Fault
import TaggedSum.Xml.Reference
