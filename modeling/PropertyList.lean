import PropertyList.Main
import PropertyList.Proofs.Text.Coding
import PropertyList.Proofs.Text.Order
import PropertyList.Proofs.Value
import PropertyList.Proofs.Graph.Holds
import PropertyList.Proofs.Graph.OfValue
import PropertyList.Proofs.Binary.BigEndian
import PropertyList.Proofs.DateTime
import PropertyList.Proofs.Binary.Record
import PropertyList.Proofs.Binary.Layout
import PropertyList.Proofs.Binary.Numbering
import PropertyList.Proofs.Binary.Objects
import PropertyList.Proofs.Binary.Image
import PropertyList.Proofs.Binary.Reading
import PropertyList.Proofs.Binary.RoundTrip
import PropertyList.Proofs.Base64
import PropertyList.Proofs.Xml.Source
import PropertyList.Proofs.Xml.Prolog
import PropertyList.Proofs.Xml.Build
import PropertyList.Proofs.Xml.Containers
import PropertyList.Proofs.Xml.RoundTrip
import PropertyList.Proofs.Json.Number
import PropertyList.Proofs.Json.Lexeme
import PropertyList.Proofs.Json.Machine
import PropertyList.Proofs.Json.RoundTrip
import PropertyList.Proofs.Binary.Simulation
import PropertyList.Proofs.Binary.Rewriting
import PropertyList.Proofs.Binary.Sorted
import PropertyList.Proofs.Conversion.Chain
import PropertyList.Proofs.Binary.Acceptance
import PropertyList.Proofs.Binary.Nesting
import PropertyList.Proofs.Binary.Fixpoint
import PropertyList.Proofs.Expressible
import PropertyList.Proofs.Xml.Faults
import PropertyList.Proofs.Json.Faults
import PropertyList.Proofs.Binary.Faults
import PropertyList.Proofs.Conversion.Outcome
import PropertyList.Proofs.Conversion.Refusal
import PropertyList.Proofs.Number.Decimal
import PropertyList.Proofs.Binary.Trees
import PropertyList.Proofs.Number.RealText
import PropertyList.Proofs.Conversion.Auto
import PropertyList.Proofs.Conversion.Rendered
import PropertyList.Proofs.Xml.FirstBytes
import PropertyList.Proofs.Conversion.Explicit
import PropertyList.Proofs.Binary.Nested
import PropertyList.Proofs.Canonical
import PropertyList.Proofs.Binary.Zeros
import PropertyList.Proofs.Conversion.Through
import PropertyList.Proofs.Conversion.Limits
import PropertyList.Proofs.Conversion.Closure
import PropertyList.Proofs.Session.Sources
import PropertyList.Proofs.Binary.Decoded
import PropertyList.Proofs.Binary.Plain
import PropertyList.Proofs.Number.Comparison
import PropertyList.Proofs.Binary.Consistent
import PropertyList.Proofs.Xml.Structure
import PropertyList.Proofs.Json.Acceptance
import PropertyList.Proofs.LeadingBytes
import PropertyList.Proofs.Xml.Suffix
import PropertyList.Proofs.Xml.Unicode
import PropertyList.Proofs.Xml.Blanks
import PropertyList.Proofs.Xml.Letters
import PropertyList.Proofs.Xml.Narrowing
import PropertyList.Proofs.Conversion.LeadingBlanks
import PropertyList.Proofs.Conversion.Forms
import PropertyList.Proofs.Conversion.Keys
import PropertyList.Proofs.ByteSink
import PropertyList.Proofs.Draining
import PropertyList.Proofs.CommandLine.Groups
import PropertyList.Proofs.Session.Precedence
