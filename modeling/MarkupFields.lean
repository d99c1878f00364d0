import MarkupFields.Markup.Production
import MarkupFields.Markup.Render
import MarkupFields.Tree.Arena
import MarkupFields.Namespaces
import MarkupFields.Path
import MarkupFields.Field.Conversion
import MarkupFields.Encoding.Decode
import MarkupFields.Field.Reader
import MarkupFields.Field.Writer
import MarkupFields.Json.Shape
import MarkupFields.Proofs.Path.Grammar
import MarkupFields.Proofs.Path.Parsed
import MarkupFields.Proofs.Tree.Level
import MarkupFields.Proofs.Writer.Outcome
import MarkupFields.Proofs.Writer.Written
import MarkupFields.Proofs.Writer.Stable
import MarkupFields.Proofs.Writer.Reachable
import MarkupFields.Proofs.Markup.Names
import MarkupFields.Proofs.Markup.Escapes
import MarkupFields.Proofs.Markup.Legal
import MarkupFields.Proofs.Markup.Tags
import MarkupFields.Proofs.Markup.Scopes
import MarkupFields.Proofs.Markup.Advance
import MarkupFields.Proofs.Markup.Followed
import MarkupFields.Proofs.Markup.Productions
import MarkupFields.Proofs.Markup.Elements
import MarkupFields.Proofs.Markup.Accepted
import MarkupFields.Proofs.Markup.Reread
import MarkupFields.Proofs.Markup.Content
import MarkupFields.Proofs.Markup.Limits
import MarkupFields.Proofs.Markup.Meaning
import MarkupFields.Proofs.Markup.WellFormed
import MarkupFields.Proofs.Number.Numerals
import MarkupFields.Proofs.Number.ReadBack
import MarkupFields.Proofs.Field.ReadBack
import MarkupFields.Proofs.Tree.Attributes
import MarkupFields.Proofs.Writer.Built
import MarkupFields.Proofs.Writer.Grown
import MarkupFields.Proofs.Writer.Expressible
import MarkupFields.Proofs.Writer.Located
import MarkupFields.Proofs.Writer.Lawful
import MarkupFields.Proofs.Writer.Preserved
import MarkupFields.Proofs.Writer.Resolved
import MarkupFields.Proofs.Writer.Faithful
import MarkupFields.Proofs.Writer.Replaced
import MarkupFields.Proofs.Field.Matching
import MarkupFields.Proofs.Field.RoundTrip
import MarkupFields.Proofs.Field.Agreement
import MarkupFields.Proofs.Markup.Ancestors
import MarkupFields.Proofs.Path.Rendered
import MarkupFields.Proofs.Field.Addressed
import MarkupFields.Proofs.Tree.Linked
import MarkupFields.Proofs.Tree.Placed
import MarkupFields.Proofs.Tree.Changed
import MarkupFields.Proofs.Tree.Depicted
import MarkupFields.Proofs.Writer.Held
import MarkupFields.Proofs.Writer.Reordered
import MarkupFields.Proofs.Field.Reordered
import MarkupFields.Proofs.Field.Loading
import MarkupFields.Proofs.Markup.Unaware
import MarkupFields.Proofs.Markup.Declared
import MarkupFields.Proofs.Encoding.Bytes
import MarkupFields.Proofs.Encoding.Sniffed
import MarkupFields.Proofs.Markup.Capacity
import MarkupFields.Proofs.Writer.Nested
import MarkupFields.Proofs.Writer.Unseeded
import MarkupFields.Proofs.Field.Unprefixed
import MarkupFields.Proofs.Markup.Blanks
import MarkupFields.Proofs.Markup.Indented
import MarkupFields.Proofs.Markup.Unbroken
import MarkupFields.Proofs.Tree.Assembled
import MarkupFields.Proofs.Markup.Contained
import MarkupFields.Proofs.Number.Exact
import MarkupFields.Proofs.Field.Concerns
import MarkupFields.Proofs.Field.FromText
import MarkupFields.Proofs.Writer.Overwritten
import MarkupFields.Proofs.Number.Bits
import MarkupFields.Proofs.Field.FromFloat
import MarkupFields.Proofs.Number.Grammar
import MarkupFields.Proofs.Field.Refused
import MarkupFields.Proofs.Field.TruthValue
import MarkupFields.Proofs.Field.Recorded
import MarkupFields.Proofs.Writer.OwnRoot
import MarkupFields.Proofs.Writer.RootDeclarations
import MarkupFields.Proofs.Text.Bytes
import MarkupFields.Proofs.Path.Canonical
import MarkupFields.Proofs.Path.Faults
import MarkupFields.Proofs.Tree.Outline
import MarkupFields.Proofs.Markup.Choices
import MarkupFields.Proofs.Markup.Depth
import MarkupFields.Proofs.Markup.Doctype
import MarkupFields.Proofs.Markup.LineEnds
import MarkupFields.Proofs.Markup.LineEndStyle
import MarkupFields.Proofs.Markup.Places
import MarkupFields.Proofs.Tree.Walk
import MarkupFields.Proofs.Bindings
import MarkupFields.Proofs.Tree.Apart
import MarkupFields.Proofs.Encoding.Marked
import MarkupFields.Proofs.Markup.Room
