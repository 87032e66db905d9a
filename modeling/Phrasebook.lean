import Phrasebook.Localization
import Phrasebook.Syntax.Printer
import Phrasebook.Syntax.Outline
import Phrasebook.Syntax.Rewrite
import Phrasebook.Syntax.Equality
import Phrasebook.Proofs.Reader.Ensures
import Phrasebook.Proofs.Reader.Contained
import Phrasebook.Proofs.Reader.Steps
import Phrasebook.Proofs.Reader.Progress
import Phrasebook.Proofs.Blocks
import Phrasebook.Proofs.Loading
import Phrasebook.Proofs.Coverage
import Phrasebook.Proofs.Diagnostic
import Phrasebook.Proofs.Isolation.Agreement
import Phrasebook.Proofs.Isolation.Literal
import Phrasebook.Proofs.Isolation.Segment
import Phrasebook.Proofs.Isolation.Expression
import Phrasebook.Proofs.Isolation.Entry
import Phrasebook.Proofs.LineStart
import Phrasebook.Proofs.Isolation.Blocks
import Phrasebook.Proofs.Isolation.Resource
import Phrasebook.Proofs.RoundTrip.Layout
import Phrasebook.Proofs.RoundTrip.Lines
import Phrasebook.Proofs.RoundTrip.Dedent
import Phrasebook.Proofs.RoundTrip.Trim
import Phrasebook.Proofs.RoundTrip.Sound
import Phrasebook.Proofs.RoundTrip.Grammar
import Phrasebook.Proofs.RoundTrip.Written
import Phrasebook.Proofs.RoundTrip.Literal
import Phrasebook.Proofs.Reflow.Text
import Phrasebook.Proofs.Reflow.Reading
import Phrasebook.Proofs.Reflow.Pattern
import Phrasebook.Proofs.Reflow.Expression
import Phrasebook.Proofs.Reflow.Entry
import Phrasebook.Proofs.Reflow.Blocks
import Phrasebook.Proofs.Reflow.Resource
import Phrasebook.Proofs.RoundTrip.Reading.Expression
import Phrasebook.Proofs.RoundTrip.Reading.Entry
import Phrasebook.Proofs.RoundTrip.ReadBack.Segments
import Phrasebook.Proofs.RoundTrip.ReadBack.Pattern
import Phrasebook.Proofs.RoundTrip.ReadBack.Expression
import Phrasebook.Proofs.RoundTrip.ReadBack.Select
import Phrasebook.Proofs.RoundTrip.ReadBack.Entry
import Phrasebook.Proofs.RoundTrip.ReadBack.End
import Phrasebook.Proofs.RoundTrip.ReadBack.Resource
import Phrasebook.Proofs.RoundTrip.ReadBack.Junk
import Phrasebook.Proofs.RoundTrip.Preservation
import Phrasebook.Proofs.RoundTrip.Keeping
import Phrasebook.Proofs.RoundTrip.Headings
import Phrasebook.Proofs.StringEncoding
import Phrasebook.Proofs.Multiline.Reading
import Phrasebook.Proofs.Outline
import Phrasebook.Proofs.TreeInduction
import Phrasebook.Proofs.StaticRules.Pattern
import Phrasebook.Proofs.StaticRules.Tree
import Phrasebook.Proofs.Rewriting.Pruning
import Phrasebook.Proofs.Rewriting.Readable
import Phrasebook.Proofs.Rewriting.Parseable
import Phrasebook.Proofs.Rewriting.Record
import Phrasebook.Proofs.Rewriting.Shape
import Phrasebook.Proofs.Resolution.Run
import Phrasebook.Proofs.Resolution.Lockstep
import Phrasebook.Proofs.Resolution.Intact
import Phrasebook.Proofs.Resolution.Compositional
import Phrasebook.Proofs.Resolution.ReferenceGraph
import Phrasebook.Proofs.Resolution.Scope
import Phrasebook.Proofs.Resolution.ParsedTable
import Phrasebook.Proofs.Resolution.Truncation
import Phrasebook.Proofs.Resolution.Expansion
import Phrasebook.Proofs.Resolution.Marks
import Phrasebook.Proofs.Resolution.VariantOrder
import Phrasebook.Proofs.Resolution.Course
import Phrasebook.Proofs.Resolution.Frames
import Phrasebook.Proofs.Resolution.Budget
import Phrasebook.Proofs.Number.PlainText
import Phrasebook.Proofs.Number.Localized
import Phrasebook.Proofs.Number.Category
import Phrasebook.Proofs.EditDistance
import Phrasebook.Proofs.Suggestion
import Phrasebook.Proofs.Position
