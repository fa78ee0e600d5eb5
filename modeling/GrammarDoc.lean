import GrammarDoc.Main
import GrammarDoc.Settings.Loose
import GrammarDoc.Proofs.Parsing.Entries
import GrammarDoc.Proofs.Parsing.Exactness
import GrammarDoc.Proofs.Source.Layering
import GrammarDoc.Proofs.Source.Acceptance
import GrammarDoc.Proofs.Parsing.Lookahead
import GrammarDoc.Proofs.Parsing.Unambiguous
import GrammarDoc.Proofs.Source.Deciding
import GrammarDoc.Proofs.Source.Shapes
import GrammarDoc.Proofs.Extraction.Language
import GrammarDoc.Proofs.Extraction.Visiting
import GrammarDoc.Proofs.Source.Lexemes
import GrammarDoc.Proofs.Extraction.Meaning
import GrammarDoc.Proofs.Extraction.Declared
import GrammarDoc.Proofs.Extraction.Preserving
import GrammarDoc.Proofs.Element.Equality
import GrammarDoc.Proofs.Extraction.Building
import GrammarDoc.Proofs.Rendering.Writing
import GrammarDoc.Proofs.Rendering.Spelled
import GrammarDoc.Proofs.Rendering.ReadBack
import GrammarDoc.Proofs.Rendering.RoundTrip
import GrammarDoc.Proofs.Source.Blanking
import GrammarDoc.Proofs.Source.Verbatim
import GrammarDoc.Proofs.Source.Agreement
import GrammarDoc.Proofs.Extraction.Faithful
import GrammarDoc.Proofs.Parsing.Prefixes
import GrammarDoc.Proofs.Source.Stretches
import GrammarDoc.Proofs.Source.Refusing
import GrammarDoc.Proofs.Source.Synchrony
import GrammarDoc.Proofs.Extraction.Failing
import GrammarDoc.Proofs.Rendering.MarkdownMeaning
import GrammarDoc.Proofs.Rendering.MarkdownLanguage
import GrammarDoc.Proofs.Source.Locality
import GrammarDoc.Proofs.Source.Nesting
import GrammarDoc.Proofs.Source.Bodies
import GrammarDoc.Proofs.Rendering.EbnfReading
import GrammarDoc.Proofs.Source.Unclosed
import GrammarDoc.Proofs.Extraction.Bare
import GrammarDoc.Proofs.Extraction.Parts
import GrammarDoc.Proofs.Extraction.Wording
import GrammarDoc.Proofs.Extraction.Decorations
import GrammarDoc.Proofs.Source.Following
import GrammarDoc.Proofs.Source.Scanning
import GrammarDoc.Proofs.Source.Endings
import GrammarDoc.Proofs.Extraction.Spacing
import GrammarDoc.Proofs.Extraction.Joining
import GrammarDoc.Proofs.Source.LineBreaks
import GrammarDoc.Proofs.Source.LoneReturns
import GrammarDoc.Proofs.Extraction.LineBreaks
import GrammarDoc.Proofs.Command.Inputs
import GrammarDoc.Proofs.Files.Places
import GrammarDoc.Proofs.Files.Directories
import GrammarDoc.Proofs.Files.Writing
import GrammarDoc.Proofs.Files.Sessions
import GrammarDoc.Proofs.Settings.Sources
import GrammarDoc.Proofs.Settings.Loading
import GrammarDoc.Proofs.Command.Precedence
import GrammarDoc.Proofs.Command.Endings
import GrammarDoc.Proofs.Command.Escapes
import GrammarDoc.Proofs.Extraction.References
import GrammarDoc.Proofs.Extraction.NormalForm
import GrammarDoc.Proofs.Rendering.Refusing
import GrammarDoc.Proofs.Rendering.Blocks
import GrammarDoc.Proofs.Settings.Recognized
import GrammarDoc.Proofs.Settings.Overriding
import GrammarDoc.Proofs.Encoding.Decoding
import GrammarDoc.Proofs.Source.Lossless
import GrammarDoc.Proofs.Source.Progress
import GrammarDoc.Proofs.Files.Reading
