import EmbeddedSql.Buffer
import EmbeddedSql.Host.Index
import EmbeddedSql.Host.Scanner
import EmbeddedSql.Text.Blank
import EmbeddedSql.Text.Word
import EmbeddedSql.Literal.Head
import EmbeddedSql.Literal.Decoded
import EmbeddedSql.Sql.Lexer
import EmbeddedSql.Sql.Tag
import EmbeddedSql.Regions
import EmbeddedSql.Session
import EmbeddedSql.Output.Echo
import EmbeddedSql.Output.Listing
import EmbeddedSql.Span.Reader
import EmbeddedSql.Config.Lookup
import EmbeddedSql.Files.Tree
import EmbeddedSql.Main
import EmbeddedSql.Proofs.Agreement
import EmbeddedSql.Proofs.Offsets
import EmbeddedSql.Proofs.Retagging
import EmbeddedSql.Proofs.Slicing
import EmbeddedSql.Proofs.Multiplicity
import EmbeddedSql.Proofs.Spelling
import EmbeddedSql.Proofs.Soundness
import EmbeddedSql.Proofs.Independence
import EmbeddedSql.Proofs.Progress
import EmbeddedSql.Proofs.Heads
import EmbeddedSql.Proofs.LastDirective
import EmbeddedSql.Proofs.TouchingComments
import EmbeddedSql.Proofs.Algebra
import EmbeddedSql.Proofs.ByteBoundaries
import EmbeddedSql.Proofs.Closing
import EmbeddedSql.Proofs.Echoing
import EmbeddedSql.Proofs.LinearScans
import EmbeddedSql.Proofs.EscapeErrors
import EmbeddedSql.Proofs.LiteralShape
import EmbeddedSql.Proofs.Guards.Reports
import EmbeddedSql.Proofs.Cutting
import EmbeddedSql.Proofs.LetterCase
import EmbeddedSql.Proofs.QuotedForms
import EmbeddedSql.Proofs.DirectiveGrammar
import EmbeddedSql.Proofs.HeadGrammar
import EmbeddedSql.Proofs.CorrectionTable
import EmbeddedSql.Proofs.WrittenTags
import EmbeddedSql.Proofs.ProjectElements
import EmbeddedSql.Proofs.NestedComments
