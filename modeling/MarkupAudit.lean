import MarkupAudit.Audit
import MarkupAudit.Catalogue.Table
import MarkupAudit.CommandLine.Help
import MarkupAudit.CommandLine.Parse
import MarkupAudit.Config.Load
import MarkupAudit.Decimal.Shortest
import MarkupAudit.FileSystem.Arrange
import MarkupAudit.Json.Printer
import MarkupAudit.Main
import MarkupAudit.Matcher
import MarkupAudit.Proofs.Pattern.Spelling
import MarkupAudit.Report.Console
import MarkupAudit.Report.Save
import MarkupAudit.Run
import MarkupAudit.Scan
import MarkupAudit.Text.Quoted
import MarkupAudit.Toml.Diagnostic
import MarkupAudit.Toml.Document
import MarkupAudit.Walk
import MarkupAudit.Proofs.Searcher
import MarkupAudit.Proofs.Lookahead
import MarkupAudit.Proofs.AttributeRun
import MarkupAudit.Proofs.HeadingSkip.Section
import MarkupAudit.Proofs.HeadingSkip.Loop
import MarkupAudit.Proofs.HeadingSkip.Meaning
import MarkupAudit.Proofs.Text.ByteOrder
import MarkupAudit.Proofs.FileSystem.Entry
import MarkupAudit.Proofs.Path
import MarkupAudit.Proofs.Walk
import MarkupAudit.Proofs.AuditedFiles
import MarkupAudit.Proofs.Grouping
import MarkupAudit.Proofs.Traceability
import MarkupAudit.Proofs.Pattern.First
import MarkupAudit.Proofs.Text.Line
import MarkupAudit.Proofs.IssueLocation
import MarkupAudit.Proofs.Json.Grammar
import MarkupAudit.Proofs.Json.Reader
import MarkupAudit.Proofs.Json.Printed
import MarkupAudit.Proofs.Report.RoundTrip
import MarkupAudit.Proofs.FileSystem.Put
import MarkupAudit.Proofs.FileSystem.Write
import MarkupAudit.Proofs.RunOutcome
import MarkupAudit.Proofs.Report.Partition
import MarkupAudit.Proofs.RelatedOutcome
import MarkupAudit.Proofs.Pattern.Alike
import MarkupAudit.Proofs.Selection
import MarkupAudit.Proofs.LetterCase
import MarkupAudit.Proofs.Text.Return
import MarkupAudit.Proofs.Pattern.LineEnd
import MarkupAudit.Proofs.LineEnd
import MarkupAudit.Proofs.Text.Letter
import MarkupAudit.Proofs.Pattern.Extend
import MarkupAudit.Proofs.Pattern.Lead
import MarkupAudit.Proofs.Steady
import MarkupAudit.Proofs.HeadingSkip.Steady
import MarkupAudit.Proofs.Continuation
import MarkupAudit.Proofs.Report.Merge
import MarkupAudit.Proofs.Report.Ranking
import MarkupAudit.Proofs.Pattern.Until
import MarkupAudit.Proofs.TagSearch
import MarkupAudit.Proofs.InputLabel
import MarkupAudit.Proofs.FileSystem.Alike
import MarkupAudit.Proofs.FileSystem.Reading
import MarkupAudit.Proofs.FileSystem.Below
import MarkupAudit.Proofs.FileBlocks
import MarkupAudit.Proofs.Rerun
import MarkupAudit.Proofs.CompleteSearch
import MarkupAudit.Proofs.ShiftedText
import MarkupAudit.Proofs.PlaceholderAlt
import MarkupAudit.Proofs.SplitSearch
import MarkupAudit.Proofs.GreedyRun
import MarkupAudit.Proofs.EntryByEntry
import MarkupAudit.Proofs.AuditedPath
import MarkupAudit.Proofs.Report.Console.Reader
import MarkupAudit.Proofs.Report.Console.Legible
import MarkupAudit.Proofs.ExcludedName
import MarkupAudit.Proofs.LiteralMatch
import MarkupAudit.Proofs.Toml.Table
import MarkupAudit.Proofs.Toml.Statement
import MarkupAudit.Proofs.Toml.Unplaced
import MarkupAudit.Proofs.Toml.Blank
import MarkupAudit.Proofs.Toml.Quotation
import MarkupAudit.Proofs.Toml.Layout
import MarkupAudit.Proofs.Toml.LayoutNumber
import MarkupAudit.Proofs.Toml.LayoutDocument
import MarkupAudit.Proofs.Toml.Spelling
import MarkupAudit.Proofs.Config.Setting
import MarkupAudit.Proofs.Config.Rearrangement
import MarkupAudit.Proofs.Config.Loading
import MarkupAudit.Proofs.Config.BareExtension
import MarkupAudit.Proofs.CommandLine.Argument
import MarkupAudit.Proofs.CommandLine.Dotted
import MarkupAudit.Proofs.CommandLine.Values
import MarkupAudit.Proofs.Config.Precedence
import MarkupAudit.Proofs.ReplacedFile
import MarkupAudit.Proofs.DottedRun
import MarkupAudit.Proofs.ListedExtension
import MarkupAudit.Proofs.Bytewise.Basic
import MarkupAudit.Proofs.Bytewise.Guarded
import MarkupAudit.Proofs.Bytewise.HeadingSkip
import MarkupAudit.Proofs.Bytewise.Scan
