import UnitLint.Catalog.Reader
import UnitLint.Main
import UnitLint.UnitFile.IndexedBuilder
import UnitLint.Proofs.Text.Blank
import UnitLint.Proofs.Text.Lines
import UnitLint.Proofs.UnitFile.Statement
import UnitLint.Proofs.UnitFile.Extent
import UnitLint.Proofs.UnitFile.History
import UnitLint.Proofs.UnitFile.Reading
import UnitLint.Proofs.UnitFile.Entry
import UnitLint.Proofs.UnitFile.Errors
import UnitLint.Proofs.UnitFile.Invariant
import UnitLint.Proofs.UnitFile.Concatenation
import UnitLint.Proofs.UnitFile.Document
import UnitLint.Proofs.Lookup.Occurrences
import UnitLint.Proofs.Lookup.Places
import UnitLint.Proofs.Lookup.Written
import UnitLint.Proofs.Words.Escape
import UnitLint.Proofs.Words.Step
import UnitLint.Proofs.Words.Scan
import UnitLint.Proofs.Words.Extraction
import UnitLint.Proofs.Words.Iteration
import UnitLint.Proofs.Words.Spelling
import UnitLint.Proofs.Words.Offsets
import UnitLint.Proofs.Lookup.Source
import UnitLint.Proofs.Text.Utf8
import UnitLint.Proofs.Words.Piece
import UnitLint.Proofs.Words.Row
import UnitLint.Proofs.Words.Fields
import UnitLint.Proofs.Words.Quoted
import UnitLint.Proofs.Text.Digit
import UnitLint.Proofs.Words.EscapeSpelling
import UnitLint.Proofs.Check.Scope
import UnitLint.Proofs.Lint.OwnGroup
import UnitLint.Proofs.Lint.Locations
import UnitLint.Proofs.Lookup.Marks
import UnitLint.Proofs.Lookup.Order
import UnitLint.Proofs.Lookup.Origin
import UnitLint.Proofs.Check.Origin
import UnitLint.Proofs.Check.Context
import UnitLint.Proofs.Lint.Report
import UnitLint.Proofs.Lint.Outcome
import UnitLint.Proofs.Lookup.Scalar
import UnitLint.Proofs.Check.Views
import UnitLint.Proofs.Catalog.Fields
import UnitLint.Proofs.Lint.Views
import UnitLint.Proofs.Sort
import UnitLint.Proofs.Check.Category
import UnitLint.Proofs.Check.References
import UnitLint.Proofs.Lint.References
import UnitLint.Proofs.Words.Plain
import UnitLint.Proofs.Words.Failure
import UnitLint.Proofs.Cli.Collection
import UnitLint.Proofs.Cli.FileSystem
import UnitLint.Proofs.Lint.Errors
import UnitLint.Proofs.Cli.TextReport
import UnitLint.Proofs.Words.Decoding
import UnitLint.Proofs.Words.OpenQuotes
import UnitLint.Proofs.Words.Leniency
import UnitLint.Proofs.Words.Progress
import UnitLint.Proofs.Words.Cause
import UnitLint.Proofs.Lookup.Issues
import UnitLint.Proofs.Text.Integer
import UnitLint.Proofs.Check.Integer
import UnitLint.Proofs.Lookup.Coherence
import UnitLint.Proofs.Check.Completeness
import UnitLint.Proofs.UnitFile.CallLog
import UnitLint.Proofs.UnitFile.Index
import UnitLint.Catalog.Indexed
import UnitLint.Proofs.Catalog.Answers
import UnitLint.Proofs.Catalog.Index
import UnitLint.Proofs.Text.LineEnds
import UnitLint.Proofs.UnitFile.LineEnds
import UnitLint.Rules.Passes
import UnitLint.Proofs.Rules.Names
import UnitLint.Proofs.Distinct
import UnitLint.Proofs.Rules.Passes
import UnitLint.Proofs.Lint.Binding
import UnitLint.Proofs.Check.Booleans
import UnitLint.Proofs.Check.Spellings
import UnitLint.Proofs.Lint.Booleans
import UnitLint.Proofs.UnitFile.WithText
import UnitLint.Proofs.Check.PortShapes
import UnitLint.Proofs.Check.PortDigits
import UnitLint.Proofs.Cli.Arguments
import UnitLint.Proofs.Cli.DirectoryOrder
import UnitLint.Lookup.AnchorTable
import UnitLint.Proofs.Lookup.Kept
import UnitLint.Proofs.Lookup.AnchorTable
