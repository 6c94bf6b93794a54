import TreeSelect.Distinct
import TreeSelect.Text
import TreeSelect.Json.Quoted
import TreeSelect.Json.Basic
import TreeSelect.Json.Reader
import TreeSelect.Selector.Basic
import TreeSelect.Selector.Token
import TreeSelect.Selector.Token.Reader
import TreeSelect.Selector.Parser
import TreeSelect.Tree
import TreeSelect.Document
import TreeSelect.View
import TreeSelect.Query.Match
import TreeSelect.Query.Session
import TreeSelect.CommandLine.Arguments
import TreeSelect.CommandLine.Run
import TreeSelect.Main
import TreeSelect.Proofs.Tree.Links
import TreeSelect.Proofs.Tree.Descent
import TreeSelect.Proofs.Tree.Siblings
import TreeSelect.Proofs.Tree.Preorder
import TreeSelect.Proofs.Tree.Position
import TreeSelect.Proofs.Tree.Traversal
import TreeSelect.Proofs.Query.Lookups
import TreeSelect.Proofs.Query.Chain
import TreeSelect.Proofs.Query.Kinship
import TreeSelect.Proofs.Query.ClosedForm
import TreeSelect.Proofs.Query.Firsts
import TreeSelect.Proofs.Query.LetterCase
import TreeSelect.Proofs.Selector.Runs
import TreeSelect.Proofs.Selector.Grammar
import TreeSelect.Proofs.Selector.Bracketed
import TreeSelect.Proofs.Selector.Lexing
import TreeSelect.Proofs.Selector.Offsets
import TreeSelect.Proofs.Selector.Simples
import TreeSelect.Proofs.Selector.Parsing
import TreeSelect.Proofs.Selector.Segments
import TreeSelect.Proofs.Selector.Neighbours
import TreeSelect.Proofs.Selector.Splitting
import TreeSelect.Proofs.Selector.Commas
import TreeSelect.Proofs.Selector.Canonical
import TreeSelect.Proofs.Selector.Trimming
import TreeSelect.Proofs.Selector.Alternatives
import TreeSelect.Proofs.Selector.Reparsing
import TreeSelect.Proofs.Selector.Cutting
import TreeSelect.Proofs.Query.Remembering
import TreeSelect.Proofs.Query.Overlaps
import TreeSelect.Proofs.Query.Reporting
import TreeSelect.Proofs.Query.Counting
import TreeSelect.Proofs.Query.Blocks
import TreeSelect.Proofs.Query.Copies
import TreeSelect.Proofs.Json.Reading
import TreeSelect.Proofs.Document.Grafting
import TreeSelect.Proofs.Document.Exporting
import TreeSelect.Proofs.Document.Appending
import TreeSelect.Proofs.Document.Rebuilding
import TreeSelect.Proofs.Document.Writing
import TreeSelect.Proofs.Tree.Outline
