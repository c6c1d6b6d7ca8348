import QueryDocs.Catalog
import QueryDocs.Command.Arguments
import QueryDocs.Command.Run
import QueryDocs.Decimal
import QueryDocs.Document
import QueryDocs.Document.Executable
import QueryDocs.Document.FragmentTable
import QueryDocs.Document.Selection
import QueryDocs.Document.TypeRef
import QueryDocs.Document.TypeSystem
import QueryDocs.Document.Value
import QueryDocs.Files.Path
import QueryDocs.Files.Store
import QueryDocs.Files.Tree
import QueryDocs.Grammar.Cursor
import QueryDocs.Grammar.Error
import QueryDocs.Grammar.Executable
import QueryDocs.Grammar.Parse
import QueryDocs.Grammar.TypeSystem
import QueryDocs.Grammar.Value
import QueryDocs.Import.Expansion
import QueryDocs.Import.Line
import QueryDocs.Import.Operations
import QueryDocs.Json.Basic
import QueryDocs.Json.Number
import QueryDocs.Json.Reader
import QueryDocs.Json.Writer
import QueryDocs.Layout.Document
import QueryDocs.Layout.Header
import QueryDocs.Layout.Piece
import QueryDocs.Main
import QueryDocs.Parser.Basic
import QueryDocs.Parser.Executable
import QueryDocs.Parser.Read
import QueryDocs.Parser.TypeSystem
import QueryDocs.Proofs.BlockLayout
import QueryDocs.Proofs.BlockStrings
import QueryDocs.Proofs.ByteOrderMark
import QueryDocs.Proofs.CatalogIndex
import QueryDocs.Proofs.Command.Format
import QueryDocs.Proofs.CommentCover
import QueryDocs.Proofs.Concatenation
import QueryDocs.Proofs.Conformance
import QueryDocs.Proofs.ConstantValues
import QueryDocs.Proofs.Document.Fragments
import QueryDocs.Proofs.Document.Leaves
import QueryDocs.Proofs.Document.Lexemes
import QueryDocs.Proofs.Document.Neighbours
import QueryDocs.Proofs.Document.Nested
import QueryDocs.Proofs.Document.Node
import QueryDocs.Proofs.Document.NodeShape
import QueryDocs.Proofs.Document.Relabel
import QueryDocs.Proofs.Document.Shape
import QueryDocs.Proofs.Document.Variables
import QueryDocs.Proofs.Excerpt
import QueryDocs.Proofs.FirstFailure
import QueryDocs.Proofs.FixedPoint
import QueryDocs.Proofs.FragmentNames
import QueryDocs.Proofs.Grammar.Bodies
import QueryDocs.Proofs.Grammar.Constants
import QueryDocs.Proofs.Grammar.DefinitionRuns
import QueryDocs.Proofs.Grammar.Ends
import QueryDocs.Proofs.Grammar.Lays
import QueryDocs.Proofs.Grammar.LaysDocument
import QueryDocs.Proofs.Grammar.Lookahead
import QueryDocs.Proofs.Grammar.LookaheadDocument
import QueryDocs.Proofs.Grammar.Passes
import QueryDocs.Proofs.Grammar.Places
import QueryDocs.Proofs.Grammar.Reads
import QueryDocs.Proofs.Grammar.ReadsDocument
import QueryDocs.Proofs.Grammar.ReadsExecutable
import QueryDocs.Proofs.Grammar.ReadsTypeSystem
import QueryDocs.Proofs.Grammar.ReadsValues
import QueryDocs.Proofs.Grammar.Repetition
import QueryDocs.Proofs.Grammar.Takes
import QueryDocs.Proofs.Grammar.TakesDocument
import QueryDocs.Proofs.Grammar.TakesExecutable
import QueryDocs.Proofs.Grammar.TakesTypeSystem
import QueryDocs.Proofs.Grammar.TakesValues
import QueryDocs.Proofs.Grammar.Whole
import QueryDocs.Proofs.Import.Breaks
import QueryDocs.Proofs.Import.Collection
import QueryDocs.Proofs.Import.Comments
import QueryDocs.Proofs.Import.Files
import QueryDocs.Proofs.Import.Lines
import QueryDocs.Proofs.Import.Marks
import QueryDocs.Proofs.Import.Records
import QueryDocs.Proofs.Import.Routes
import QueryDocs.Proofs.KeptComments
import QueryDocs.Proofs.Layout.Header
import QueryDocs.Proofs.Layout.Labels
import QueryDocs.Proofs.Layout.Nodes
import QueryDocs.Proofs.Layout.Pieces
import QueryDocs.Proofs.LeafRewriting
import QueryDocs.Proofs.Lexer.Comments
import QueryDocs.Proofs.Lexer.Cursor
import QueryDocs.Proofs.Lexer.Numbers
import QueryDocs.Proofs.Lexer.Strings
import QueryDocs.Proofs.Lexer.Trivia
import QueryDocs.Proofs.NumberLiterals
import QueryDocs.Proofs.OnDemand
import QueryDocs.Proofs.OperationRules
import QueryDocs.Proofs.Operations
import QueryDocs.Proofs.Outcomes
import QueryDocs.Proofs.Parser.Executable
import QueryDocs.Proofs.Parser.Mirrors
import QueryDocs.Proofs.Parser.Takes
import QueryDocs.Proofs.Parser.TypeSystem
import QueryDocs.Proofs.Positions
import QueryDocs.Proofs.Progress
import QueryDocs.Proofs.Pulling
import QueryDocs.Proofs.QuotedStrings
import QueryDocs.Proofs.Reexpansion
import QueryDocs.Proofs.Respacing
import QueryDocs.Proofs.RoundTrip
import QueryDocs.Proofs.SameTokens
import QueryDocs.Proofs.Selection
import QueryDocs.Proofs.SpanTree
import QueryDocs.Proofs.Splicing
import QueryDocs.Proofs.StringLiterals
import QueryDocs.Proofs.SyntaxErrors
import QueryDocs.Proofs.TokenCover
import QueryDocs.Proofs.TokenOrder
import QueryDocs.Proofs.Tokens.Block
import QueryDocs.Proofs.Tokens.Boundary
import QueryDocs.Proofs.Tokens.Bytes
import QueryDocs.Proofs.Tokens.Comments
import QueryDocs.Proofs.Tokens.Demand
import QueryDocs.Proofs.Tokens.Faults
import QueryDocs.Proofs.Tokens.Gaps
import QueryDocs.Proofs.Tokens.Listing
import QueryDocs.Proofs.Tokens.Number
import QueryDocs.Proofs.Tokens.NumberFaults
import QueryDocs.Proofs.Tokens.Offsets
import QueryDocs.Proofs.Tokens.Quoted
import QueryDocs.Proofs.Tokens.Scan
import QueryDocs.Proofs.Tokens.Seams
import QueryDocs.Proofs.Tokens.Stream
import QueryDocs.Proofs.Traversal
import QueryDocs.Proofs.Walk.Alike
import QueryDocs.Proofs.Walk.Calls
import QueryDocs.Proofs.Walk.Items
import QueryDocs.Proofs.Walk.Leaves
import QueryDocs.Proofs.Walk.Reached
import QueryDocs.Proofs.Walk.Visit
import QueryDocs.Proofs.Walk.Walked
import QueryDocs.Report
import QueryDocs.Request
import QueryDocs.Source
import QueryDocs.Span
import QueryDocs.Text.CharClass
import QueryDocs.Text.CharLiteral
import QueryDocs.Text.Utf8
import QueryDocs.Token
import QueryDocs.Token.Block
import QueryDocs.Token.Comments
import QueryDocs.Token.Error
import QueryDocs.Token.Lexer
import QueryDocs.Token.Number
import QueryDocs.Token.Quoted
import QueryDocs.Token.Scan
import QueryDocs.Walk.Depth
import QueryDocs.Walk.Edit
import QueryDocs.Walk.Ends
import QueryDocs.Walk.Node
import QueryDocs.Walk.Visitor
