import CanonicalVhdl.Command.Arguments
import CanonicalVhdl.Command.Discover
import CanonicalVhdl.Command.Format
import CanonicalVhdl.Command.Run
import CanonicalVhdl.Concurrent.Basic
import CanonicalVhdl.Concurrent.Read
import CanonicalVhdl.Design.Architecture
import CanonicalVhdl.Design.Context
import CanonicalVhdl.Design.Declaration
import CanonicalVhdl.Design.File
import CanonicalVhdl.Design.Function
import CanonicalVhdl.Design.Interface
import CanonicalVhdl.Design.Package
import CanonicalVhdl.Design.TypeDecl
import CanonicalVhdl.Diagnostic.Basic
import CanonicalVhdl.Diagnostic.Render
import CanonicalVhdl.Diagnostic.Review
import CanonicalVhdl.Expr.Basic
import CanonicalVhdl.Expr.Operator
import CanonicalVhdl.Expr.Print
import CanonicalVhdl.Expr.Read
import CanonicalVhdl.Files.Path
import CanonicalVhdl.Files.Tree
import CanonicalVhdl.Json.Basic
import CanonicalVhdl.Json.Concurrent
import CanonicalVhdl.Json.Design
import CanonicalVhdl.Json.Expr
import CanonicalVhdl.Json.Read
import CanonicalVhdl.Json.Sequential
import CanonicalVhdl.Json.Statement
import CanonicalVhdl.Lexical.Comment
import CanonicalVhdl.Lexical.Digit
import CanonicalVhdl.Lexical.Ident
import CanonicalVhdl.Lexical.Logic
import CanonicalVhdl.Lexical.Reserved
import CanonicalVhdl.Limits
import CanonicalVhdl.Main
import CanonicalVhdl.Number.Integer
import CanonicalVhdl.Number.Real
import CanonicalVhdl.Number.Shortest
import CanonicalVhdl.Object.Basic
import CanonicalVhdl.Proofs.Bytewise.Basic
import CanonicalVhdl.Proofs.Bytewise.Comment
import CanonicalVhdl.Proofs.Bytewise.Ends
import CanonicalVhdl.Proofs.Bytewise.Extent
import CanonicalVhdl.Proofs.Bytewise.Lexeme
import CanonicalVhdl.Proofs.Bytewise.Loop
import CanonicalVhdl.Proofs.Bytewise.Outer
import CanonicalVhdl.Proofs.Bytewise.Piece
import CanonicalVhdl.Proofs.Bytewise.Sound
import CanonicalVhdl.Proofs.Bytewise.Token
import CanonicalVhdl.Proofs.Bytewise.Word
import CanonicalVhdl.Proofs.Case.Concurrent
import CanonicalVhdl.Proofs.Case.Design
import CanonicalVhdl.Proofs.Case.Expr
import CanonicalVhdl.Proofs.Case.Interface
import CanonicalVhdl.Proofs.Case.Scan
import CanonicalVhdl.Proofs.Case.Sequential
import CanonicalVhdl.Proofs.Case.Statement
import CanonicalVhdl.Proofs.Case.Text
import CanonicalVhdl.Proofs.Case.Tree
import CanonicalVhdl.Proofs.Comment.Concurrent
import CanonicalVhdl.Proofs.Comment.Design
import CanonicalVhdl.Proofs.Comment.Free
import CanonicalVhdl.Proofs.Comment.Interface
import CanonicalVhdl.Proofs.Comment.Masked
import CanonicalVhdl.Proofs.Comment.Search
import CanonicalVhdl.Proofs.Comment.Segments
import CanonicalVhdl.Proofs.Comment.Sequential
import CanonicalVhdl.Proofs.Comment.Steady
import CanonicalVhdl.Proofs.Comment.Stripped
import CanonicalVhdl.Proofs.Concurrent.Assignment
import CanonicalVhdl.Proofs.Concurrent.Instance
import CanonicalVhdl.Proofs.Concurrent.Layout
import CanonicalVhdl.Proofs.Concurrent.ReadBack
import CanonicalVhdl.Proofs.Design.Assembly
import CanonicalVhdl.Proofs.Design.Clause
import CanonicalVhdl.Proofs.Design.Concatenation
import CanonicalVhdl.Proofs.Design.Entry
import CanonicalVhdl.Proofs.Design.FinalLine
import CanonicalVhdl.Proofs.Design.Interface
import CanonicalVhdl.Proofs.Design.Package
import CanonicalVhdl.Proofs.Design.ReadBack
import CanonicalVhdl.Proofs.Design.Signature
import CanonicalVhdl.Proofs.Design.TypeDecl
import CanonicalVhdl.Proofs.Design.Unit
import CanonicalVhdl.Proofs.Diagnostic.Render
import CanonicalVhdl.Proofs.Diagnostic.Review
import CanonicalVhdl.Proofs.Expr.Canonical
import CanonicalVhdl.Proofs.Expr.Designators
import CanonicalVhdl.Proofs.Expr.Keyword
import CanonicalVhdl.Proofs.Expr.Literal
import CanonicalVhdl.Proofs.Expr.Operators
import CanonicalVhdl.Proofs.Expr.Parts
import CanonicalVhdl.Proofs.Expr.ReadBack
import CanonicalVhdl.Proofs.Expr.RoundTrip
import CanonicalVhdl.Proofs.Expr.Tokens
import CanonicalVhdl.Proofs.Expr.Vector
import CanonicalVhdl.Proofs.Expr.Written
import CanonicalVhdl.Proofs.Extent.Ahead
import CanonicalVhdl.Proofs.Extent.Clause
import CanonicalVhdl.Proofs.Extent.Concurrent
import CanonicalVhdl.Proofs.Extent.Decided
import CanonicalVhdl.Proofs.Extent.Declaration
import CanonicalVhdl.Proofs.Extent.Looking
import CanonicalVhdl.Proofs.Extent.Parts
import CanonicalVhdl.Proofs.Extent.Rows
import CanonicalVhdl.Proofs.Extent.Sequential
import CanonicalVhdl.Proofs.Extent.Steps
import CanonicalVhdl.Proofs.Files.Discover
import CanonicalVhdl.Proofs.Files.Tree
import CanonicalVhdl.Proofs.Json.Basic
import CanonicalVhdl.Proofs.Json.Design
import CanonicalVhdl.Proofs.Json.Expr
import CanonicalVhdl.Proofs.Json.Spelling
import CanonicalVhdl.Proofs.Law.Basic
import CanonicalVhdl.Proofs.Law.Design
import CanonicalVhdl.Proofs.Law.Statement
import CanonicalVhdl.Proofs.Law.WellFormed
import CanonicalVhdl.Proofs.Number.Grouped
import CanonicalVhdl.Proofs.Number.Text
import CanonicalVhdl.Proofs.Object.ReadBack
import CanonicalVhdl.Proofs.Object.Type
import CanonicalVhdl.Proofs.Region.Concatenation
import CanonicalVhdl.Proofs.Region.Coverage
import CanonicalVhdl.Proofs.Region.Cuts
import CanonicalVhdl.Proofs.Region.Header
import CanonicalVhdl.Proofs.Region.Pieces
import CanonicalVhdl.Proofs.Region.Statement
import CanonicalVhdl.Proofs.Room.Expr
import CanonicalVhdl.Proofs.Room.Foreign
import CanonicalVhdl.Proofs.Room.Lines
import CanonicalVhdl.Proofs.Room.Operators
import CanonicalVhdl.Proofs.Room.Reach
import CanonicalVhdl.Proofs.Room.Sequential
import CanonicalVhdl.Proofs.Room.Shape
import CanonicalVhdl.Proofs.Room.Statement
import CanonicalVhdl.Proofs.Search.Closing
import CanonicalVhdl.Proofs.Search.Group
import CanonicalVhdl.Proofs.Search.Phrase
import CanonicalVhdl.Proofs.Search.Separator
import CanonicalVhdl.Proofs.Search.Word
import CanonicalVhdl.Proofs.Sequential.Choice
import CanonicalVhdl.Proofs.Sequential.Layout
import CanonicalVhdl.Proofs.Sequential.ReadBack
import CanonicalVhdl.Proofs.Settled.Basic
import CanonicalVhdl.Proofs.Settled.Concurrent
import CanonicalVhdl.Proofs.Settled.Design
import CanonicalVhdl.Proofs.Settled.Expr
import CanonicalVhdl.Proofs.Settled.Extent
import CanonicalVhdl.Proofs.Settled.Sequel
import CanonicalVhdl.Proofs.Settled.Statement
import CanonicalVhdl.Proofs.Settled.Tame
import CanonicalVhdl.Proofs.Settled.Text
import CanonicalVhdl.Proofs.Source.Line
import CanonicalVhdl.Proofs.Spelling.Concurrent
import CanonicalVhdl.Proofs.Spelling.Cuts
import CanonicalVhdl.Proofs.Spelling.Design
import CanonicalVhdl.Proofs.Spelling.Entries
import CanonicalVhdl.Proofs.Spelling.Expr
import CanonicalVhdl.Proofs.Spelling.File
import CanonicalVhdl.Proofs.Spelling.Items
import CanonicalVhdl.Proofs.Spelling.Same
import CanonicalVhdl.Proofs.Spelling.Statement
import CanonicalVhdl.Proofs.Spelling.Text
import CanonicalVhdl.Proofs.Statement.ReadBack
import CanonicalVhdl.Proofs.Text.Closing
import CanonicalVhdl.Proofs.Text.Complete
import CanonicalVhdl.Proofs.Text.Continuation
import CanonicalVhdl.Proofs.Text.Ends
import CanonicalVhdl.Proofs.Text.Layout
import CanonicalVhdl.Proofs.Text.Lists
import CanonicalVhdl.Proofs.Token.Basic
import CanonicalVhdl.Proofs.Token.Cut
import CanonicalVhdl.Proofs.Token.Extent
import CanonicalVhdl.Proofs.Token.Phrase
import CanonicalVhdl.Proofs.Token.Remark
import CanonicalVhdl.Proofs.Token.Search
import CanonicalVhdl.Sequential.Basic
import CanonicalVhdl.Sequential.Read
import CanonicalVhdl.Settings.Basic
import CanonicalVhdl.Settings.Read
import CanonicalVhdl.Source.File
import CanonicalVhdl.Source.Span
import CanonicalVhdl.Statement.Basic
import CanonicalVhdl.Text.Basic
import CanonicalVhdl.Text.Blank
import CanonicalVhdl.Text.Comments
import CanonicalVhdl.Text.Extent
import CanonicalVhdl.Text.Lexeme
import CanonicalVhdl.Text.Outer
import CanonicalVhdl.Text.Piece
import CanonicalVhdl.Text.Word
import CanonicalVhdl.Toml.Basic
import CanonicalVhdl.Toml.Quoted
import CanonicalVhdl.Toml.Read
import CanonicalVhdl.Toml.Scalar
import CanonicalVhdl.Types.Basic
import CanonicalVhdl.Types.Read
