import IndentLisp.Text.Lines
import IndentLisp.Text.Quoted
import IndentLisp.Text.Order
import IndentLisp.Text.Similarity
import IndentLisp.Token
import IndentLisp.Tree.Basic
import IndentLisp.Terminal
import IndentLisp.Tree.Navigation
import IndentLisp.Reader.Basic
import IndentLisp.Files.Tree
import IndentLisp.Diagnostic.Renderer
import IndentLisp.Highlight.Piece
import IndentLisp.Toml.Lexical
import IndentLisp.Toml.Document
import IndentLisp.Check
import IndentLisp.CommandLine.Run
import IndentLisp.Main
import IndentLisp.Proofs.Tree.Branch
import IndentLisp.Proofs.Tree.Draft
import IndentLisp.Proofs.Reader.Scan
import IndentLisp.Proofs.Reader.Drawing
import IndentLisp.Proofs.Reader.Progress
import IndentLisp.Proofs.Token.Ending
import IndentLisp.Proofs.Token.Language
import IndentLisp.Proofs.Reader.SourceOrder
import IndentLisp.Proofs.Tree.Strokes
import IndentLisp.Proofs.Reader.RoundTrip
import IndentLisp.Proofs.Reader.Parenthesised
import IndentLisp.Proofs.Text.Lines
import IndentLisp.Proofs.Reader.Forward
import IndentLisp.Proofs.Reader.Position
import IndentLisp.Proofs.Reader.LineEnds
import IndentLisp.Proofs.Reader.Balance
import IndentLisp.Proofs.Reader.Passage
import IndentLisp.Proofs.Reader.Separation
import IndentLisp.Proofs.Tree.Frame
import IndentLisp.Proofs.Reader.Places
import IndentLisp.Proofs.Reader.LineStart
import IndentLisp.Proofs.Tree.Links
import IndentLisp.Proofs.Tree.Operations
import IndentLisp.Proofs.Tree.OpeningLines
import IndentLisp.Proofs.Reader.Layout
import IndentLisp.Proofs.Reader.Formatting
import IndentLisp.Proofs.Tree.Forms
import IndentLisp.Proofs.Tree.Levels
import IndentLisp.Proofs.Reader.Depth
import IndentLisp.Proofs.Tree.OpenLists
import IndentLisp.Proofs.Reader.Spot
import IndentLisp.Proofs.Reader.NextLine
import IndentLisp.Proofs.Reader.Retrace
import IndentLisp.Proofs.Reader.Openings
import IndentLisp.Proofs.Reader.Comments
import IndentLisp.Proofs.Reader.BlankLines
import IndentLisp.Proofs.Reader.Spacing
import IndentLisp.Proofs.Reader.Closing
import IndentLisp.Proofs.Files.Tree
import IndentLisp.Proofs.Check
import IndentLisp.Proofs.Files.Path
import IndentLisp.Proofs.Settings.Search
import IndentLisp.Proofs.Settings
import IndentLisp.Proofs.Diagnostic.Renderer
import IndentLisp.Proofs.CommandLine.Check
import IndentLisp.Proofs.Highlight.Pieces
import IndentLisp.Proofs.Highlight.Items
import IndentLisp.Proofs.Highlight.Cuts
import IndentLisp.Proofs.Highlight.Reading
import IndentLisp.Proofs.Reader.Repair
import IndentLisp.Proofs.Reader.OpenString
import IndentLisp.Proofs.Reader.Unwrapping
import IndentLisp.Proofs.Reader.Listing
import IndentLisp.Proofs.Reader.Spelling
import IndentLisp.Proofs.Terminal
import IndentLisp.Proofs.Diagnostic.Excerpt
import IndentLisp.Proofs.Diagnostic.Colour
import IndentLisp.Proofs.Diagnostic.Session
