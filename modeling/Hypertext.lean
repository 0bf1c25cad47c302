import Hypertext.Text.Split
import Hypertext.Number.Read
import Hypertext.Markup.Chunks
import Hypertext.Markup.Select
import Hypertext.Style.Css
import Hypertext.Style.Json
import Hypertext.Page.Document
import Hypertext.Page.Table
import Hypertext.Page.Preset
import Hypertext.Command.FileSystem
import Hypertext.Main
import Hypertext.Proofs.Outcome
import Hypertext.Proofs.Tree
import Hypertext.Proofs.Drafts
import Hypertext.Proofs.Head
import Hypertext.Proofs.Search
import Hypertext.Proofs.Shape
import Hypertext.Proofs.Numbers
import Hypertext.Proofs.Pieces
import Hypertext.Proofs.OpenPath
import Hypertext.Proofs.Refusal
import Hypertext.Proofs.Escape
import Hypertext.Proofs.Normal
import Hypertext.Proofs.Unambiguity
import Hypertext.Proofs.Selector
import Hypertext.Proofs.Product
import Hypertext.Proofs.Quoted
import Hypertext.Proofs.Associativity
import Hypertext.Proofs.Flattening
import Hypertext.Proofs.Acceptance
import Hypertext.Proofs.Nesting
import Hypertext.Proofs.Merge
import Hypertext.Proofs.Blocks
import Hypertext.Proofs.Inline
import Hypertext.Proofs.Lines
import Hypertext.Proofs.Flat
import Hypertext.Proofs.Levels
import Hypertext.Proofs.JsonText
import Hypertext.Proofs.Rows
import Hypertext.Proofs.Requests
import Hypertext.Proofs.Commands
import Hypertext.Proofs.Log
import Hypertext.Proofs.Grid
import Hypertext.Proofs.Rebuild
import Hypertext.Proofs.Cells
import Hypertext.Proofs.Entries
import Hypertext.Proofs.Statements
import Hypertext.Proofs.Readings
import Hypertext.Proofs.Declarations
import Hypertext.Proofs.Blame
import Hypertext.Proofs.Indentation
import Hypertext.Proofs.Room
import Hypertext.Proofs.Integers
import Hypertext.Proofs.Rounding
import Hypertext.Proofs.Shortest
