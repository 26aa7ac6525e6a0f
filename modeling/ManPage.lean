import ManPage.Main
import ManPage.Proofs.Json.Spelling
import ManPage.Proofs.Outcome
import ManPage.Render.Sink
import ManPage.Save.Document
import ManPage.Proofs.Json.NumeralGrammar
import ManPage.Proofs.Json.StringScan
import ManPage.Proofs.Load.Token
import ManPage.Proofs.Load.Kept
import ManPage.Proofs.Load.Structure
import ManPage.Proofs.Load.Grammar
import ManPage.Proofs.Load.Declared
import ManPage.Proofs.Json.Nesting
import ManPage.Proofs.Load.DeclaredNode
import ManPage.Proofs.Load.TwoPhase
import ManPage.Proofs.Json.Written
import ManPage.Proofs.Load.RoundTrip
import ManPage.Proofs.Render.Reference
import ManPage.Proofs.Render.Registers
import ManPage.Proofs.Render.Prune
import ManPage.Proofs.Load.Saved
import ManPage.Proofs.Render.Scan
import ManPage.Proofs.Render.Prose
import ManPage.Proofs.Text.Rows
import ManPage.Proofs.Render.Outline
import ManPage.Proofs.Render.RunningText
import ManPage.Proofs.Render.Settled
import ManPage.Proofs.Render.Regions
import ManPage.Proofs.Render.Numbering
import ManPage.Proofs.Render.Untrimmed
import ManPage.Proofs.Text.Utf8
import ManPage.Proofs.Load.Truncated
import ManPage.Proofs.Tree.Subtree
import ManPage.Proofs.Load.Context
import ManPage.Proofs.Load.Replacement
import ManPage.Proofs.Load.UnknownKind
import ManPage.Proofs.Json.Brackets
import ManPage.Proofs.Load.SideBySide
import ManPage.Proofs.Load.Rejected
import ManPage.Proofs.Load.Layout
import ManPage.Proofs.Load.SameNode
import ManPage.Proofs.Load.Rewriting
import ManPage.Proofs.Render.Inline
import ManPage.Proofs.Render.FreshLines
import ManPage.Proofs.Render.Placement
import ManPage.Proofs.Render.Fonts
import ManPage.Proofs.Load.Strays
import ManPage.Proofs.Text.Boundary
import ManPage.Proofs.Load.Accepted
import ManPage.Proofs.Render.Controls
import ManPage.Proofs.Render.Account
import ManPage.Proofs.Command.Intact
import ManPage.Proofs.Render.Verbatim
import ManPage.Proofs.Text.Unescape
import ManPage.Proofs.Render.Definition
import ManPage.Proofs.Render.Divided
import ManPage.Proofs.Text.Pattern
import ManPage.Proofs.Render.LinkTarget
import ManPage.Proofs.Render.CodeBlock
import ManPage.Proofs.Text.LineEnds
import ManPage.Proofs.Render.Comment
import ManPage.Proofs.Render.Mail
