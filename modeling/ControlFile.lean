import ControlFile.Diagnostic.Basic
import ControlFile.Diagnostic.Code
import ControlFile.Document
import ControlFile.Expansion.Basic
import ControlFile.Expansion.Expr
import ControlFile.Expansion.Item
import ControlFile.Expr.Basic
import ControlFile.Expr.Eval
import ControlFile.Expr.Parser
import ControlFile.Expr.Printer
import ControlFile.Include
import ControlFile.Item.Basic
import ControlFile.Item.Parser
import ControlFile.Item.Printer
import ControlFile.Item.Statement
import ControlFile.Macro.Argument
import ControlFile.Macro.Assoc
import ControlFile.Macro.Substitution
import ControlFile.Macro.Tables
import ControlFile.Number.Binary
import ControlFile.Number.Decimal
import ControlFile.Number.Shortest
import ControlFile.Operator
import ControlFile.Proofs.Expansion.Accounting
import ControlFile.Proofs.Expansion.Asking
import ControlFile.Proofs.Expansion.Branches
import ControlFile.Proofs.Expansion.Cancellation
import ControlFile.Proofs.Expansion.Completeness
import ControlFile.Proofs.Expansion.Course
import ControlFile.Proofs.Expansion.Expander
import ControlFile.Proofs.Expansion.FailedItem
import ControlFile.Proofs.Expansion.Failure
import ControlFile.Proofs.Expansion.Freshness
import ControlFile.Proofs.Expansion.Growth
import ControlFile.Proofs.Expansion.Heedless
import ControlFile.Proofs.Expansion.Idempotence
import ControlFile.Proofs.Expansion.Inclusion
import ControlFile.Proofs.Expansion.Limit
import ControlFile.Proofs.Expansion.Meaning
import ControlFile.Proofs.Expansion.Obedience
import ControlFile.Proofs.Expansion.Parting
import ControlFile.Proofs.Expansion.Passive
import ControlFile.Proofs.Expansion.Placement
import ControlFile.Proofs.Expansion.Reexpansion
import ControlFile.Proofs.Expansion.Reference
import ControlFile.Proofs.Expansion.Repetition
import ControlFile.Proofs.Expansion.Settled
import ControlFile.Proofs.Expansion.Simulation
import ControlFile.Proofs.Expansion.Termination
import ControlFile.Proofs.Expansion.Tracking
import ControlFile.Proofs.Expr.Agreement
import ControlFile.Proofs.Expr.Climbing
import ControlFile.Proofs.Expr.Consumption
import ControlFile.Proofs.Expr.Displacement
import ControlFile.Proofs.Expr.Grouping
import ControlFile.Proofs.Expr.Lookahead
import ControlFile.Proofs.Expr.Modes
import ControlFile.Proofs.Expr.Outline
import ControlFile.Proofs.Expr.Places
import ControlFile.Proofs.Expr.Precedence
import ControlFile.Proofs.Expr.Reading
import ControlFile.Proofs.Expr.Recovery
import ControlFile.Proofs.Expr.Row
import ControlFile.Proofs.Expr.Sound
import ControlFile.Proofs.Expr.Symbols
import ControlFile.Proofs.Expr.Unambiguous
import ControlFile.Proofs.Expr.Value
import ControlFile.Proofs.Item.Alone
import ControlFile.Proofs.Item.Bare
import ControlFile.Proofs.Item.Body
import ControlFile.Proofs.Item.CommentSpace
import ControlFile.Proofs.Item.Complete
import ControlFile.Proofs.Item.CompoundForm
import ControlFile.Proofs.Item.Confined
import ControlFile.Proofs.Item.Consumption
import ControlFile.Proofs.Item.Depth
import ControlFile.Proofs.Item.Displacement
import ControlFile.Proofs.Item.Echo
import ControlFile.Proofs.Item.EchoBody
import ControlFile.Proofs.Item.EchoChain
import ControlFile.Proofs.Item.EchoDirective
import ControlFile.Proofs.Item.EchoItem
import ControlFile.Proofs.Item.EchoList
import ControlFile.Proofs.Item.EchoSignature
import ControlFile.Proofs.Item.EchoSite
import ControlFile.Proofs.Item.EchoStatement
import ControlFile.Proofs.Item.EchoWord
import ControlFile.Proofs.Item.Follow
import ControlFile.Proofs.Item.Following
import ControlFile.Proofs.Item.FollowingItem
import ControlFile.Proofs.Item.Nesting
import ControlFile.Proofs.Item.Places
import ControlFile.Proofs.Item.Production
import ControlFile.Proofs.Item.Quiet
import ControlFile.Proofs.Item.Reader
import ControlFile.Proofs.Item.Rendering
import ControlFile.Proofs.Item.Scan
import ControlFile.Proofs.Item.Statement
import ControlFile.Proofs.Item.Text
import ControlFile.Proofs.Item.Tiling
import ControlFile.Proofs.Item.Written
import ControlFile.Proofs.Macro.Bodies
import ControlFile.Proofs.Macro.Clear
import ControlFile.Proofs.Macro.Copies
import ControlFile.Proofs.Macro.Demands
import ControlFile.Proofs.Macro.Evaluation
import ControlFile.Proofs.Macro.Faults
import ControlFile.Proofs.Macro.Filling
import ControlFile.Proofs.Macro.FirstWord
import ControlFile.Proofs.Macro.History
import ControlFile.Proofs.Macro.Names
import ControlFile.Proofs.Macro.Noting
import ControlFile.Proofs.Macro.Ordinary
import ControlFile.Proofs.Macro.Renaming
import ControlFile.Proofs.Macro.Spelling
import ControlFile.Proofs.Macro.Unmarked
import ControlFile.Proofs.Macro.Words
import ControlFile.Proofs.Number.Bits
import ControlFile.Proofs.Number.Nearest
import ControlFile.Proofs.Number.Negation
import ControlFile.Proofs.Number.Numeral
import ControlFile.Proofs.Number.ReadBack
import ControlFile.Proofs.Number.Refused
import ControlFile.Proofs.Number.Shortest
import ControlFile.Proofs.Text.Lines
import ControlFile.Proofs.Token.Adjacent
import ControlFile.Proofs.Token.CommentSpace
import ControlFile.Proofs.Token.Consumption
import ControlFile.Proofs.Token.Coverage
import ControlFile.Proofs.Token.Genuine
import ControlFile.Proofs.Token.Lexeme
import ControlFile.Proofs.Token.LexicalWord
import ControlFile.Proofs.Token.Locality
import ControlFile.Proofs.Token.LongestMatch
import ControlFile.Proofs.Token.Movement
import ControlFile.Proofs.Token.Parts
import ControlFile.Proofs.Token.Rules
import ControlFile.Proofs.Token.Word
import ControlFile.Session
import ControlFile.Text.Blank
import ControlFile.Text.Extent
import ControlFile.Text.LineMap
import ControlFile.Token.Basic
import ControlFile.Token.Cursor
import ControlFile.Token.Lexer
import ControlFile.Token.Stream
import ControlFile.Vocabulary.Basic
import ControlFile.Vocabulary.Standard
