import Frontend.CommandLine.Arguments
import Frontend.CommandLine.Run
import Frontend.Decimal
import Frontend.Diagnostic
import Frontend.Expr
import Frontend.Expr.Encoding
import Frontend.Expr.Text
import Frontend.Expression
import Frontend.File
import Frontend.Grammar.Rule
import Frontend.Grammar.Search
import Frontend.Grammar.Symbol
import Frontend.Grammar.Table
import Frontend.Json
import Frontend.Main
import Frontend.Number
import Frontend.Operator.Split
import Frontend.Operator.Table
import Frontend.Override
import Frontend.Override.Reader
import Frontend.Override.Reason
import Frontend.Parentheses
import Frontend.Program
import Frontend.Proofs.Diagnostic
import Frontend.Proofs.Except
import Frontend.Proofs.Expr.Compact
import Frontend.Proofs.Expr.Encoding
import Frontend.Proofs.Expr.Outline
import Frontend.Proofs.Expression.Balance
import Frontend.Proofs.Expression.Blame
import Frontend.Proofs.Expression.Built
import Frontend.Proofs.Expression.Canonical
import Frontend.Proofs.Expression.Chain
import Frontend.Proofs.Expression.ExpectedOperator
import Frontend.Proofs.Expression.Extent
import Frontend.Proofs.Expression.Nesting
import Frontend.Proofs.Expression.Precedence
import Frontend.Proofs.Expression.Ranking
import Frontend.Proofs.Expression.Recursion
import Frontend.Proofs.Expression.Sentence
import Frontend.Proofs.Expression.Spelling
import Frontend.Proofs.Expression.SplitPoint
import Frontend.Proofs.Expression.Unbalanced
import Frontend.Proofs.Expression.Written
import Frontend.Proofs.Grammar.Actions
import Frontend.Proofs.Grammar.Arrival
import Frontend.Proofs.Grammar.Bundled
import Frontend.Proofs.Grammar.Forest
import Frontend.Proofs.Grammar.Furthest
import Frontend.Proofs.Grammar.Language
import Frontend.Proofs.Grammar.LeftRecursion
import Frontend.Proofs.Grammar.Meaning
import Frontend.Proofs.Grammar.Order
import Frontend.Proofs.Grammar.Owner
import Frontend.Proofs.Grammar.Preference
import Frontend.Proofs.Grammar.Search
import Frontend.Proofs.Grammar.Sorting
import Frontend.Proofs.Grammar.Table
import Frontend.Proofs.Grammar.Termination
import Frontend.Proofs.Grammar.Unambiguous
import Frontend.Proofs.Override
import Frontend.Proofs.Override.Place
import Frontend.Proofs.Parentheses.Language
import Frontend.Proofs.Parentheses.Unambiguous
import Frontend.Proofs.Program.Agreement
import Frontend.Proofs.Program.Building
import Frontend.Proofs.Program.Extent
import Frontend.Proofs.Program.MissingSeparator
import Frontend.Proofs.Program.Reading
import Frontend.Proofs.Program.Statements
import Frontend.Proofs.Program.Unambiguous
import Frontend.Proofs.Program.Writing
import Frontend.Proofs.Token.Decomposition
import Frontend.Proofs.Token.Joining
import Frontend.Proofs.Token.Lines
import Frontend.Proofs.Token.Location
import Frontend.Proofs.Token.Slice
import Frontend.Proofs.Token.Spaced
import Frontend.Proofs.Token.Unreadable
import Frontend.Proofs.TreeStack
import Frontend.Span
import Frontend.Text.Quoted
import Frontend.Text.Visible
import Frontend.Token
import Frontend.Token.Kind
import Frontend.Token.Lexeme
import Frontend.Token.Stream
import Frontend.TreeStack
