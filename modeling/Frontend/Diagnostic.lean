import Frontend.Span

/-!
# Diagnostics

What can go wrong is a `Problem`; a `Complaint` is a problem with the bytes it is about.
A stage of the front end works on one `Source` under the name of its phase, together its
`Origin`, and turns a complaint into a `Diagnostic`, which is what a user gets to see: a
message, a code, a label for the marked bytes and possibly some help.
-/

namespace Frontend

/-- A text and the name under which diagnostics quote it. -/
structure Source where
  name : String
  content : String
deriving DecidableEq

namespace Source

/-- A stand-in for a text that could not be had; `context` says what it would have been. -/
def fallback (context : String) : Source := ⟨"fallback", "# " ++ context⟩

/-- The stand-in when nothing is known of the text. -/
def unknown : Source := fallback "default context"

end Source

/-- Everything that the front end can object to. -/
inductive Problem where
  /-- No token starts with this character. -/
  | unknownToken (lexeme : String)
  /-- A number that does not fit in 64 bits. -/
  | invalidLiteral (value : String)
  /-- Another symbol was wanted in place of a token. -/
  | unexpectedToken (expected found : String)
  /-- The input ends where a symbol was wanted. -/
  | unexpectedEnd (expected : String)
  /-- The input goes on where its end was wanted. -/
  | expectedEnd (found : String)
  /-- The search had no way to begin. -/
  | noRules (symbol : String)
  /-- There is no token where an expression was wanted. -/
  | emptyExpression
  /-- An operator lacks its operand on one side. -/
  | missingOperand (operator side : String)
  /-- A parenthesis without its partner. -/
  | unbalancedParentheses
  /-- An operator without an entry in the operator table. -/
  | unknownOperator (operator : String)
  /-- Operator overrides that cannot be used. -/
  | invalidConfig (message : String)
  /-- A file that cannot be read. -/
  | unreadable (path message : String)
deriving DecidableEq

/-- The stage of the work to which a problem belongs. -/
inductive Category where
  | lexing
  | grammar
  | expression
  | config
  | files
deriving DecidableEq

namespace Problem

/-- What a user is told. -/
def message : Problem → String
  | unknownToken lexeme => "unknown token '" ++ lexeme ++ "'"
  | invalidLiteral value => "integral number '" ++ value ++ "' is out of range"
  | unexpectedToken expected found => "expected " ++ expected ++ ", found '" ++ found ++ "'"
  | unexpectedEnd expected => "expected " ++ expected ++ ", found EOF"
  | expectedEnd found => "expected EOF, found '" ++ found ++ "'"
  | noRules symbol => "no grammar rule expands " ++ symbol
  | emptyExpression => "empty expression"
  | missingOperand operator side => "missing " ++ side ++ " operand of '" ++ operator ++ "'"
  | unbalancedParentheses => "unbalanced parentheses"
  | unknownOperator operator => "operator '" ++ operator ++ "' is missing from the operator table"
  | invalidConfig message => "invalid configuration: " ++ message
  | unreadable path message => "cannot read '" ++ path ++ "': " ++ message

/-- The broad class of a problem. -/
def category : Problem → Category
  | unknownToken _ | invalidLiteral _ => .lexing
  | unexpectedToken _ _ | unexpectedEnd _ | expectedEnd _ | noRules _ => .grammar
  | emptyExpression | missingOperand _ _ | unbalancedParentheses | unknownOperator _ => .expression
  | invalidConfig _ => .config
  | unreadable _ _ => .files

/-- The last part of a diagnostic's code. -/
def code : Problem → String
  | unknownToken _ => "unknown_token"
  | invalidLiteral _ => "invalid_literal"
  | unexpectedToken _ _ => "unexpected_token"
  | unexpectedEnd _ => "unexpected_eof"
  | expectedEnd _ => "expected_eof"
  | noRules _ => "no_rules"
  | emptyExpression => "empty_expression"
  | missingOperand _ _ => "missing_operand"
  | unbalancedParentheses => "unbalanced_parentheses"
  | unknownOperator _ => "unknown_operator"
  | invalidConfig _ => "invalid_config"
  | unreadable _ _ => "io"

/-- The note under the marked bytes. -/
def label : Problem → String
  | unknownToken _ => "not a token"
  | invalidLiteral _ => "invalid literal"
  | unexpectedToken _ _ => "unexpected token"
  | unexpectedEnd _ => "input ends here"
  | expectedEnd _ => "trailing input"
  | noRules _ => "no rule applies"
  | emptyExpression => "empty expression"
  | missingOperand _ _ => "operand missing"
  | unbalancedParentheses => "unbalanced here"
  | unknownOperator _ => "unknown operator"
  | invalidConfig _ => "invalid configuration"
  | unreadable _ _ => "io failure"

end Problem

/-- A problem and the bytes it is about. -/
structure Complaint where
  problem : Problem
  span : Span
deriving DecidableEq

/-- A complaint that is about no particular bytes. -/
def Problem.unplaced (p : Problem) : Complaint := ⟨p, Span.zero⟩

/-- The source a stage works on and the name of its phase. -/
structure Origin where
  source : Source
  phase : String
deriving DecidableEq

/-- A complaint with its origin and some help. -/
structure Diagnostic where
  complaint : Complaint
  origin : Origin
  help : Option String
deriving DecidableEq

/-- The diagnostic of a complaint raised at `o`. -/
def Origin.report (o : Origin) (c : Complaint) : Diagnostic := ⟨c, o, none⟩

namespace Diagnostic

/-- The problem that is reported. -/
def problem (d : Diagnostic) : Problem := d.complaint.problem

/-- The bytes that are marked. -/
def span (d : Diagnostic) : Span := d.complaint.span

/-- The phase, then what went wrong. -/
def message (d : Diagnostic) : String := d.origin.phase ++ " error: " ++ d.problem.message

/-- The code under which the problem can be looked up. -/
def code (d : Diagnostic) : String := "cowabunga::" ++ d.origin.phase ++ "::" ++ d.problem.code

/-- The same diagnostic with `text` as its help. -/
def withHelp (d : Diagnostic) (text : String) : Diagnostic := { d with help := some text }

end Diagnostic

end Frontend
