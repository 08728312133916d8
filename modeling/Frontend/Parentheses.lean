import Frontend.Grammar.Search
import Frontend.Token.Stream

/-!
# Balanced parentheses

The grammar `Sequence -> Nested | Nested Sequence`, `Nested -> ( ) | ( Sequence )`. Each rule
records its own name when its action runs, so that the result shows the order of the actions.
-/

namespace Frontend.Parentheses

/-- The nonterminal of one or more groups. -/
def sequence : Symbol := .nonterminal Symbol.firstNonterminal

/-- The nonterminal of one group. -/
def nested : Symbol := .nonterminal (Symbol.firstNonterminal + 1)

/-- What diagnostics call a symbol of the grammar; symbols are told apart by number. -/
def symbolName (s : Symbol) : String :=
  if s.id = sequence.id then "Sequence"
  else if s.id = nested.id then "Nested"
  else s.describe

/-- A rule that records its name, with the names in the reverse order of the actions. -/
def rule (lhs : Symbol) (rhs : List Symbol) (name : String) : Rule Empty (List String) where
  lhs := lhs
  rhs := rhs
  name := name
  action := fun _ fired => .ok (name :: fired)
  diagnose := fun f o =>
    (Rule.plainDiagnose symbolName f o).withHelp "every '(' needs a matching ')'"

/-- The rules of the grammar. -/
def rules : List (Rule Empty (List String)) :=
  let opening := Symbol.ofKind .openParen
  let closing := Symbol.ofKind .closeParen
  [ rule sequence [nested] "Sequence ::= Nested",
    rule nested [opening, closing] "Nested ::= ()",
    rule nested [opening, sequence, closing] "Nested ::= (Sequence)",
    rule sequence [nested, sequence] "Sequence ::= Nested Sequence" ]

/-- The grammar of balanced parentheses. -/
def grammar : Grammar Empty (List String) := .ofRules sequence rules

end Frontend.Parentheses

namespace Frontend

/-- The names of the rules used to derive the parentheses of a source, in the order in which
    their actions run. -/
def parseParentheses (source : Source) : Except (Halt Empty) (List String) :=
  match tokenize ⟨source, "lex"⟩ with
  | .error d => .error (.reported d)
  | .ok tokens =>
    (Parentheses.grammar.parse ⟨source, "grammar"⟩ tokens []).map List.reverse

end Frontend
