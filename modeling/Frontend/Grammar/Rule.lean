import Frontend.Diagnostic
import Frontend.Grammar.Symbol
import Frontend.Token

/-!
# Grammar rules

A rule expands its left-hand side into its right-hand side. When a derivation is accepted,
each use of a rule runs the rule's action on some state `σ`; an action may fail with a fault
`ε`. When the search fails, the rule that was being matched at the furthest point turns the
`Failure` into a diagnostic.

A `Production` is a rule given by data: its action, its label and the names of its symbols
are optional.
-/

namespace Frontend

/-- A dead end of the search.

    The input may have run out while a symbol was wanted (`endFound`), or go on although all
    symbols were matched (`endExpected`); otherwise the wanted symbol does not match the
    token found. -/
structure Failure where
  /-- The number of tokens matched. -/
  position : Nat
  /-- The symbol that was wanted next. -/
  expected : Option Symbol
  /-- The token that was there instead. -/
  found : Option Token
  /-- The bytes of that token, or an empty span after the last one. -/
  span : Span
  endFound : Bool
  endExpected : Bool

/-- What is wrong at a dead end, with symbols called by `name`. -/
def Failure.complaint (f : Failure) (name : Symbol → String) : Complaint :=
  let expected := (f.expected.map name).getD "more input"
  let found := (f.found.map Token.lexeme).getD ""
  let problem :=
    if f.endFound then .unexpectedEnd expected
    else if f.endExpected then .expectedEnd found
    else .unexpectedToken expected found
  ⟨problem, f.span⟩

/-- A rule with its action and its diagnostics. -/
structure Rule (ε σ : Type) where
  lhs : Symbol
  rhs : List Symbol
  name : String
  /-- Runs once for each use of the rule; the token is the first one that the use covers. -/
  action : Token → σ → Except ε σ
  /-- The diagnostic for a dead end that this rule led into. -/
  diagnose : Failure → Origin → Diagnostic

namespace Rule

/-- The name of a rule that has none of its own: its two sides. -/
def arrowName (name : Symbol → String) (lhs : Symbol) (rhs : List Symbol) : String :=
  name lhs ++ " -> " ++ " ".intercalate (rhs.map name)

/-- The diagnostic of a rule that has no wording of its own. -/
def plainDiagnose (name : Symbol → String) (f : Failure) (o : Origin) : Diagnostic :=
  o.report (f.complaint name)

end Rule

/-- A rule given by data. -/
structure Production (ε σ : Type) where
  lhs : Symbol
  rhs : List Symbol
  /-- Without an action, using the rule changes nothing. -/
  action : Option (Token → σ → Except ε σ)
  /-- Without a label, the rule is called by its two sides. -/
  label : Option String
  /-- Without names, symbols are called by their numbers. -/
  names : Option (Symbol → String)

namespace Production

variable {ε σ : Type}

/-- The production with the given sides and nothing else. -/
def bare (lhs : Symbol) (rhs : List Symbol) : Production ε σ := ⟨lhs, rhs, none, none, none⟩

/-- The names of the symbols of a production. -/
def symbolName (p : Production ε σ) : Symbol → String := p.names.getD Symbol.describe

/-- The rule that a production stands for. -/
def toRule (p : Production ε σ) : Rule ε σ where
  lhs := p.lhs
  rhs := p.rhs
  name := p.label.getD (Rule.arrowName p.symbolName p.lhs p.rhs)
  action := p.action.getD fun _ s => .ok s
  diagnose := Rule.plainDiagnose p.symbolName

/-- The full description of a production, apart from what its action does. -/
def summary (p : Production ε σ) : String :=
  "Production \x7b lhs: " ++ p.lhs.summary
    ++ ", rhs: [" ++ ", ".intercalate (p.rhs.map Symbol.summary)
    ++ "], has_action: " ++ (if p.action.isSome then "true" else "false") ++ " \x7d"

end Production

end Frontend
