import Frontend.Grammar.Search
import Frontend.Token.Stream
import Frontend.TreeStack

/-!
# Programs

A program is a sequence of assignments, calls, variables and numbers, each ended by `;`:

    TopLevelExpression -> CompoundExpression
    CompoundExpression -> expression ';' | expression ';' CompoundExpression
    expression         -> lvalue '=' expression | rvalue
    rvalue             -> identifier '(' parameter list ')' | identifier '(' ')'
                        | lvalue | integral number
    lvalue             -> identifier
    parameter list     -> expression | expression ',' parameter list

`parseProgram` searches for a derivation with these rules, whose actions build the tree. The
empty program has no derivation and is the empty sequence.
-/

namespace Frontend.Program

/-- The nonterminals of the grammar. -/
inductive Part where
  | topLevel
  | compound
  | expression
  | rvalue
  | lvalue
  | parameters
deriving DecidableEq

namespace Part

/-- The symbol of a nonterminal. -/
def symbol : Part → Symbol
  | topLevel => .nonterminal Symbol.firstNonterminal
  | compound => .nonterminal (Symbol.firstNonterminal + 1)
  | expression => .nonterminal (Symbol.firstNonterminal + 2)
  | rvalue => .nonterminal (Symbol.firstNonterminal + 3)
  | lvalue => .nonterminal (Symbol.firstNonterminal + 4)
  | parameters => .nonterminal (Symbol.firstNonterminal + 5)

/-- What diagnostics call a nonterminal. -/
def name : Part → String
  | topLevel => "TopLevelExpression"
  | compound => "CompoundExpression"
  | expression => "expression"
  | rvalue => "rvalue"
  | lvalue => "lvalue"
  | parameters => "parameter list"

/-- All nonterminals. -/
def all : List Part := [topLevel, compound, expression, rvalue, lvalue, parameters]

end Part

/-- What diagnostics call a symbol of the grammar. -/
def symbolName (s : Symbol) : String :=
  if s.isTerminal then s.describe
  else ((Part.all.find? fun p => p.symbol.id == s.id).map Part.name).getD s.describe

/-- What a rule does to the trees built so far; the token is the first one of its part. -/
abbrev Action := Token → TreeStack → Except Fault TreeStack

/-- A rule of the grammar with its action. -/
def rule (lhs : Part) (rhs : List Symbol) (action : Option Action) : Rule Fault TreeStack :=
  Production.toRule ⟨lhs.symbol, rhs, action, none, some symbolName⟩

/-- The rules of the grammar. Derivations are replayed from their end, so the last argument
    of a call is the one that opens the list. -/
def rules : List (Rule Fault TreeStack) :=
  let identifier := Symbol.ofKind .identifier
  let number := Symbol.ofKind .number
  let semicolon := Symbol.ofKind .separator
  let comma := Symbol.ofKind .comma
  let equals := Symbol.ofKind .assign
  let opening := Symbol.ofKind .openParen
  let closing := Symbol.ofKind .closeParen
  let compound := Part.compound.symbol
  let expression := Part.expression.symbol
  let rvalue := Part.rvalue.symbol
  let lvalue := Part.lvalue.symbol
  let parameters := Part.parameters.symbol
  [ rule .topLevel [compound] (some fun _ s => s.compound ";"),
    rule .compound [expression, semicolon] none,
    rule .compound [expression, semicolon, compound] none,
    rule .expression [lvalue, equals, expression] (some fun _ s => s.assign "="),
    rule .expression [rvalue] none,
    rule .rvalue [identifier, opening, parameters, closing] (some fun t s => s.call t),
    rule .rvalue [identifier, opening, closing] (some fun t s => s.openArguments.call t),
    rule .rvalue [lvalue] none,
    rule .rvalue [number] (some fun t s => s.pushNumber t),
    rule .lvalue [identifier] (some fun t s => .ok (s.pushName t)),
    rule .parameters [expression] (some fun _ s => s.openArguments.addArgument),
    rule .parameters [expression, comma, parameters] (some fun _ s => s.addArgument) ]

/-- The grammar of programs. -/
def grammar : Grammar Fault TreeStack := .ofRules Part.topLevel.symbol rules

/-- Help for the commonest mistakes: a missing `;`, and an operator that programs lack. -/
def help? : Problem → Option String
  | .unexpectedEnd expected =>
    if expected = "';'" then some "every expression ends with ';'" else none
  | .unexpectedToken _ found =>
    if (Kind.operator? found).isSome then
      some "only '=' is allowed in programs; use `cbc expr` for arithmetic"
    else none
  | _ => none

/-- A diagnostic with the help there is for its problem. -/
def addHelp (d : Diagnostic) : Diagnostic :=
  match help? d.problem with
  | some text => d.withHelp text
  | none => d

end Frontend.Program

namespace Frontend

/-- The tree of a program. -/
def parseProgram (source : Source) : Except (Halt Fault) Expr :=
  match tokenize ⟨source, "lex"⟩ with
  | .error d => .error (.reported d)
  | .ok [] => .ok (Expr.ofElements ";" [])
  | .ok tokens =>
    match Program.grammar.parse ⟨source, "grammar"⟩ tokens .empty with
    | .error (.reported d) => .error (.reported (Program.addHelp d))
    | .error h => .error h
    | .ok s =>
      match s.release with
      | .error f => .error (.fault f)
      | .ok (e, _) => .ok e

end Frontend
