import Frontend.Token.Kind

/-!
# Grammar symbols

Terminals and nonterminals share one numbering. The number of a terminal is the number of a
token kind, so nonterminals are numbered from `Symbol.firstNonterminal`, above the token
alphabet. Symbols are ordered and looked up by their numbers alone.
-/

namespace Frontend

/-- A terminal or a nonterminal. -/
inductive Symbol where
  | terminal (id : Nat)
  | nonterminal (id : Nat)
deriving DecidableEq

namespace Symbol

/-- The least number given to nonterminals. -/
def firstNonterminal : Nat := 100

/-- The number of a symbol. Numbers are natural numbers without a bound here. With numbers of 32
    bits nothing changes for a symbol whose number is below `2 ^ 32 - 1`, the greatest of them; that
    one has no successor, which the search for the rules of a symbol needs
    (`Grammar.alternatives`). -/
def id : Symbol → Nat
  | terminal n => n
  | nonterminal n => n

/-- Whether a symbol is matched against the input rather than expanded. -/
def isTerminal : Symbol → Bool
  | terminal _ => true
  | nonterminal _ => false

/-- The terminal matching the tokens of a kind. -/
def ofKind (k : Kind) : Symbol := terminal k.id

/-- How diagnostics speak of a symbol of which only the number is known. -/
def describe : Symbol → String
  | terminal n =>
    match Kind.ofId? n with
    | some k => k.describe
    | none => "terminal #" ++ toString n
  | nonterminal n => "nonterminal #" ++ toString n

/-- Whether a symbol is a terminal or a nonterminal, in words. -/
def sort : Symbol → String
  | terminal _ => "Terminal"
  | nonterminal _ => "NonTerminal"

/-- The full description of a symbol. -/
def summary (s : Symbol) : String :=
  "Symbol \x7b id: " ++ toString s.id ++ ", kind: " ++ s.sort ++ " \x7d"

end Symbol

end Frontend
