import Frontend.Token

/-!
# Expression trees

The trees that both parsers build. Every node carries the bytes it covers; `Expr.binary` and
`Expr.sequence` are built by `ofOperator` and `ofElements`, which compute them from the
children.
-/

namespace Frontend

/-- An expression of the CBC language. -/
inductive Expr where
  /-- A variable. -/
  | name (name : String) (span : Span)
  /-- An integral number. -/
  | number (value : Int) (span : Span)
  /-- An operator, by its number and its lexeme, between two operands. -/
  | binary (operator : Nat) (lexeme : String) (lhs rhs : Expr) (span : Span)
  /-- An expression in parentheses. -/
  | group (inner : Expr) (span : Span)
  /-- A call of a function by its name. -/
  | call (callee : String) (args : List Expr) (span : Span)
  /-- Expressions one after the other, each with the separator after it. -/
  | sequence (separator : String) (elements : List Expr) (span : Span)

namespace Expr

/-- The bytes that an expression covers. -/
def span : Expr → Span
  | name _ s => s
  | number _ s => s
  | binary _ _ _ _ s => s
  | group _ s => s
  | call _ _ s => s
  | sequence _ _ s => s

/-- What sort of node an expression is. -/
def sort : Expr → String
  | name _ _ => "Variable"
  | number _ _ => "Integral Number"
  | binary _ _ _ _ _ => "Binary Expression"
  | group _ _ => "Parenthesized Expression"
  | call _ _ _ => "Call Expression"
  | sequence _ _ _ => "Expression Sequence"

/-- The expressions directly below the root. -/
def children : Expr → List Expr
  | binary _ _ l r _ => [l, r]
  | group e _ => [e]
  | call _ es _ => es
  | sequence _ es _ => es
  | _ => []

/-- The variable named by a token. -/
def ofName (t : Token) : Expr := name t.lexeme t.span

/-- An operator between two operands, covering both. -/
def ofOperator (operator : Nat) (lexeme : String) (lhs rhs : Expr) : Expr :=
  binary operator lexeme lhs rhs (lhs.span.join rhs.span)

/-- A sequence of expressions, covering all of them. -/
def ofElements (separator : String) (elements : List Expr) : Expr :=
  sequence separator elements
    (match elements with
    | [] => Span.zero
    | e :: es => e.span.joinAll (es.map span))

mutual

/-- Whether two expressions are the same, spans included. -/
def same : Expr → Expr → Bool
  | name n s, name n' s' => n == n' && s == s'
  | number v s, number v' s' => v == v' && s == s'
  | binary o x l r s, binary o' x' l' r' s' =>
    o == o' && x == x' && same l l' && same r r' && s == s'
  | group e s, group e' s' => same e e' && s == s'
  | call f es s, call f' es' s' => f == f' && sameAll es es' && s == s'
  | sequence x es s, sequence x' es' s' => x == x' && sameAll es es' && s == s'
  | _, _ => false

/-- Whether two lists hold the same expressions. -/
def sameAll : List Expr → List Expr → Bool
  | [], [] => true
  | e :: es, e' :: es' => same e e' && sameAll es es'
  | _, _ => false

end

end Expr

end Frontend
