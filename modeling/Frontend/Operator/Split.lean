import Frontend.Diagnostic
import Frontend.Operator.Table
import Frontend.Token

/-!
# Split points

The operator that is applied last in a run of tokens is the one at which the run is split:
among the operators outside parentheses one that binds least, the right-most of these that is
left-associative, or else the left-most of them.
-/

namespace Frontend

/-- A complaint about a parenthesis without its partner. -/
def Token.unbalanced (t : Token) : Complaint := ⟨.unbalancedParentheses, t.span⟩

namespace OperatorTable

/-- Whether an operator with the binding `b` is to be split at rather than at the best one so
    far, of which only the precedence matters. -/
def prefers (b : Binding) : Option (Nat × Int) → Bool
  | none => true
  | some (_, lowest) =>
    b.precedence < lowest || (b.precedence == lowest && b.associativity == .left)

/-- Scans a run of tokens from the index `i` on. The parentheses that are open are `opened`,
    the innermost first, and the best split point so far is `best`, with its precedence. -/
def scanSplit (table : OperatorTable) (i : Nat) (opened : List Token) (best : Option (Nat × Int)) :
    List Token → Except Complaint (Option Nat)
  | [] =>
    match opened.getLast? with
    | some t => .error t.unbalanced
    | none => .ok (best.map Prod.fst)
  | t :: ts =>
    if t.is .openParen then scanSplit table (i + 1) (t :: opened) best ts
    else if t.is .closeParen then
      match opened with
      | [] => .error t.unbalanced
      | _ :: outer => scanSplit table (i + 1) outer best ts
    else if !opened.isEmpty || !isBinaryOperator t.id then
      scanSplit table (i + 1) opened best ts
    else
      match table.get? t.id with
      | none => .error ⟨.unknownOperator t.lexeme, t.span⟩
      | some b =>
        scanSplit table (i + 1) opened (if prefers b best then some (i, b.precedence) else best) ts

/-- The index of the operator at which to split a run of tokens, if it has one outside
    parentheses. -/
def splitPoint (table : OperatorTable) (tokens : List Token) : Except Complaint (Option Nat) :=
  table.scanSplit 0 [] none tokens

end OperatorTable

end Frontend
