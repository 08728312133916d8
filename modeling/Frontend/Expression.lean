import Frontend.Expr
import Frontend.Number
import Frontend.Operator.Split
import Frontend.Token.Stream

/-!
# Expressions

An expression is made of operands and binary operators. `build` splits a run of tokens at its
split point and builds both sides; without an operator the run is an operand: a group in
parentheses, or a *primary*, i.e., a variable, a number or a call. The groups inside an
operand and the arguments of a call are expressions again.

Every part that is built is shorter than the run it comes from, so the number of tokens bounds
the depth of the construction.
-/

namespace Frontend

namespace Expression

/-- A complaint about a token in the place of something else. -/
def unexpected (t : Token) (expected : String) : Complaint :=
  ⟨.unexpectedToken expected t.lexeme, t.span⟩

/-- The depth of parentheses after one more token; a surplus `)` does not count. -/
def depthAfter (depth : Nat) (t : Token) : Nat :=
  if t.is .openParen then depth + 1
  else if t.is .closeParen then depth - 1
  else depth

/-- Cuts tokens at the first `)` that closes a group opened before them; `depth` more groups
    are to be closed first. -/
def cutAtClose (depth : Nat) : List Token → Option (List Token × Token × List Token)
  | [] => none
  | t :: ts =>
    if t.is .closeParen && depth == 0 then some ([], t, ts)
    else
      (cutAtClose (depthAfter depth t) ts).map fun (inner, close, rest) => (t :: inner, close, rest)

/-- Cuts tokens at the commas outside parentheses. Each part but the last comes with its
    comma. -/
def cutAtCommas (depth : Nat) : List Token → List (List Token × Option Token)
  | [] => [([], none)]
  | t :: ts =>
    if t.is .comma && depth == 0 then ([], some t) :: cutAtCommas 0 ts
    else
      match cutAtCommas (depthAfter depth t) ts with
      | (part, comma) :: parts => (t :: part, comma) :: parts
      | [] => [([t], none)]

/-- Builds the arguments of a call, in order. An argument without tokens is reported at the
    comma after it, or at `last`, the last token before the end of the call. -/
def buildArguments (build : List Token → Except Complaint Expr) (last : Token) :
    List (List Token × Option Token) → Except Complaint (List Expr)
  | [] => .ok []
  | ([], comma) :: _ => .error ⟨.emptyExpression, (comma.getD last).span⟩
  | (t :: ts, _) :: parts => do
    let e ← build (t :: ts)
    let es ← buildArguments build last parts
    return e :: es

/-- Builds the call of `callee`, given the tokens after its `(`. The call covers everything up
    to its `)`. -/
def buildCall (build : List Token → Except Complaint Expr) (callee opening : Token)
    (tokens : List Token) : Except Complaint Expr :=
  match cutAtClose 0 tokens with
  | none => .error opening.unbalanced
  | some (_, _, next :: _) => .error (unexpected next "an operator")
  | some (inner, closing, []) => do
    let args ←
      match inner.getLast? with
      | none => .ok []
      | some last => buildArguments build last (cutAtCommas 0 inner)
    return .call callee.lexeme args (callee.span.join closing.span)

/-- Builds an operand that is not a group: a variable, a number or a call. -/
def buildPrimary (build : List Token → Except Complaint Expr) :
    List Token → Except Complaint Expr
  | [] => .error Problem.emptyExpression.unplaced
  | [t] =>
    if t.is .identifier then .ok (Expr.ofName t)
    else if t.is .number then
      match Number.read? t.lexeme with
      | some v => .ok (.number v t.span)
      | none => .error ⟨.invalidLiteral t.lexeme, t.span⟩
    else .error (unexpected t "identifier, integral number or '('")
  | t :: next :: tokens =>
    if t.is .identifier && next.is .openParen then buildCall build t next tokens
    else .error (unexpected next "an operator")

/-- The inside of a run of tokens that is one group, with its `)`. -/
def groupInside? : List Token → Option (List Token × Token)
  | t :: ts =>
    if t.is .openParen then
      match cutAtClose 0 ts with
      | some (inner, closing, []) => some (inner, closing)
      | _ => none
    else none
  | [] => none

/-- Builds a run of tokens without an operator outside parentheses. -/
def buildOperand (build : List Token → Except Complaint Expr) (tokens : List Token) :
    Except Complaint Expr :=
  match tokens.head?, groupInside? tokens with
  | some opening, some (inner, closing) =>
    let span := opening.span.join closing.span
    if inner.isEmpty then .error ⟨.emptyExpression, span⟩
    else do
      let e ← build inner
      return .group e span
  | _, _ => buildPrimary build tokens

/-- Cuts a run of tokens at an index. -/
def cutAt (tokens : List Token) (i : Nat) : Option (List Token × Token × List Token) :=
  match tokens.drop i with
  | t :: rest => some (tokens.take i, t, rest)
  | [] => none

/-- A complaint about an operator without an operand on one side. -/
def missingOperand (operator : Token) (side : String) : Complaint :=
  ⟨.missingOperand operator.lexeme side, operator.span⟩

/-- One level of the construction: `build` is used for the parts. -/
def buildStep (table : OperatorTable) (build : List Token → Except Complaint Expr)
    (tokens : List Token) : Except Complaint Expr :=
  if tokens.isEmpty then .error Problem.emptyExpression.unplaced
  else do
    let point ← table.splitPoint tokens
    match point.bind (cutAt tokens) with
    | none => buildOperand build tokens
    | some (lhs, operator, rhs) =>
      if lhs.isEmpty then .error (missingOperand operator "left")
      else if rhs.isEmpty then .error (missingOperand operator "right")
      else do
        let l ← build lhs
        let r ← build rhs
        return Expr.ofOperator operator.id operator.lexeme l r

/-- The construction to a given depth. -/
def buildWithin (table : OperatorTable) : Nat → List Token → Except Complaint Expr
  | 0, _ => .error Problem.emptyExpression.unplaced
  | depth + 1, tokens => buildStep table (buildWithin table depth) tokens

/-- The tree of a run of tokens. -/
def build (table : OperatorTable) (tokens : List Token) : Except Complaint Expr :=
  buildWithin table tokens.length tokens

/-- The tokens without a `;` at their end. -/
def dropSeparator (tokens : List Token) : List Token :=
  match tokens.getLast? with
  | some t => if t.is .separator then tokens.dropLast else tokens
  | none => tokens

end Expression

/-- The tree of a source that holds one expression, possibly ended by `;`. -/
def parseExpression (source : Source) (table : OperatorTable) : Except Diagnostic Expr := do
  let tokens ← tokenize ⟨source, "lex"⟩
  (Expression.build table (Expression.dropSeparator tokens)).mapError
    (Origin.report ⟨source, "expression"⟩)

end Frontend
