import Frontend.Expr
import Frontend.Number

/-!
# Building trees on stacks

The actions of a grammar build a tree from the inside out. Finished expressions wait on a
stack for their parent, and the arguments of the calls that are being built are gathered in
lists, the innermost on top. Each operation has a precondition on the stacks; a `Fault` says
which one does not hold, which means that the operations come in a wrong order and not that
the input is bad.
-/

namespace Frontend

/-- The expressions waiting for a parent and the argument lists being gathered, both with the
    latest first. -/
structure TreeStack where
  waiting : List Expr
  arguments : List (List Expr)

/-- A precondition that does not hold. -/
inductive Fault where
  | notANumber (t : Token)
  | notInRange (t : Token)
  | emptyCompound
  | missingOperands
  | noArgumentList
  | noArgument
  | callWithoutArguments (callee : Token)
  | unclosedArguments
  | notOneExpression
deriving DecidableEq

/-- What is wrong with the order of the operations. -/
def Fault.message : Fault → String
  | notANumber t => "not an integral number: " ++ t.describe
  | notInRange t => "integral number " ++ t.describe ++ " was not range-checked"
  | emptyCompound => "compound expression needs at least one expression"
  | missingOperands => "assignment needs two expressions"
  | noArgumentList => "parameter outside a parameter list"
  | noArgument => "parameter needs a pending expression"
  | callWithoutArguments t => "function call " ++ t.describe ++ " without a parameter list"
  | unclosedArguments => "unclosed parameter list"
  | notOneExpression => "exactly one top-level expression expected"

namespace TreeStack

/-- Nothing built yet. -/
def empty : TreeStack := ⟨[], []⟩

/-- Adds the variable named by a token. -/
def pushName (t : Token) (s : TreeStack) : TreeStack :=
  { s with waiting := Expr.ofName t :: s.waiting }

/-- Adds the number written by a token. -/
def pushNumber (t : Token) (s : TreeStack) : Except Fault TreeStack :=
  if t.is .number then
    match Number.read? t.lexeme with
    | some v => .ok { s with waiting := .number v t.span :: s.waiting }
    | none => .error (.notInRange t)
  else .error (.notANumber t)

/-- Makes all waiting expressions the elements of one sequence, the latest first. -/
def compound (separator : String) (s : TreeStack) : Except Fault TreeStack :=
  match s.waiting with
  | [] => .error .emptyCompound
  | es => .ok { s with waiting := [Expr.ofElements separator es] }

/-- Makes the two latest expressions the sides of an assignment; the latest is on the left. -/
def assign (lexeme : String) (s : TreeStack) : Except Fault TreeStack :=
  match s.waiting with
  | lhs :: rhs :: es =>
    .ok { s with waiting := Expr.ofOperator Kind.assign.id lexeme lhs rhs :: es }
  | _ => .error .missingOperands

/-- Starts an argument list inside all others. -/
def openArguments (s : TreeStack) : TreeStack := { s with arguments := [] :: s.arguments }

/-- Moves the latest expression to the innermost argument list. -/
def addArgument (s : TreeStack) : Except Fault TreeStack :=
  match s.arguments, s.waiting with
  | [], _ => .error .noArgumentList
  | _ :: _, [] => .error .noArgument
  | args :: lists, e :: es => .ok ⟨es, (e :: args) :: lists⟩

/-- Closes the innermost argument list with a call of `callee`. The latest argument becomes
    the first one, and the call covers its name and its arguments. -/
def call (callee : Token) (s : TreeStack) : Except Fault TreeStack :=
  match s.arguments with
  | [] => .error (.callWithoutArguments callee)
  | args :: lists =>
    let span := callee.span.joinAll (args.map Expr.span)
    .ok ⟨.call callee.lexeme args span :: s.waiting, lists⟩

/-- Takes out the finished tree. -/
def release (s : TreeStack) : Except Fault (Expr × TreeStack) :=
  match s.arguments, s.waiting with
  | _ :: _, _ => .error .unclosedArguments
  | [], [e] => .ok (e, empty)
  | [], _ => .error .notOneExpression

end TreeStack

end Frontend
