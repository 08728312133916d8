/-!
# The terminal alphabet

Every token of the CBC language has a *kind*. Kinds are numbered contiguously, and
the binary operators are exactly the numbers strictly between two markers, so that
being an operator (`isBinaryOperator`) is a range test on a number. A number need
not belong to the alphabet: `Kind.ofId?` finds the kind it stands for, if any.
-/

namespace Frontend

/-- The kinds of token of the CBC language, with the two markers around the binary
    operators and the end of the input. -/
inductive Kind where
  | endOfFile
  | identifier
  | number
  | separator
  | comma
  | operatorsBegin
  | assign
  | add
  | sub
  | mul
  | shiftLeft
  | shiftRight
  | operatorsEnd
  | definition
  | external
  | bodyBegin
  | bodyEnd
  | openParen
  | closeParen
deriving DecidableEq

namespace Kind

/-- All kinds, in the order of their numbers. -/
def all : List Kind :=
  [endOfFile, identifier, number, separator, comma, operatorsBegin, assign, add, sub, mul,
    shiftLeft, shiftRight, operatorsEnd, definition, external, bodyBegin, bodyEnd, openParen,
    closeParen]

/-- The number of a kind. -/
def id : Kind → Nat
  | endOfFile => 0
  | identifier => 1
  | number => 2
  | separator => 3
  | comma => 4
  | operatorsBegin => 5
  | assign => 6
  | add => 7
  | sub => 8
  | mul => 9
  | shiftLeft => 10
  | shiftRight => 11
  | operatorsEnd => 12
  | definition => 13
  | external => 14
  | bodyBegin => 15
  | bodyEnd => 16
  | openParen => 17
  | closeParen => 18

/-- The kind with a given number. -/
def ofId? (n : Nat) : Option Kind := all[n]?

/-- The name under which listings show a kind. -/
def name : Kind → String
  | endOfFile => "EndOfFile"
  | identifier => "Identifier"
  | number => "IntegralNumber"
  | separator => "ExpressionSeparator"
  | comma => "ArgumentSeparator"
  | operatorsBegin => "BinaryOperatorsRangeBegin"
  | assign => "Assignment"
  | add => "Addition"
  | sub => "Subtraction"
  | mul => "Multiplication"
  | shiftLeft => "ShiftLeft"
  | shiftRight => "ShiftRight"
  | operatorsEnd => "BinaryOperatorsRangeEnd"
  | definition => "Definition"
  | external => "ExternalDeclaration"
  | bodyBegin => "BodyBegin"
  | bodyEnd => "BodyEnd"
  | openParen => "OpenParentheses"
  | closeParen => "CloseParentheses"

/-- The one way to write a keyword or a punctuation mark. Identifiers, numbers and the
    markers have none. -/
def spelling? : Kind → Option String
  | separator => some ";"
  | comma => some ","
  | assign => some "="
  | add => some "+"
  | sub => some "-"
  | mul => some "*"
  | shiftLeft => some "<<"
  | shiftRight => some ">>"
  | definition => some "def"
  | external => some "extern"
  | bodyBegin => some "\x7b"
  | bodyEnd => some "\x7d"
  | openParen => some "("
  | closeParen => some ")"
  | _ => none

/-- How diagnostics speak of a kind. -/
def describe (k : Kind) : String :=
  match k.spelling? with
  | some s => "'" ++ s ++ "'"
  | none =>
    match k with
    | identifier => "identifier"
    | number => "integral number"
    | endOfFile => "EOF"
    | other => other.name

end Kind

/-- A number stands for a binary operator when it lies strictly between the two markers. -/
def isBinaryOperator (id : Nat) : Bool :=
  Kind.operatorsBegin.id < id && id < Kind.operatorsEnd.id

/-- The binary operator written `s`. -/
def Kind.operator? (s : String) : Option Kind :=
  Kind.all.find? fun k => isBinaryOperator k.id && k.spelling? == some s

theorem Kind.ofId?_id (k : Kind) : Kind.ofId? k.id = some k := by
  cases k <;> rfl

theorem Kind.id_injective {k k' : Kind} (h : k.id = k'.id) : k = k' := by
  have h' := congrArg Kind.ofId? h
  rwa [Kind.ofId?_id, Kind.ofId?_id, Option.some.injEq] at h'

end Frontend
