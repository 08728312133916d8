/-!
# Integral numbers

Numbers are written in decimal, with an optional sign, and their value must fit in 64
bits with sign. `Number.read?` is the only reader of number lexemes: the lexer uses it
to refuse numbers out of range, and both parsers use it for the value of a number node.
-/

namespace Frontend.Number

/-- The value of a string of decimal digits, the most significant first. -/
def valueOf (digits : List Char) : Nat :=
  digits.foldl (fun n d => 10 * n + (d.toNat - '0'.toNat)) 0

/-- The value of a non-empty string of decimal digits. -/
def readDigits? (cs : List Char) : Option Nat :=
  if cs ≠ [] ∧ cs.all Char.isDigit then some (valueOf cs) else none

/-- The least number. -/
def least : Int := -0x8000000000000000

/-- The greatest number. -/
def greatest : Int := 0x7fffffffffffffff

/-- A number is in range when it fits in 64 bits with sign. -/
def InRange (n : Int) : Prop := least ≤ n ∧ n ≤ greatest

instance (n : Int) : Decidable (InRange n) := inferInstanceAs (Decidable (_ ∧ _))

/-- The number written by an optional sign and at least one digit, whatever its size. -/
def readAny? : List Char → Option Int
  | '-' :: ds => (readDigits? ds).map fun n => -(n : Int)
  | '+' :: ds => (readDigits? ds).map fun n => (n : Int)
  | ds => (readDigits? ds).map fun n => (n : Int)

/-- The number written by `s`, if it is in range. -/
def read? (s : String) : Option Int :=
  (readAny? s.toList).filter fun n => decide (InRange n)

end Frontend.Number
