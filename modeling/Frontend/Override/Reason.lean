import Frontend.Decimal
import Frontend.Text.Quoted
import Frontend.Text.Size

/-!
# Why overrides cannot be read

The text of a file of overrides is JSON. A `Reason` says what is wrong with it, either as JSON or
as a description of overrides, and a `Place` is a line of the text with a number of bytes of that
line. `offsetOf` finds a place in the text again.
-/

namespace Frontend

namespace Override

/-- A value that was found where another was wanted. -/
inductive Found where
  | null
  | bool (b : Bool)
  | int (n : Int)
  | float (x : Float)
  | str (s : String)
  | list
  | object

/-- How a message speaks of a value. -/
def Found.describe : Found → String
  | null => "null"
  | bool b => "boolean `" ++ (if b then "true" else "false") ++ "`"
  | int n => "integer `" ++ toString n ++ "`"
  | float x => "floating point `" ++ Decimal.ofFloat x ++ "`"
  | str s => "string " ++ Text.quoted s
  | list => "sequence"
  | object => "map"

/-- What is wrong with a text. -/
inductive Reason where
  | endInValue
  | endInObject
  | endInList
  | endInString
  | expectedColon
  | expectedListEnd
  | expectedObjectEnd
  | expectedWord
  | expectedValue
  | invalidEscape
  | invalidNumber
  | numberOutOfRange
  | loneSurrogate
  | missingSurrogate
  | controlCharacter
  | keyNotAString
  | trailingComma
  | trailingCharacters
  /-- A value of another type was wanted. -/
  | wrongType (found : Found) (expected : String)
  /-- A number that is too small or too large was found. -/
  | outOfRange (n : Int) (expected : String)
  | unknownField (name : String) (known : List String)
  | unknownVariant (name : String) (known : List String)
  | duplicateField (name : String)
  | missingField (name : String)
  /-- A list that stands for a structure is too short. -/
  | tooShort (length : Nat) (expected : String)

/-- The names that would have been known. -/
def oneOf : List String → String
  | [a] => "`" ++ a ++ "`"
  | [a, b] => "`" ++ a ++ "` or `" ++ b ++ "`"
  | names => "one of " ++ ", ".intercalate (names.map fun a => "`" ++ a ++ "`")

/-- What a user is told, without the place. -/
def Reason.message : Reason → String
  | endInValue => "EOF while parsing a value"
  | endInObject => "EOF while parsing an object"
  | endInList => "EOF while parsing a list"
  | endInString => "EOF while parsing a string"
  | expectedColon => "expected `:`"
  | expectedListEnd => "expected `,` or `]`"
  | expectedObjectEnd => "expected `,` or `\x7d`"
  | expectedWord => "expected ident"
  | expectedValue => "expected value"
  | invalidEscape => "invalid escape"
  | invalidNumber => "invalid number"
  | numberOutOfRange => "number out of range"
  | loneSurrogate => "lone leading surrogate in hex escape"
  | missingSurrogate => "unexpected end of hex escape"
  | controlCharacter => "control character (\\u0000-\\u001F) found while parsing a string"
  | keyNotAString => "key must be a string"
  | trailingComma => "trailing comma"
  | trailingCharacters => "trailing characters"
  | wrongType found expected => "invalid type: " ++ found.describe ++ ", expected " ++ expected
  | outOfRange n expected => "invalid value: integer `" ++ toString n ++ "`, expected " ++ expected
  | unknownField name known => "unknown field `" ++ name ++ "`, expected " ++ oneOf known
  | unknownVariant name known => "unknown variant `" ++ name ++ "`, expected " ++ oneOf known
  | duplicateField name => "duplicate field `" ++ name ++ "`"
  | missingField name => "missing field `" ++ name ++ "`"
  | tooShort length expected => "invalid length " ++ toString length ++ ", expected " ++ expected

/-- A line, counted from one, and a number of bytes of that line. -/
structure Place where
  line : Nat
  column : Nat
deriving DecidableEq

/-- The place after `n` more bytes of a text that starts at `p`. Only a line feed ends a
    line. -/
def Place.after (p : Place) (n : Nat) : List Char → Place
  | [] => p
  | c :: cs =>
    if n < c.utf8Size then ⟨p.line, p.column + n⟩
    else
      let q : Place := if c = '\n' then ⟨p.line + 1, 0⟩ else ⟨p.line, p.column + c.utf8Size⟩
      q.after (n - c.utf8Size) cs

/-- The place after the first `n` bytes of a text. -/
def placeOf (n : Nat) (cs : List Char) : Place := Place.after ⟨1, 0⟩ n cs

/-- The number of bytes of the first `n` lines of a text. -/
def linesSize : Nat → List Char → Nat
  | 0, _ => 0
  | _ + 1, [] => 0
  | n + 1, c :: cs => c.utf8Size + (if c = '\n' then linesSize n cs else linesSize (n + 1) cs)

/-- The offset of the byte with the given line and column, both counted from one, but at most
    the size of the text. -/
def offsetOf (cs : List Char) (line column : Nat) : Nat :=
  min (linesSize (line - 1) cs + (column - 1)) (Text.byteSize cs)

end Override

end Frontend
