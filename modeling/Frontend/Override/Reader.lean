import Frontend.File
import Frontend.Override
import Frontend.Override.Reason

/-!
# Reading overrides

Overrides are written as a JSON object with one member `operators`, a list of objects such as

    { "operator": "+", "precedence": 7, "associativity": "left" }

of which the last member may be missing or null. An object may also be written as a list of its
members, and an associativity as an object with a member that is null. Values are checked while
they are read, so that the first thing wrong is the one that is reported, be it the JSON or what
it describes.

A mistake is placed by the number of bytes read when it is noticed. Where the next character
is what is wrong, it counts as read (`failNext`); otherwise only what was taken counts (`fail`).
-/

namespace Frontend

namespace Override

/-- A text with the number of bytes already taken from it. -/
structure Cursor where
  offset : Nat
  rest : List Char

/-- What is wrong and the number of bytes read when that is noticed. -/
structure Misread where
  reason : Reason
  offset : Nat

/-- A reader takes a value from the head of a text. -/
abbrev Reader (α : Type) := StateT Cursor (Except Misread) α

namespace Reader

/-! ## Characters -/

/-- Fails after the bytes taken. -/
def fail {α : Type} (reason : Reason) : Reader α := fun c => .error ⟨reason, c.offset⟩

/-- Fails after the bytes taken and `n` more. -/
def failBy {α : Type} (n : Nat) (reason : Reason) : Reader α := fun c =>
  .error ⟨reason, c.offset + n⟩

/-- Fails at the next byte, if there is one. -/
def failNext {α : Type} (reason : Reason) : Reader α := fun c =>
  .error ⟨reason, if c.rest.isEmpty then c.offset else c.offset + 1⟩

/-- The next character. -/
def peek : Reader (Option Char) := fun c => .ok (c.rest.head?, c)

/-- The characters not yet taken. -/
def ahead : Reader (List Char) := fun c => .ok (c.rest, c)

/-- Takes some characters. -/
def drop (n : Nat) : Reader Unit := fun c =>
  .ok ((), ⟨c.offset + Text.byteSize (c.rest.take n), c.rest.drop n⟩)

/-- Takes the characters at the head of the text that satisfy `p`. -/
def takeWhile (p : Char → Bool) : Reader (List Char) := do
  let cs := (← ahead).takeWhile p
  drop cs.length
  return cs

/-- Blanks may stand between any two parts of a value. -/
def isSpace (c : Char) : Bool := c == ' ' || c == '\n' || c == '\t' || c == '\r'

/-- The next character after blanks, which are taken. -/
def peekSkip : Reader (Option Char) := do
  let _ ← takeWhile isSpace
  peek

/-- Takes the rest of a word of which the first character was taken. -/
def word : List Char → Reader Unit
  | [] => return
  | w :: ws => do
    match ← peek with
    | none => fail .endInValue
    | some c =>
      if c = w then
        drop 1
        word ws
      else failBy 1 .expectedWord

/-! ## Strings -/

/-- The value of a hexadecimal digit. -/
def hexDigit? (c : Char) : Option Nat :=
  if c.isDigit then some (c.toNat - 48)
  else if 'a' ≤ c ∧ c ≤ 'f' then some (c.toNat - 87)
  else if 'A' ≤ c ∧ c ≤ 'F' then some (c.toNat - 55)
  else none

/-- The value of four hexadecimal digits. -/
def hexValue? : List Char → Option Nat
  | [a, b, c, d] => do
    return 4096 * (← hexDigit? a) + 256 * (← hexDigit? b) + 16 * (← hexDigit? c) + (← hexDigit? d)
  | _ => none

/-- Takes the four hexadecimal digits of an escape. They are four bytes, whatever these are. -/
def hexEscape : Reader Nat := do
  let cs ← ahead
  match hexValue? (cs.take 4) with
  | some n =>
    drop 4
    return n
  | none =>
    if Text.byteSize cs < 4 then failBy (Text.byteSize cs) .endInString else failBy 4 .invalidEscape

/-- Takes a character that has to follow the first half of a surrogate pair. -/
def pairMark (mark : Char) : Reader Unit := do
  match ← peek with
  | none => fail .endInString
  | some c => if c = mark then drop 1 else failBy 1 .missingSurrogate

/-- Takes a character written by its number; one beyond the first 65536 is written by a pair
    of numbers, its surrogates. -/
def unicodeEscape : Reader Char := do
  let n ← hexEscape
  if 0xDC00 ≤ n ∧ n ≤ 0xDFFF then fail .loneSurrogate
  else if 0xD800 ≤ n ∧ n ≤ 0xDBFF then
    pairMark '\\'
    pairMark 'u'
    let m ← hexEscape
    if 0xDC00 ≤ m ∧ m ≤ 0xDFFF then
      return Char.ofNat (0x10000 + 1024 * (n - 0xD800) + (m - 0xDC00))
    else fail .loneSurrogate
  else return Char.ofNat n

/-- Takes an escape after its backslash. -/
def escape : Reader Char := do
  match ← peek with
  | none => fail .endInString
  | some c =>
    let simple := fun d : Char => do
      drop 1
      return d
    match c with
    | '\x22' => simple '\x22'
    | '\\' => simple '\\'
    | '/' => simple '/'
    | 'b' => simple '\x08'
    | 'f' => simple '\x0c'
    | 'n' => simple '\n'
    | 'r' => simple '\r'
    | 't' => simple '\t'
    | 'u' => do
      drop 1
      unicodeEscape
    | _ => failBy 1 .invalidEscape

/-- Takes the characters of a string up to its closing quote, which is taken too. The number of
    characters ahead bounds the length of the string. -/
def stringBody : Nat → Reader (List Char)
  | 0 => fail .endInString
  | fuel + 1 => do
    match ← peek with
    | none => fail .endInString
    | some c =>
      if c = '\x22' then
        drop 1
        return []
      else if c = '\\' then
        drop 1
        let d ← escape
        return d :: (← stringBody fuel)
      else if c.toNat < 32 then failBy 1 .controlCharacter
      else
        drop 1
        return c :: (← stringBody fuel)

/-- Takes a string, quotes included. -/
def string : Reader String := do
  drop 1
  return String.ofList (← stringBody ((← ahead).length + 1))

/-! ## Numbers -/

/-- A number: whole if it is written without a point or an exponent and fits in 64 bits. -/
inductive Numeral where
  | int (n : Int)
  | float (x : Float)

/-- How a number counts when something else was wanted. -/
def Numeral.found : Numeral → Found
  | int n => .int n
  | float x => .float x

/-- Adds digits to a number for as long as it fits in 64 bits. The digits that are left over
    are returned. -/
def absorb (n : Nat) : List Char → Nat × List Char
  | [] => (n, [])
  | d :: ds =>
    let m := 10 * n + (d.toNat - 48)
    if m < 0x10000000000000000 then absorb m ds else (n, d :: ds)

/-- The power of ten with the given exponent. -/
def powerOfTen (n : Nat) : Float := Float.ofScientific 1 false n

/-- The number `x · 10 ^ e`, unless it is too large. Very small numbers take several
    divisions. -/
def scale : Nat → Float → Int → Option Float
  | 0, x, _ => some x
  | fuel + 1, x, e =>
    if e.natAbs ≤ 308 then
      if 0 ≤ e then
        let y := x * powerOfTen e.natAbs
        if y.isInf then none else some y
      else some (x / powerOfTen e.natAbs)
    else if x == 0.0 then some x
    else if 0 ≤ e then none
    else scale fuel (x / powerOfTen 308) (e + 308)

/-- The number `n · 10 ^ e` with its sign. -/
def float (positive : Bool) (n : Nat) (e : Int) : Reader Numeral := do
  match scale 8 n.toUInt64.toFloat e with
  | some x => return .float (if positive then x else -x)
  | none => fail .numberOutOfRange

/-- Takes an exponent, whose mark is next, of the number `n · 10 ^ e`. -/
def exponent (positive : Bool) (n : Nat) (e : Int) : Reader Numeral := do
  drop 1
  let negative := (← peek) == some '-'
  let signed := negative || (← peek) == some '+'
  if signed then drop 1
  match ← peek with
  | none => fail .endInValue
  | some c =>
    if !c.isDigit then failBy 1 .invalidNumber
    else
      let digits := (← ahead).takeWhile Char.isDigit
      let fits := fun k : Nat => (absorb 0 (digits.take k)).1 < 0x80000000
      match (List.range' 1 digits.length).find? fun k => !fits k with
      | none =>
        drop digits.length
        let k : Int := (absorb 0 digits).1
        float positive n (if negative then e - k else e + k)
      | some k =>
        if n ≠ 0 && !negative then failBy k .numberOutOfRange
        else
          drop digits.length
          return .float (if positive then 0.0 else -0.0)

/-- Takes what may follow the digits of the number `n · 10 ^ e`. -/
def exponentOrEnd (positive : Bool) (n : Nat) (e : Int) : Reader Numeral := do
  match ← peek with
  | some 'e' => exponent positive n e
  | some 'E' => exponent positive n e
  | _ => float positive n e

/-- Takes a fractional part, whose point is next, of the number `n · 10 ^ e`. Digits that do
    not fit are left out. -/
def fraction (positive : Bool) (n : Nat) (e : Int) : Reader Numeral := do
  drop 1
  let digits ← takeWhile Char.isDigit
  if digits.isEmpty then
    match ← peek with
    | some _ => failNext .invalidNumber
    | none => failNext .endInValue
  else
    let (m, left) := absorb n digits
    exponentOrEnd positive m (e - ((digits.length - left.length : Nat) : Int))

/-- Takes what may follow the digits of a whole number. Negative zero, and what does not fit
    in 64 bits with sign, is not whole. -/
def afterWhole (positive : Bool) (n : Nat) : Reader Numeral := do
  match ← peek with
  | some '.' => fraction positive n 0
  | some 'e' => exponent positive n 0
  | some 'E' => exponent positive n 0
  | _ =>
    if positive then return .int n
    else if n = 0 ∨ 0x8000000000000000 < n then return .float (-n.toUInt64.toFloat)
    else return .int (-(n : Int))

/-- Takes a number whose sign was taken. -/
def numeral (positive : Bool) : Reader Numeral := do
  match ← peek with
  | none => fail .endInValue
  | some c =>
    if c = '0' then
      drop 1
      match ← peek with
      | some d => if d.isDigit then failNext .invalidNumber else afterWhole positive 0
      | none => afterWhole positive 0
    else if c.isDigit then
      let digits ← takeWhile Char.isDigit
      let (n, left) := absorb 0 digits
      if left.isEmpty then afterWhole positive n
      else
        match ← peek with
        | some '.' => fraction positive n left.length
        | _ => exponentOrEnd positive n left.length
    else failBy 1 .invalidNumber

/-! ## Values -/

/-- Fails on the value that is next, which is not what was `expected`. The value is read first,
    and may itself be wrong; lists and objects are not. -/
def wrongType {α : Type} (expected : String) : Reader α := do
  let wrong := fun found : Found => (fail (.wrongType found expected) : Reader α)
  match ← peek with
  | some 'n' => do
    drop 1
    word ['u', 'l', 'l']
    wrong .null
  | some 't' => do
    drop 1
    word ['r', 'u', 'e']
    wrong (.bool true)
  | some 'f' => do
    drop 1
    word ['a', 'l', 's', 'e']
    wrong (.bool false)
  | some '-' => do
    drop 1
    wrong (← numeral false).found
  | some '\x22' => do wrong (.str (← string))
  | some '[' => wrong .list
  | some '\x7b' => wrong .object
  | some c => do
    if c.isDigit then wrong (← numeral true).found else failNext .expectedValue
  | none => failNext .expectedValue

/-- The first character of a value. -/
def valueStart : Reader Char := do
  match ← peekSkip with
  | some c => return c
  | none => failNext .endInValue

/-- Takes a string, or fails on another value. -/
def stringValue : Reader String := do
  if (← valueStart) = '\x22' then string else wrongType "a string"

/-- Takes a whole number of 32 bits with sign. -/
def int32 : Reader Int := do
  let c ← valueStart
  let n ←
    if c = '-' then do
      drop 1
      numeral false
    else if c.isDigit then numeral true
    else wrongType "i32"
  match n with
  | .float x => fail (.wrongType (.float x) "i32")
  | .int n =>
    if -0x80000000 ≤ n ∧ n < 0x80000000 then return n else fail (.outOfRange n "i32")

/-! ## Lists and objects -/

/-- Whether there is one more item in a list, up to which everything is taken. -/
def nextItem (first : Bool) : Reader Bool := do
  match ← peekSkip with
  | none => failNext .endInList
  | some c =>
    if c = ']' then return false
    else if first then return true
    else if c = ',' then
      drop 1
      match ← peekSkip with
      | none => failNext .endInValue
      | some ']' => failNext .trailingComma
      | some _ => return true
    else failNext .expectedListEnd

/-- Takes the end of a list that may have no more items. -/
def endList : Reader Unit := do
  match ← peekSkip with
  | none => failNext .endInList
  | some ']' => drop 1
  | some ',' => do
    drop 1
    match ← peekSkip with
    | some ']' => failNext .trailingComma
    | _ => failNext .trailingCharacters
  | some _ => failNext .trailingCharacters

/-- Takes the key of the next member of an object, if there is one. -/
def nextKey (first : Bool) : Reader (Option String) := do
  match ← peekSkip with
  | none => failNext .endInObject
  | some c =>
    if c = '\x7d' then return none
    else if first then
      if c = '\x22' then return some (← string) else failNext .keyNotAString
    else if c = ',' then
      drop 1
      match ← peekSkip with
      | none => failNext .endInValue
      | some '\x22' => return some (← string)
      | some '\x7d' => failNext .trailingComma
      | some _ => failNext .keyNotAString
    else failNext .expectedObjectEnd

/-- Takes the colon after a key. -/
def colon : Reader Unit := do
  match ← peekSkip with
  | some ':' => drop 1
  | some _ => failNext .expectedColon
  | none => failNext .endInObject

/-- Fails on an object, on account of a key or of a missing one. The place is after the key,
    any blanks and the end of the object, if that is next. -/
def failObject {α : Type} (reason : Reason) : Reader α := do
  if (← peekSkip) = some '\x7d' then drop 1
  fail reason

/-- Fails on a list that is too short, the end of which is next. -/
def failShort {α : Type} (length : Nat) (expected : String) : Reader α := do
  drop 1
  fail (.tooShort length expected)

/-! ## Overrides -/

/-- The associativity with the given name. -/
def associativityOf (name : String) : Reader Associativity :=
  if name = "left" then return .left
  else if name = "right" then return .right
  else fail (.unknownVariant name ["left", "right"])

/-- Takes a null. -/
def null : Reader Unit := do
  if (← valueStart) = 'n' then
    drop 1
    word ['u', 'l', 'l']
  else wrongType "unit"

/-- Takes the key of an object with one member; an empty object lacks a value. -/
def onlyKey : Reader String := do
  match ← nextKey true with
  | some key => return key
  | none => failNext .expectedValue

/-- Takes an associativity: its name, or an object with a null under that name. -/
def associativity : Reader Associativity := do
  match ← peekSkip with
  | some '\x22' => associativityOf (← string)
  | some '\x7b' => do
    drop 1
    let a ← associativityOf (← onlyKey)
    colon
    null
    match ← peekSkip with
    | some '\x7d' => do
      drop 1
      return a
    | some _ => fail .expectedValue
    | none => fail .endInObject
  | some _ => failNext .expectedValue
  | none => failNext .endInValue

/-- Takes an associativity or a null. -/
def associativity? : Reader (Option Associativity) := do
  if (← peekSkip) = some 'n' then
    drop 1
    word ['u', 'l', 'l']
    return none
  else return some (← associativity)

/-- The members of an override that were read so far. -/
structure Members where
  operator : Option String
  precedence : Option Int
  associativity : Option (Option Associativity)

/-- Takes the members of an override up to the end of its object. No member may come twice,
    so their number bounds the work. -/
def overrideMembers : Nat → Bool → Members → Reader Override
  | 0, _, _ => fail .expectedObjectEnd
  | fuel + 1, first, m => do
    match ← nextKey first with
    | none =>
      match m.operator, m.precedence with
      | none, _ => failObject (.missingField "operator")
      | _, none => failObject (.missingField "precedence")
      | some operator, some precedence =>
        drop 1
        return ⟨operator, precedence, m.associativity.getD none⟩
    | some "operator" =>
      if m.operator.isSome then failObject (.duplicateField "operator")
      else
        colon
        let s ← stringValue
        overrideMembers fuel false { m with operator := some s }
    | some "precedence" =>
      if m.precedence.isSome then failObject (.duplicateField "precedence")
      else
        colon
        let n ← int32
        overrideMembers fuel false { m with precedence := some n }
    | some "associativity" =>
      if m.associativity.isSome then failObject (.duplicateField "associativity")
      else
        colon
        let a ← associativity?
        overrideMembers fuel false { m with associativity := some a }
    | some name =>
      failObject (.unknownField name ["operator", "precedence", "associativity"])

/-- Takes the items of an override that is written as a list, up to the end of the list. -/
def overrideItems : Reader Override := do
  let whole := "struct OperatorEntry with 3 elements"
  if !(← nextItem true) then failShort 0 whole
  else
    let operator ← stringValue
    if !(← nextItem false) then failShort 1 whole
    else
      let precedence ← int32
      let a ← if ← nextItem false then associativity? else pure none
      endList
      return ⟨operator, precedence, a⟩

/-- Takes one override. -/
def override : Reader Override := do
  match ← valueStart with
  | '[' => do
    drop 1
    overrideItems
  | '\x7b' => do
    drop 1
    overrideMembers 4 true ⟨none, none, none⟩
  | _ => wrongType "struct OperatorEntry"

/-- Takes the items of a list of overrides up to its end. The number of characters ahead bounds
    the number of items. -/
def overrideList : Nat → Bool → Reader (List Override)
  | 0, _ => fail .endInList
  | fuel + 1, first => do
    if ← nextItem first then
      let o ← override
      return o :: (← overrideList fuel false)
    else
      endList
      return []

/-- Takes a list of overrides. -/
def overrides : Reader (List Override) := do
  if (← valueStart) = '[' then
    drop 1
    overrideList ((← ahead).length + 1) true
  else wrongType "a sequence"

/-- Takes everything: an object with the member `operators`, or a list of just its value. -/
def file : Reader (List Override) := do
  match ← valueStart with
  | '[' => do
    drop 1
    if !(← nextItem true) then failShort 0 "struct OperatorConfig with 1 element"
    else
      let os ← overrides
      endList
      return os
  | '\x7b' => do
    drop 1
    match ← nextKey true with
    | none => failObject (.missingField "operators")
    | some "operators" =>
      colon
      let os ← overrides
      match ← nextKey false with
      | none =>
        drop 1
        return os
      | some "operators" => failObject (.duplicateField "operators")
      | some name => failObject (.unknownField name ["operators"])
    | some name => failObject (.unknownField name ["operators"])
  | _ => wrongType "struct OperatorConfig"

/-- Takes everything, with nothing but blanks after it. -/
def wholeFile : Reader (List Override) := do
  let os ← file
  match ← peekSkip with
  | none => return os
  | some _ => failNext .trailingCharacters

end Reader

/-- The complaint about a text that cannot be read: what is wrong, with the line and column,
    at the offset of these. -/
def Misread.complaint (m : Misread) (text : List Char) : Complaint :=
  let place := placeOf m.offset text
  let message := m.reason.message ++ " at line " ++ toString place.line ++ " column "
    ++ toString place.column
  ⟨.invalidConfig message, Span.empty (offsetOf text place.line place.column)⟩

/-- The overrides written by a text. -/
def ofText (text : String) : Except Complaint (List Override) :=
  match Reader.wholeFile ⟨0, text.toList⟩ with
  | .ok (os, _) => .ok os
  | .error m => .error (m.complaint text.toList)

/-- The overrides written by a source. -/
def ofSource (source : Source) : Except Diagnostic (List Override) :=
  (ofText source.content).mapError (Origin.report ⟨source, "config"⟩)

/-- The overrides in the file at `path`, given what reading the file brings. -/
def ofFile (path : String) (content : Except FileError String) :
    Except Diagnostic (List Override) :=
  match content with
  | .ok text => ofSource ⟨path, text⟩
  | .error e =>
    .error (Origin.report ⟨.fallback path, "config"⟩ (Problem.unreadable path e.message).unplaced)

end Override

end Frontend
