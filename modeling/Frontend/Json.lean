/-!
# JSON values

The values in which trees are exchanged, and their text with one member to a line. Whole
numbers are kept apart from numbers with a fractional part, since only the former can stand
for an offset, a number or an operator.
-/

namespace Frontend

/-- A JSON value. The members of an object are in the order in which they are written. -/
inductive Json where
  | null
  | bool (b : Bool)
  | int (n : Int)
  /-- The number `digits` divided by `10 ^ places`, written with a fractional part. -/
  | decimal (digits : Int) (places : Nat)
  | str (s : String)
  | arr (items : List Json)
  | obj (members : List (String × Json))
deriving Inhabited

namespace Json

/-- The digits of a number below sixteen to the fourth, four of them. -/
def hex4 (n : Nat) : String :=
  let digit := fun d : Nat => Char.ofNat (if d < 10 then 48 + d else 87 + d)
  String.ofList
    [digit (n / 4096 % 16), digit (n / 256 % 16), digit (n / 16 % 16), digit (n % 16)]

/-- A character as it is written in a string. Quotes, backslashes and control characters are
    escaped, the latter by a short escape if there is one. -/
def escape (c : Char) : String :=
  match c with
  | '\x22' => "\\\""
  | '\\' => "\\\\"
  | '\x08' => "\\b"
  | '\x0c' => "\\f"
  | '\n' => "\\n"
  | '\r' => "\\r"
  | '\t' => "\\t"
  | c => if c.toNat < 32 then "\\u" ++ hex4 c.toNat else String.singleton c

/-- A string in quotes. -/
def quote (s : String) : String := "\"" ++ String.join (s.toList.map escape) ++ "\""

/-- A number with `places` digits after its point. -/
def decimalText (digits : Int) (places : Nat) : String :=
  let n := digits.natAbs
  let unit := Nat.pow 10 places
  let fraction := toString (n % unit)
  let zeros := String.join (List.replicate (places - fraction.length) "0")
  (if digits < 0 then "-" else "") ++ toString (n / unit) ++ "." ++ zeros ++ fraction

/-- The blanks before a line at some depth. -/
def margin (depth : Nat) : String := String.join (List.replicate depth "  ")

/-- Lines between brackets, or just the brackets if there are none. -/
def block (opening closing : String) (depth : Nat) (lines : List String) : String :=
  if lines.isEmpty then opening ++ closing
  else
    opening ++ "\n" ++ ",\n".intercalate (lines.map (margin (depth + 1) ++ ·)) ++ "\n"
      ++ margin depth ++ closing

mutual

/-- The text of a value whose first line is at some depth. -/
def textAt (depth : Nat) : Json → String
  | null => "null"
  | bool b => if b then "true" else "false"
  | int n => toString n
  | decimal digits places => decimalText digits places
  | str s => quote s
  | arr items => block "[" "]" depth (itemTexts (depth + 1) items)
  | obj members => block "\x7b" "\x7d" depth (memberTexts (depth + 1) members)

/-- The texts of the items of a list. -/
def itemTexts (depth : Nat) : List Json → List String
  | [] => []
  | j :: js => textAt depth j :: itemTexts depth js

/-- The texts of the members of an object. -/
def memberTexts (depth : Nat) : List (String × Json) → List String
  | [] => []
  | (key, j) :: ms => (quote key ++ ": " ++ textAt depth j) :: memberTexts depth ms

end

/-- The text of a value, each item or member on a line of its own. -/
def text (j : Json) : String := textAt 0 j

/-- The first member of an object with the given key. -/
def find? (key : String) (ms : List (String × Json)) : Option Json := ms.lookup key

/-- A member is smaller than its object. -/
theorem sizeOf_find?_lt {key : String} {ms : List (String × Json)} {j : Json}
    (h : find? key ms = some j) : sizeOf j < sizeOf ms := by
  have hmem : (key, j) ∈ ms := by
    obtain ⟨ms₁, ms₂, rfl, -⟩ := List.lookup_eq_some_iff.1 h
    exact List.mem_append_right ms₁ List.mem_cons_self
  have hlt := List.sizeOf_lt_of_mem hmem
  rw [Prod.mk.sizeOf_spec] at hlt
  omega

end Json

end Frontend
