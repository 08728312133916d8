import Frontend.Text.Visible

/-!
# Quoted texts

How a message shows a text that it cannot trust: between double quotes, with everything that
is not visible written as an escape.
-/

namespace Frontend.Text

/-- A number in base sixteen. -/
def hex (n : Nat) : String := String.ofList (Nat.toDigits 16 n)

/-- A character between double quotes. -/
def showChar (c : Char) : String :=
  match c with
  | '\x00' => "\\0"
  | '\t' => "\\t"
  | '\r' => "\\r"
  | '\n' => "\\n"
  | '\\' => "\\\\"
  | '\x22' => "\\\""
  | c => if isVisible c then String.singleton c else "\\u\x7b" ++ hex c.toNat ++ "\x7d"

/-- A text between double quotes. -/
def quoted (s : String) : String := "\"" ++ String.join (s.toList.map showChar) ++ "\""

end Frontend.Text
