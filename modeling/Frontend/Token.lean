import Frontend.Span
import Frontend.Token.Kind

/-!
# Tokens

A token is a lexeme with the number of its kind, the bytes it covers and the line and
columns at which a person finds it. The number is not required to belong to the CBC
alphabet, since the grammar search works over any numbers.
-/

namespace Frontend

/-- The line of a token and its first and last column, all counted from one. -/
structure Location where
  line : Nat
  beginColumn : Nat
  endColumn : Nat
deriving DecidableEq

/-- The location of a token that was not read from a text. -/
def Location.nowhere : Location := ⟨0, 0, 0⟩

/-- A lexeme, its kind and its place. -/
structure Token where
  /-- The number of the token's kind. -/
  id : Nat
  lexeme : String
  span : Span
  location : Location
deriving DecidableEq

namespace Token

/-- The kind of a token, if its number belongs to the alphabet. -/
def kind? (t : Token) : Option Kind := Kind.ofId? t.id

/-- Whether `t` is a token of the kind `k`. -/
def is (t : Token) (k : Kind) : Bool := t.id == k.id

/-- The lexeme with its line and columns. -/
def describe (t : Token) : String :=
  "'" ++ t.lexeme ++ "' <line: " ++ toString t.location.line ++ ", col: "
    ++ toString t.location.beginColumn ++ ":" ++ toString t.location.endColumn ++ ">"

theorem is_iff {t : Token} {k : Kind} : t.is k ↔ t.id = k.id := by
  rw [is, beq_iff_eq]

/-- A token is of one kind only. -/
theorem kind_unique {t : Token} {k k' : Kind} (h : t.is k) (h' : t.is k') : k = k' :=
  Kind.id_injective ((is_iff.1 h).symm.trans (is_iff.1 h'))

theorem not_is {t : Token} {k k' : Kind} (h : t.is k) (hk : k ≠ k') : ¬t.is k' :=
  fun h' => hk (kind_unique h h')

end Token

end Frontend
