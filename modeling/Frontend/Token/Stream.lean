import Frontend.Diagnostic
import Frontend.Number
import Frontend.Token
import Frontend.Token.Lexeme

/-!
# Token streams

`tokenize` turns a source into its tokens. Offsets count bytes and columns count
characters; a line feed ends a line and every other character is one column. A character
that starts no lexeme is reported before any number out of range.
-/

namespace Frontend

/-- A place in a text: the bytes before it, and its line and column counted from one. -/
structure Position where
  offset : Nat
  line : Nat
  column : Nat
deriving DecidableEq

namespace Position

/-- The beginning of a text. -/
def start : Position := ⟨0, 1, 1⟩

/-- The place after one more character. -/
def next (p : Position) (c : Char) : Position :=
  if c = '\n' then ⟨p.offset + c.utf8Size, p.line + 1, 1⟩
  else ⟨p.offset + c.utf8Size, p.line, p.column + 1⟩

/-- The place after some more characters. -/
def advance (p : Position) (cs : List Char) : Position := cs.foldl next p

end Position

namespace Lexeme

/-- The token of the lexeme `text` that starts at `p`. -/
def toToken (p : Position) (kind : Kind) (text : List Char) : Token where
  id := kind.id
  lexeme := String.ofList text
  span := ⟨p.offset, (p.advance text).offset⟩
  location := ⟨p.line, p.column, p.column + (text.length - 1)⟩

/-- The tokens of consecutive pieces, the first of which starts at `p`. -/
def toTokens (p : Position) : List Piece → List Token
  | [] => []
  | piece :: pieces =>
    let q := p.advance piece.gap
    toToken q piece.kind piece.text :: toTokens (q.advance piece.text) pieces

/-- The place after consecutive pieces, the first of which starts at `p`. -/
def afterPieces (p : Position) (pieces : List Piece) : Position :=
  pieces.foldl (fun q piece => (q.advance piece.gap).advance piece.text) p

end Lexeme

/-- A number token whose lexeme has no value in range. -/
def Token.isOutOfRange (t : Token) : Bool := t.is .number && (Number.read? t.lexeme).isNone

/-- The tokens of a text. -/
def readTokens (text : String) : Except Complaint (List Token) :=
  let reading := Lexeme.read text.toList
  match reading.rest with
  | c :: _ =>
    let p := (Lexeme.afterPieces .start reading.pieces).advance reading.gap
    .error ⟨.unknownToken (String.singleton c), ⟨p.offset, p.offset + c.utf8Size⟩⟩
  | [] =>
    let tokens := Lexeme.toTokens .start reading.pieces
    match tokens.find? Token.isOutOfRange with
    | some t => .error ⟨.invalidLiteral t.lexeme, t.span⟩
    | none => .ok tokens

/-- The tokens of the source at `o`. -/
def tokenize (o : Origin) : Except Diagnostic (List Token) :=
  (readTokens o.source.content).mapError o.report

end Frontend
