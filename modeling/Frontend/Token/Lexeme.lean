import Frontend.Token.Kind

/-!
# Lexemes

A text is read as lexemes with *gaps* between them. A gap is a run of blanks and comments,
a comment being everything from `#` up to the end of its line. A lexeme is a word, a run of
digits or a mark; words and digit runs are as long as they can be. `read` cuts a text into
pieces, each a gap and the lexeme after it, up to the end of the text or the first character
that starts no lexeme.
-/

namespace Frontend.Lexeme

/-- The characters that may stand between lexemes. -/
def isBlank (c : Char) : Bool := c == ' ' || c == '\t' || c == '\r' || c == '\n'

/-- The characters that end a comment; they are not part of it. -/
def endsComment (c : Char) : Bool := c == '\n' || c == '\r'

/-- The characters that start a word. -/
def startsWord (c : Char) : Bool := c.isAlpha || c == '_'

/-- The characters that continue a word. -/
def continuesWord (c : Char) : Bool := c.isAlphanum || c == '_'

/-- Cuts off the gap at the head of a text; `inComment` says whether the text starts inside
    a comment. -/
def splitGap (inComment : Bool) : List Char → List Char × List Char
  | [] => ([], [])
  | c :: cs =>
    if inComment then
      let (gap, rest) := splitGap (!endsComment c) cs
      (c :: gap, rest)
    else if isBlank c then
      let (gap, rest) := splitGap false cs
      (c :: gap, rest)
    else if c == '#' then
      let (gap, rest) := splitGap true cs
      (c :: gap, rest)
    else
      ([], c :: cs)

/-- A word is a keyword if it is spelled like one, and an identifier otherwise. -/
def wordKind (word : List Char) : Kind :=
  if word = ['d', 'e', 'f'] then .definition
  else if word = ['e', 'x', 't', 'e', 'r', 'n'] then .external
  else .identifier

/-- The kind of a mark of one character. -/
def markKind? : Char → Option Kind
  | '=' => some .assign
  | '+' => some .add
  | '-' => some .sub
  | '*' => some .mul
  | ';' => some .separator
  | ',' => some .comma
  | '\x7b' => some .bodyBegin
  | '\x7d' => some .bodyEnd
  | '(' => some .openParen
  | ')' => some .closeParen
  | _ => none

/-- Cuts off the mark at the head of a text. The marks of two characters come first. -/
def splitMark? : List Char → Option (Kind × List Char × List Char)
  | '<' :: '<' :: cs => some (.shiftLeft, ['<', '<'], cs)
  | '>' :: '>' :: cs => some (.shiftRight, ['>', '>'], cs)
  | c :: cs => (markKind? c).map fun k => (k, [c], cs)
  | [] => none

/-- Cuts off the lexeme at the head of a text, with its kind. -/
def split? (cs : List Char) : Option (Kind × List Char × List Char) :=
  match cs with
  | [] => none
  | c :: rest =>
    if startsWord c then
      let word := c :: rest.takeWhile continuesWord
      some (wordKind word, word, rest.dropWhile continuesWord)
    else if c.isDigit then
      some (.number, c :: rest.takeWhile Char.isDigit, rest.dropWhile Char.isDigit)
    else
      splitMark? cs

/-- A lexeme and the gap before it. -/
structure Piece where
  gap : List Char
  kind : Kind
  text : List Char
deriving DecidableEq

/-- A text cut into pieces: the pieces, the gap after the last one, and what could not be
    read, which is empty if the whole text was. -/
structure Reading where
  pieces : List Piece
  gap : List Char
  rest : List Char
deriving DecidableEq

theorem splitGap_append (b : Bool) (cs : List Char) :
    (splitGap b cs).1 ++ (splitGap b cs).2 = cs := by
  induction cs generalizing b with
  | nil => rfl
  | cons c cs ih =>
    rw [splitGap]
    split
    · simp [ih]
    · split
      · simp [ih]
      · split
        · simp [ih]
        · rfl

theorem length_splitGap_le (b : Bool) (cs : List Char) :
    (splitGap b cs).2.length ≤ cs.length := by
  have h := congrArg List.length (splitGap_append b cs)
  simp only [List.length_append] at h
  omega

theorem splitMark?_append {cs text rest : List Char} {k : Kind}
    (h : splitMark? cs = some (k, text, rest)) : text ++ rest = cs ∧ text ≠ [] := by
  unfold splitMark? at h
  split at h
  · simp only [Option.some.injEq, Prod.mk.injEq] at h
    obtain ⟨-, rfl, rfl⟩ := h
    simp
  · simp only [Option.some.injEq, Prod.mk.injEq] at h
    obtain ⟨-, rfl, rfl⟩ := h
    simp
  · simp only [Option.map_eq_some_iff, Prod.mk.injEq] at h
    obtain ⟨_, _, -, rfl, rfl⟩ := h
    simp
  · simp at h

/-- A lexeme is the non-empty head of the text it is cut off from. -/
theorem split?_append {cs text rest : List Char} {k : Kind}
    (h : split? cs = some (k, text, rest)) : text ++ rest = cs ∧ text ≠ [] := by
  unfold split? at h
  split at h
  · simp at h
  · split at h
    · simp only [Option.some.injEq, Prod.mk.injEq] at h
      obtain ⟨-, rfl, rfl⟩ := h
      simp [List.takeWhile_append_dropWhile]
    · split at h
      · simp only [Option.some.injEq, Prod.mk.injEq] at h
        obtain ⟨-, rfl, rfl⟩ := h
        simp [List.takeWhile_append_dropWhile]
      · exact splitMark?_append h

theorem length_split?_lt {cs text rest : List Char} {k : Kind}
    (h : split? cs = some (k, text, rest)) : rest.length < cs.length := by
  obtain ⟨rfl, ht⟩ := split?_append h
  have := List.length_pos_iff.2 ht
  simp only [List.length_append]
  omega

/-- Reads a text piece by piece. -/
def read (cs : List Char) : Reading :=
  match _h : split? (splitGap false cs).2 with
  | none => ⟨[], (splitGap false cs).1, (splitGap false cs).2⟩
  | some (kind, text, rest) =>
    let reading := read rest
    { reading with pieces := ⟨(splitGap false cs).1, kind, text⟩ :: reading.pieces }
termination_by cs.length
decreasing_by exact Nat.lt_of_lt_of_le (length_split?_lt _h) (length_splitGap_le false cs)

end Frontend.Lexeme
