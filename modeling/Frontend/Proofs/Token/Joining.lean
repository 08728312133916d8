import Frontend.Proofs.Token.Decomposition

/-!
# Texts put together

Two texts with a line feed between them are made of the lexemes of both: the line feed ends a
comment, and it continues neither a word nor a number. What the tokens of the second text are
does not change, only where they stand (`Token.move`), so the tokens of the whole are those of the
first text and those of the second one, moved behind it (`readTokens_append_line`).

Lexemes with a blank between each of them and the next are read back as these lexemes, whatever
they are (`readTokens_spaced`).
-/

namespace Frontend

open Text

/-! ## Moved places -/

/-- The place that is so many bytes and lines further on, in the same column. -/
def Position.move (offset lines : Nat) (p : Position) : Position :=
  ⟨p.offset + offset, p.line + lines, p.column⟩

/-- The token that stands so many bytes and lines further on, in the same columns. -/
def Token.move (offset lines : Nat) (t : Token) : Token :=
  { t with
    span := t.span.shift offset
    location := { t.location with line := t.location.line + lines } }

namespace Position

variable {offset lines : Nat}

theorem next_move (p : Position) (c : Char) :
    (p.move offset lines).next c = (p.next c).move offset lines := by
  unfold next move
  split <;> simp only [Nat.add_right_comm]

/-- Places that are moved stay as far apart. -/
theorem advance_move (p : Position) (cs : List Char) :
    (p.move offset lines).advance cs = (p.advance cs).move offset lines := by
  induction cs generalizing p with
  | nil => rfl
  | cons c cs ih =>
    have hstep (q : Position) : q.advance (c :: cs) = (q.next c).advance cs := rfl
    rw [hstep, hstep, next_move, ih]

theorem line_advance (p : Position) (cs : List Char) :
    (p.advance cs).line = p.line + cs.count '\n' := by
  induction cs generalizing p with
  | nil => rfl
  | cons c cs ih =>
    have hstep : p.advance (c :: cs) = (p.next c).advance cs := rfl
    rw [hstep, ih, List.count_cons]
    unfold next
    split
    · next hc =>
      subst hc
      rw [beq_self_eq_true, if_pos rfl, Nat.add_assoc, Nat.add_comm 1]
    · next hc => simp [hc]

/-- After a line feed, a text goes on in the first column of a new line. -/
theorem advance_line (cs : List Char) :
    start.advance (cs ++ ['\n']) = start.move (byteSize cs + 1) (cs.count '\n' + 1) := by
  have hnext (q : Position) : q.next '\n' = ⟨q.offset + 1, q.line + 1, 1⟩ := rfl
  have hline : start.advance (cs ++ ['\n']) = (start.advance cs).next '\n' :=
    advance_append start cs ['\n']
  rw [hline, hnext, offset_advance, line_advance]
  simp only [start, move, Nat.zero_add, mk.injEq, and_true, true_and]
  omega

end Position

namespace Lexeme

variable {cs ds gap gap' text rest rest' last last' : List Char} {k : Kind}
  {pieces pieces' : List Piece}

/-- The tokens of the same pieces further on are the same tokens, moved. -/
theorem toTokens_move (offset lines : Nat) (p : Position) (pieces : List Piece) :
    toTokens (p.move offset lines) pieces = (toTokens p pieces).map (Token.move offset lines) := by
  have htoken (q : Position) (k : Kind) (text : List Char) :
      toToken (q.move offset lines) k text = (toToken q k text).move offset lines := by
    rw [toToken, Position.advance_move]
    rfl
  induction pieces generalizing p with
  | nil => rfl
  | cons piece pieces ih =>
    simp only [toTokens, List.map_cons, Position.advance_move, htoken, ih]

/-! ## Gaps put together -/

/-- A gap at the end of a text is a gap in front of a line feed. -/
theorem IsGap.before_line (h : IsGap [] gap) : IsGap ('\n' :: rest) gap := by
  induction h with
  | nil => exact .nil
  | blank hc _ ih => exact .blank hc ih
  | @comment text gap htext hnext _ ih =>
    refine .comment htext (fun c hc => ?_) ih
    cases gap with
    | nil =>
      obtain rfl := Option.some.inj hc
      decide
    | cons d gap => exact hnext c hc

theorem IsGap.append (h : IsGap (gap' ++ rest) gap) (h' : IsGap rest gap') :
    IsGap rest (gap ++ gap') := by
  induction h with
  | nil => exact h'
  | blank hc _ ih => exact .blank hc ih
  | comment htext hnext _ ih =>
    rw [List.cons_append, List.append_assoc]
    refine .comment htext (fun c hc => hnext c ?_) ih
    rwa [← List.append_assoc]

/-! ## Texts put together -/

/-- The pieces of a text with a gap put in front of it. -/
def afterGap (gap : List Char) : List Piece → List Piece
  | [] => []
  | piece :: pieces => ⟨gap ++ piece.gap, piece.kind, piece.text⟩ :: pieces

theorem toTokens_afterGap (p : Position) (gap : List Char) (pieces : List Piece) :
    toTokens p (afterGap gap pieces) = toTokens (p.advance gap) pieces := by
  cases pieces with
  | nil => rfl
  | cons piece pieces => simp only [afterGap, toTokens, Position.advance_append]

/-- A gap in front of some pieces changes no lexeme, so it changes no number. -/
theorem inRange_afterGap_iff :
    (∀ piece ∈ afterGap gap pieces, piece.kind = .number →
        Number.valueOf piece.text ≤ 0x7fffffffffffffff) ↔
      ∀ piece ∈ pieces, piece.kind = .number →
        Number.valueOf piece.text ≤ 0x7fffffffffffffff := by
  cases pieces with
  | nil => rfl
  | cons piece pieces => simp only [afterGap, List.forall_mem_cons]

/-- A gap in front of a text becomes part of its first gap. -/
theorem Decomposes.exists_afterGap (h : Decomposes cs pieces last) (hgap : IsGap cs gap) :
    ∃ last', Decomposes (gap ++ cs) (afterGap gap pieces) last' := by
  cases h with
  | last hlast =>
    rw [← List.append_nil cs] at hgap
    exact ⟨gap ++ cs, .last (hgap.append hlast)⟩
  | piece hgap' hlexeme hends h =>
    rw [← List.append_assoc]
    exact ⟨last, .piece (hgap.append hgap') hlexeme hends h⟩

/-- The pieces of two texts with a line feed between them. -/
theorem Decomposes.exists_append_line (h : Decomposes cs pieces last)
    (h' : Decomposes ds pieces' last') :
    ∃ last'',
      Decomposes (cs ++ '\n' :: ds) (pieces ++ afterGap (last ++ ['\n']) pieces') last'' := by
  induction h with
  | last hgap =>
    -- What is left of the first text, a comment perhaps, ends with the line feed.
    have hline : IsGap ds (_ ++ ['\n']) := hgap.before_line.append (.blank (by decide) .nil)
    simpa using h'.exists_afterGap hline
  | piece hgap hlexeme hends _ ih =>
    obtain ⟨last'', ih⟩ := ih
    refine ⟨last'', ?_⟩
    rw [List.append_assoc, List.append_assoc]
    exact .piece (hlexeme.isGap hgap) hlexeme
      (hends.append (Kind.endsBefore_cons (by decide) _)) ih

theorem toTokens_append (p : Position) (pieces pieces' : List Piece) :
    toTokens p (pieces ++ pieces') =
      toTokens p pieces ++ toTokens (p.advance (textOf pieces)) pieces' := by
  induction pieces generalizing p with
  | nil => rfl
  | cons piece pieces ih =>
    simp only [List.cons_append, toTokens, ih, textOf_cons, Position.advance_append]

/-! ## Lexemes with blanks between them -/

/-- The pieces of a text that is made of some lexemes, with `gap` before the first one and a blank
    before each of the others. -/
def spaced (gap : List Char) : List (Kind × String) → List Piece
  | [] => []
  | w :: ws => ⟨gap, w.1, w.2.toList⟩ :: spaced [' '] ws

/-- The lexemes of some pieces, each with its kind. -/
def lexemes (pieces : List Piece) : List (Kind × String) :=
  pieces.map fun piece => (piece.kind, String.ofList piece.text)

theorem lexemes_spaced (gap : List Char) (ws : List (Kind × String)) :
    lexemes (spaced gap ws) = ws := by
  induction ws generalizing gap with
  | nil => rfl
  | cons w ws ih =>
    rw [spaced, lexemes, List.map_cons, String.ofList_toList]
    exact congrArg (w :: ·) (ih [' '])

theorem mem_spaced {ws : List (Kind × String)} {piece : Piece} (h : piece ∈ spaced gap ws) :
    (piece.kind, String.ofList piece.text) ∈ ws :=
  lexemes_spaced gap ws ▸ List.mem_map_of_mem h

/-- Lexemes with blanks between them decompose into these lexemes, since a blank ends every
    lexeme. -/
theorem decomposes_spaced {ws : List (Kind × String)} (hgap : ∀ rest, IsGap rest gap)
    (hws : ∀ w ∈ ws, IsLexeme w.1 w.2.toList) :
    Decomposes (textOf (spaced gap ws)) (spaced gap ws) [] := by
  induction ws generalizing gap with
  | nil => exact .last .nil
  | cons w ws ih =>
    obtain ⟨hw, hws⟩ := List.forall_mem_cons.1 hws
    have hblank : ∀ rest, IsGap rest [' '] := fun rest => .blank (by decide) .nil
    have hends : w.1.EndsBefore (textOf (spaced [' '] ws)) := by
      cases ws with
      | nil => exact w.1.endsBefore_nil
      | cons => exact Kind.endsBefore_cons (by decide) w.1
    rw [spaced, textOf_cons]
    exact .piece (hgap _) hw hends (ih hblank hws)

/-- The characters of such pieces are the lexemes with blanks between them. -/
theorem textOf_spaced (gap : List Char) (w : Kind × String) (ws : List (Kind × String)) :
    textOf (spaced gap (w :: ws)) =
      gap ++ (" ".intercalate ((w :: ws).map Prod.snd)).toList := by
  induction ws generalizing gap w with
  | nil => simp [spaced, textOf]
  | cons w' ws ih =>
    rw [spaced, textOf_cons, ih]
    simp

/-- The tokens of some pieces have their kinds and lexemes. -/
theorem map_toTokens (p : Position) (pieces : List Piece) :
    (toTokens p pieces).map (fun t => (t.id, t.lexeme)) =
      (lexemes pieces).map fun w => (w.1.id, w.2) := by
  induction pieces generalizing p with
  | nil => rfl
  | cons piece pieces ih => exact congrArg (_ :: ·) (ih _)

theorem map_lexeme_toTokens (p : Position) (pieces : List Piece) :
    (toTokens p pieces).map Token.lexeme = (lexemes pieces).map Prod.snd := by
  simpa [Function.comp_def] using congrArg (List.map Prod.snd) (map_toTokens p pieces)

end Lexeme

open Lexeme

/-- The tokens of two texts with a line feed between them are those of the first one and those of
    the second one, moved behind the line feed. -/
theorem readTokens_append_line {a b : String} {ts us : List Token} (ha : readTokens a = .ok ts)
    (hb : readTokens b = .ok us) :
    readTokens (a ++ "\n" ++ b) =
      .ok (ts ++ us.map (Token.move (a.utf8ByteSize + 1) (a.toList.count '\n' + 1))) := by
  obtain ⟨pieces, last, hpieces, hrange, rfl⟩ := readTokens_eq_ok_iff.1 ha
  obtain ⟨pieces', last', hpieces', hrange', rfl⟩ := readTokens_eq_ok_iff.1 hb
  obtain ⟨last'', h⟩ := hpieces.exists_append_line hpieces'
  have htext : (a ++ "\n" ++ b).toList = a.toList ++ '\n' :: b.toList := by simp
  refine readTokens_eq_ok_iff.2 ⟨_, last'', htext ▸ h, ?_, ?_⟩
  · exact List.forall_mem_append.2 ⟨hrange, inRange_afterGap_iff.2 hrange'⟩
  · rw [toTokens_append, toTokens_afterGap, ← Position.advance_append, ← List.append_assoc,
      ← hpieces.text_eq, Position.advance_line, byteSize_toList, toTokens_move]

/-- The lexeme of the token is one of its kind. -/
def Token.IsProper (t : Token) : Prop := ∃ k, t.is k ∧ IsLexeme k t.lexeme.toList

/-- A token with a lexeme of a kind is of this kind. -/
theorem Token.IsProper.is {t : Token} {k : Kind} (ht : t.IsProper)
    (hk : IsLexeme k t.lexeme.toList) : t.is k := by
  obtain ⟨k', ht, hk'⟩ := ht
  rwa [hk.kind_unique hk']

/-- The tokens of a text have lexemes of their kinds. -/
theorem isProper_of_readTokens {text : String} {ts : List Token} (h : readTokens text = .ok ts) :
    ∀ t ∈ ts, t.IsProper := by
  obtain ⟨pieces, last, hpieces, -, rfl⟩ := readTokens_eq_ok_iff.1 h
  intro t ht
  obtain ⟨i, piece, hi, rfl⟩ := mem_toTokens_iff.1 ht
  refine ⟨piece.kind, Token.is_iff.2 rfl, ?_⟩
  rw [toToken, String.toList_ofList]
  exact hpieces.isLexeme piece (List.mem_of_getElem? hi)

/-- Lexemes with blanks between them are made into their tokens, unless a number is too large. -/
theorem readTokens_spaced {ws : List (Kind × String)}
    (hws : ∀ w ∈ ws, IsLexeme w.1 w.2.toList)
    (hrange : ∀ w ∈ ws, w.1 = .number → Number.valueOf w.2.toList ≤ 0x7fffffffffffffff) :
    readTokens (" ".intercalate (ws.map Prod.snd)) = .ok (toTokens .start (spaced [] ws)) := by
  have htext : (" ".intercalate (ws.map Prod.snd)).toList = textOf (spaced [] ws) := by
    cases ws with
    | nil => rfl
    | cons w ws => exact (textOf_spaced [] w ws).symm
  have hpieces := decomposes_spaced (fun rest => IsGap.nil) hws
  refine readTokens_eq_ok_iff.2 ⟨_, [], htext ▸ hpieces, fun piece hpiece hk => ?_, rfl⟩
  have := hrange _ (mem_spaced hpiece) hk
  rwa [String.toList_ofList] at this

/-- The tokens have the lexemes that were put together. -/
theorem exists_readTokens_spaced {ws : List (Kind × String)}
    (hws : ∀ w ∈ ws, IsLexeme w.1 w.2.toList)
    (hrange : ∀ w ∈ ws, w.1 = .number → Number.valueOf w.2.toList ≤ 0x7fffffffffffffff) :
    ∃ ts, readTokens (" ".intercalate (ws.map Prod.snd)) = .ok ts ∧
      ts.map Token.lexeme = ws.map Prod.snd :=
  ⟨_, readTokens_spaced hws hrange, by rw [map_lexeme_toTokens, lexemes_spaced]⟩

end Frontend
