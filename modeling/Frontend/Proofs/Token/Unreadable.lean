import Frontend.Proofs.Token.Slice
import Mathlib

/-!
# Texts that cannot be made into tokens

Reading a text leads from its beginning through lexemes and gaps (`Lexeme.Reaches`), up to its end
or to a character at which neither begins (`Lexeme.StuckAt`). There is only one way to read a text,
so there is at most one such character, and it is reported (`readTokens_of_stuckAt`). What stands
before it is made of lexemes and gaps when it is a text of its own, so no character is reported
there.

In a text that can be read up to its end, the first number that is too large is reported
(`find?_isOutOfRange_eq_some_iff`). So a text that cannot be made into tokens has one of these two
mistakes, and the character is reported even if the number comes first (`tokenize_fails`).
-/

namespace Frontend

open Text

/-- Zeros before a number do not change its value. -/
theorem Number.valueOf_zeros (n : Nat) (digits : List Char) :
    valueOf (List.replicate n '0' ++ digits) = valueOf digits := by
  induction n with
  | zero => rfl
  | succ n ih => exact ih

namespace Lexeme

/-- The piece is a number that is too large. -/
def Piece.TooLarge (piece : Piece) : Prop :=
  piece.kind = .number ∧ 0x7fffffffffffffff < Number.valueOf piece.text

/-- Reading the text leads behind `before`, to a character at which it cannot go on. -/
def StuckAt (text before : List Char) (c : Char) (after : List Char) : Prop :=
  Unreadable (c :: after) ∧
    ∃ pieces gap, Reaches (c :: after) text pieces gap ∧ before = textOf pieces ++ gap

variable {text before after before' after' last : List Char} {c c' : Char} {pieces : List Piece}
  {p : Position} {t : Token}

/-- Reading gets stuck where it leaves something over. -/
theorem stuckAt_iff : StuckAt text before c after ↔
    ∃ pieces gap, read text = ⟨pieces, gap, c :: after⟩ ∧ before = textOf pieces ++ gap := by
  constructor
  · rintro ⟨hrest, pieces, gap, hreaches, heq⟩
    exact ⟨pieces, gap, hreaches.read_eq hrest, heq⟩
  · rintro ⟨pieces, gap, hread, heq⟩
    obtain ⟨hreaches, hrest⟩ := reaches_read text
    rw [hread] at hreaches hrest
    exact ⟨hrest, pieces, gap, hreaches, heq⟩

theorem StuckAt.text_eq (h : StuckAt text before c after) : text = before ++ c :: after := by
  obtain ⟨-, pieces, gap, hreaches, rfl⟩ := h
  rw [hreaches.text_eq, List.append_assoc]

/-- A text is stuck at one place at most. -/
theorem StuckAt.unique (h : StuckAt text before c after) (h' : StuckAt text before' c' after') :
    before = before' ∧ c = c' ∧ after = after' := by
  obtain ⟨pieces, gap, hread, rfl⟩ := stuckAt_iff.1 h
  obtain ⟨pieces', gap', hread', rfl⟩ := stuckAt_iff.1 h'
  obtain ⟨rfl, rfl, hrest⟩ := Reading.mk.inj (hread.symm.trans hread')
  exact ⟨rfl, List.cons.inj hrest⟩

/-- Reading a text leads to its end unless it gets stuck. -/
theorem exists_stuckAt_or_decomposes (text : List Char) :
    (∃ before c after, StuckAt text before c after) ∨
      ∃ pieces last, Decomposes text pieces last := by
  rcases hread : read text with ⟨pieces, gap, _ | ⟨c, after⟩⟩
  · exact .inr ⟨pieces, gap, read_eq_iff.1 hread⟩
  · exact .inl ⟨_, c, after, stuckAt_iff.2 ⟨pieces, gap, hread, rfl⟩⟩

/-- A text that decomposes is stuck nowhere. -/
theorem Decomposes.not_stuckAt (h : Decomposes text pieces last) :
    ¬StuckAt text before c after := by
  intro hstuck
  obtain ⟨pieces', gap, hread, -⟩ := stuckAt_iff.1 hstuck
  exact nomatch congrArg Reading.rest (h.read_eq.symm.trans hread)

theorem Piece.not_tooLarge_iff {piece : Piece} : ¬piece.TooLarge ↔
    (piece.kind = .number → Number.valueOf piece.text ≤ 0x7fffffffffffffff) := by
  rw [TooLarge, not_and, Nat.not_lt]

/-- The first token out of range is that of the first piece that is too large. -/
theorem find?_isOutOfRange_eq_some_iff (h : ∀ piece ∈ pieces, IsLexeme piece.kind piece.text) :
    (toTokens p pieces).find? Token.isOutOfRange = some t ↔
      ∃ ps piece qs, pieces = ps ++ piece :: qs ∧ (∀ piece' ∈ ps, ¬piece'.TooLarge) ∧
        piece.TooLarge ∧
        t = toToken (p.advance (textOf ps ++ piece.gap)) piece.kind piece.text := by
  have hrange {piece : Piece} (hpiece : piece ∈ pieces) (q : Position) :
      (toToken q piece.kind piece.text).isOutOfRange ↔ piece.TooLarge := by
    rw [isOutOfRange_toToken (h piece hpiece), Nat.not_le]
    rfl
  have hnone {ps : List Piece} (hps : ps ⊆ pieces) :
      (toTokens p ps).find? Token.isOutOfRange = none ↔ ∀ piece ∈ ps, ¬piece.TooLarge := by
    rw [find?_isOutOfRange_eq_none_iff p fun piece hpiece => h piece (hps hpiece)]
    exact forall₂_congr fun piece _ => Piece.not_tooLarge_iff.symm
  constructor
  · intro hfind
    obtain ⟨ht, ts, us, heq, hts⟩ := List.find?_eq_some_iff_append.1 hfind
    obtain ⟨ps, _ | ⟨piece, qs⟩, rfl, rfl, hqs⟩ := toTokens_eq_append heq
    · exact nomatch hqs
    · obtain ⟨rfl, -⟩ := List.cons.inj hqs
      have hps := List.find?_eq_none.2 fun t ht => by simpa using hts t ht
      refine ⟨ps, piece, qs, rfl, (hnone (List.subset_append_left _ _)).1 hps, ?_, ?_⟩
      · exact (hrange (by simp) _).1 ht
      · rw [Position.advance_append]
  · rintro ⟨ps, piece, qs, rfl, hps, hlarge, rfl⟩
    have htoken := (hrange (by simp) (p.advance (textOf ps ++ piece.gap))).2 hlarge
    rw [Position.advance_append] at htoken ⊢
    rw [toTokens_append, List.find?_append, (hnone (List.subset_append_left _ _)).2 hps,
      Option.none_or, toTokens, List.find?_cons_of_pos htoken]

end Lexeme

open Lexeme

variable {text : String} {before after : List Char} {c : Char} {d : Complaint}

/-- The character at which reading is stuck is reported. -/
theorem readTokens_of_stuckAt (h : StuckAt text.toList before c after) :
    readTokens text =
      .error ⟨.unknownToken (String.singleton c),
        ⟨byteSize before, byteSize before + c.utf8Size⟩⟩ := by
  obtain ⟨pieces, gap, hread, rfl⟩ := stuckAt_iff.1 h
  unfold readTokens
  simp only [hread, afterPieces_eq, ← Position.advance_append, Position.offset_advance,
    Position.start, Nat.zero_add]

/-- In a text that is read up to its end, the first number that is too large is reported. -/
theorem readTokens_eq_error_iff {pieces : List Piece} {last : List Char}
    (h : Decomposes text.toList pieces last) :
    readTokens text = .error d ↔
      ∃ ps piece qs, pieces = ps ++ piece :: qs ∧ (∀ piece' ∈ ps, ¬piece'.TooLarge) ∧
        piece.TooLarge ∧ d = ⟨.invalidLiteral (String.ofList piece.text),
          ⟨byteSize (textOf ps ++ piece.gap),
            byteSize (textOf ps ++ piece.gap ++ piece.text)⟩⟩ := by
  have hfound : readTokens text = .error d ↔
      ∃ t, (toTokens .start pieces).find? Token.isOutOfRange = some t ∧
        d = ⟨.invalidLiteral t.lexeme, t.span⟩ := by
    unfold readTokens
    simp only [h.read_eq]
    cases (toTokens .start pieces).find? Token.isOutOfRange <;> simp [eq_comm]
  have hspan (cs : List Char) (k : Kind) (lexeme : List Char) :
      (toToken (Position.start.advance cs) k lexeme).span =
        ⟨byteSize cs, byteSize (cs ++ lexeme)⟩ := by
    rw [span_toToken, Position.offset_advance, byteSize_append cs lexeme]
    simp [Position.start]
  rw [hfound]
  constructor
  · rintro ⟨t, hfind, rfl⟩
    obtain ⟨ps, piece, qs, rfl, hps, hlarge, rfl⟩ :=
      (find?_isOutOfRange_eq_some_iff h.isLexeme).1 hfind
    exact ⟨ps, piece, qs, rfl, hps, hlarge, by rw [hspan, toToken]⟩
  · rintro ⟨ps, piece, qs, rfl, hps, hlarge, rfl⟩
    refine ⟨_, (find?_isOutOfRange_eq_some_iff h.isLexeme).2
      ⟨ps, piece, qs, rfl, hps, hlarge, rfl⟩, ?_⟩
    rw [hspan, toToken]

/-- No character of a text that is made of lexemes and gaps is reported. -/
theorem problem_ne_unknownToken {pieces : List Piece} {last : List Char}
    (h : Decomposes text.toList pieces last) (hd : readTokens text = .error d) (q : String) :
    d.problem ≠ .unknownToken q := by
  obtain ⟨ps, piece, qs, -, -, -, rfl⟩ := (readTokens_eq_error_iff h).1 hd
  exact nofun

/-- If reading a text leads to a character at which neither a gap nor a lexeme begins, there is only
    one such character, it is reported with its bytes, and in the text before it no character is.
    Otherwise the text is made of lexemes and gaps, and the first of its numbers that is too large
    is reported, with its bytes. How large a number is does not depend on zeros before it. -/
theorem tokenize_fails (o : Origin) :
    (∀ before c after, StuckAt o.source.content.toList before c after →
      (∀ before' c' after', StuckAt o.source.content.toList before' c' after' →
        before = before' ∧ c = c' ∧ after = after') ∧
      tokenize o = .error (o.report
        ⟨.unknownToken (String.singleton c), ⟨byteSize before, byteSize before + c.utf8Size⟩⟩) ∧
      ∀ name phase d q, tokenize ⟨⟨name, String.ofList before⟩, phase⟩ = .error d →
        d.problem ≠ .unknownToken q) ∧
    ((¬∃ before c after, StuckAt o.source.content.toList before c after) →
      ∃ pieces last, Decomposes o.source.content.toList pieces last ∧
        ∀ d, tokenize o = .error d ↔
          ∃ ps piece qs, pieces = ps ++ piece :: qs ∧ (∀ piece' ∈ ps, ¬piece'.TooLarge) ∧
            piece.TooLarge ∧ d = o.report ⟨.invalidLiteral (String.ofList piece.text),
              ⟨byteSize (textOf ps ++ piece.gap),
                byteSize (textOf ps ++ piece.gap ++ piece.text)⟩⟩) ∧
    ∀ n digits, Number.valueOf (List.replicate n '0' ++ digits) = Number.valueOf digits := by
  refine ⟨fun before c after hstuck => ⟨fun _ _ _ => hstuck.unique, ?_, ?_⟩, fun hnone => ?_,
    Number.valueOf_zeros⟩
  · exact tokenize_eq_error_iff.2 ⟨_, readTokens_of_stuckAt hstuck, rfl⟩
  · intro name phase d q hd
    obtain ⟨-, pieces, gap, hreaches, rfl⟩ := hstuck
    obtain ⟨c', hc', rfl⟩ := tokenize_eq_error_iff.1 hd
    have hbefore : Decomposes (String.ofList (textOf pieces ++ gap)).toList pieces gap := by
      rw [String.toList_ofList]
      exact hreaches.decomposes
    exact problem_ne_unknownToken hbefore hc' q
  · obtain ⟨pieces, last, h⟩ := (exists_stuckAt_or_decomposes _).resolve_left hnone
    refine ⟨pieces, last, h, fun d => ?_⟩
    rw [tokenize_eq_error_iff]
    constructor
    · rintro ⟨c, hc, rfl⟩
      obtain ⟨ps, piece, qs, heq, hps, hlarge, rfl⟩ := (readTokens_eq_error_iff h).1 hc
      exact ⟨ps, piece, qs, heq, hps, hlarge, rfl⟩
    · rintro ⟨ps, piece, qs, heq, hps, hlarge, rfl⟩
      exact ⟨_, (readTokens_eq_error_iff h).2 ⟨ps, piece, qs, heq, hps, hlarge, rfl⟩, rfl⟩

/-- A letter of three bytes is reported although a number before it is too large. Zeros do not make
    a number too large. -/
theorem tokenize_fails_late :
    let o : Origin := ⟨⟨"a", "99999999999999999999 # é\n€<"⟩, "lex"⟩
    let o' : Origin := ⟨⟨"b", "0009223372036854775807 9223372036854775808"⟩, "lex"⟩
    StuckAt o.source.content.toList "99999999999999999999 # é\n".toList '€' ['<'] ∧
    tokenize o = .error (o.report ⟨.unknownToken "€", ⟨26, 29⟩⟩) ∧
    (¬∃ before c after, StuckAt o'.source.content.toList before c after) ∧
    tokenize o' = .error (o'.report ⟨.invalidLiteral "9223372036854775808", ⟨23, 42⟩⟩) ∧
    ∃ ps piece qs last, Decomposes o'.source.content.toList (ps ++ piece :: qs) last ∧
      (∀ piece' ∈ ps, ¬piece'.TooLarge) ∧ piece.TooLarge := by
  intro o o'
  have hstuck : StuckAt o.source.content.toList "99999999999999999999 # é\n".toList '€' ['<'] :=
    stuckAt_iff.2 ⟨_, _, by cbv, by cbv⟩
  have hread : (read o'.source.content.toList).rest = [] := by cbv
  have hnone : ¬∃ before c after, StuckAt o'.source.content.toList before c after := by
    rintro ⟨before, c, after, h⟩
    exact (decomposes_read hread).not_stuckAt h
  have herror : tokenize o' =
      .error (o'.report ⟨.invalidLiteral "9223372036854775808", ⟨23, 42⟩⟩) := by cbv
  obtain ⟨pieces, last, h, hfails⟩ := (tokenize_fails o').2.1 hnone
  obtain ⟨ps, piece, qs, rfl, hps, hlarge, -⟩ := (hfails _).1 herror
  exact ⟨hstuck, ((tokenize_fails o).1 _ _ _ hstuck).2.1, hnone, herror, ps, piece, qs, last, h,
    hps, hlarge⟩

end Frontend
