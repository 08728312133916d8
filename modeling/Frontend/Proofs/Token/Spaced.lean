import Frontend.Proofs.Token.Joining
import Mathlib

/-!
# Texts written lexeme by lexeme

Lexemes that are written with a blank between each of them and the next are read back as they are
(`readTokens_spaced`), and each of them stands where the lexemes before it and their blanks end
(`byteSize_before_spaced`). As every text that can be made into tokens consists of lexemes, its
tokens can be written in this way, too, and are the same when they are read again
(`tokenize_spaced`).
-/

namespace Frontend

open Text

namespace Lexeme

variable {gap : List Char} {pieces : List Piece} {piece : Piece} {ws : List (Kind × String)}
  {i : Nat}

/-- What stands before a lexeme are the lexemes before it, each with a blank behind it. -/
theorem byteSize_before_spaced (h : (spaced gap ws)[i]? = some piece) :
    byteSize (textOf ((spaced gap ws).take i) ++ piece.gap) =
      byteSize gap + ((ws.take i).map fun w => w.2.utf8ByteSize + 1).sum := by
  induction ws generalizing gap i with
  | nil => exact nomatch h
  | cons w ws ih =>
    cases i with
    | zero =>
      obtain rfl := Option.some.inj h
      rfl
    | succ i =>
      have hrest : byteSize (textOf ((spaced [' '] ws).take i) ++ piece.gap) =
          1 + ((ws.take i).map fun w => w.2.utf8ByteSize + 1).sum := ih h
      rw [spaced, List.take_succ_cons, textOf_cons, List.append_assoc, List.append_assoc,
        byteSize_append, byteSize_append, hrest, byteSize_toList, List.take_succ_cons,
        List.map_cons, List.sum_cons, Nat.add_assoc w.2.utf8ByteSize]

/-- The lexemes of pieces are lexemes, and those of numbers in range have numbers in range. -/
theorem Decomposes.forall_lexemes {cs last : List Char} (h : Decomposes cs pieces last)
    (hrange : ∀ piece ∈ pieces, piece.kind = .number →
      Number.valueOf piece.text ≤ 0x7fffffffffffffff) :
    ∀ w ∈ lexemes pieces, IsLexeme w.1 w.2.toList ∧
      (w.1 = .number → Number.valueOf w.2.toList ≤ 0x7fffffffffffffff) := by
  intro w hw
  obtain ⟨piece, hpiece, rfl⟩ := List.mem_map.1 hw
  rw [String.toList_ofList]
  exact ⟨h.isLexeme piece hpiece, hrange piece hpiece⟩

end Lexeme

open Lexeme

/-- Lexemes that are written with single blanks between them are made into tokens of their kinds
    with these lexemes, each of which covers its own bytes in the text. The tokens of any text that
    are written in this way are made into tokens with the same kinds and lexemes again. -/
theorem tokenize_spaced (name phase : String) :
    (∀ ws : List (Kind × String), (∀ w ∈ ws, IsLexeme w.1 w.2.toList) →
      (∀ w ∈ ws, w.1 = .number → Number.valueOf w.2.toList ≤ 0x7fffffffffffffff) →
      ∃ ts, tokenize ⟨⟨name, " ".intercalate (ws.map Prod.snd)⟩, phase⟩ = .ok ts ∧
        ts.map (fun t => (t.id, t.lexeme)) = ws.map (fun w => (w.1.id, w.2)) ∧
        ∀ (i : Nat) (t : Token), ts[i]? = some t →
          t.span.start = ((ws.take i).map fun w => w.2.utf8ByteSize + 1).sum ∧
          t.span.stop = t.span.start + t.lexeme.utf8ByteSize) ∧
    ∀ (o : Origin) (ts : List Token), tokenize o = .ok ts →
      ∃ us, tokenize ⟨⟨name, " ".intercalate (ts.map Token.lexeme)⟩, phase⟩ = .ok us ∧
        us.map (fun t => (t.id, t.lexeme)) = ts.map fun t => (t.id, t.lexeme) := by
  constructor
  · intro ws hws hrange
    refine ⟨_, tokenize_eq_ok_iff.2 (readTokens_spaced hws hrange), ?_, fun i t ht => ?_⟩
    · rw [map_toTokens, lexemes_spaced]
    · rw [getElem?_toTokens] at ht
      obtain ⟨piece, hpiece, rfl⟩ := Option.map_eq_some_iff.1 ht
      rw [span_toToken, Position.offset_advance, byteSize_before_spaced hpiece, toToken]
      exact ⟨by simp [Position.start, byteSize], rfl⟩
  · intro o ts hts
    obtain ⟨pieces, last, hpieces, hrange, rfl⟩ := readTokens_eq_ok_iff.1 (tokenize_eq_ok_iff.1 hts)
    have hws := hpieces.forall_lexemes hrange
    have htokens := readTokens_spaced (fun w hw => (hws w hw).1) fun w hw => (hws w hw).2
    rw [← map_lexeme_toTokens .start] at htokens
    refine ⟨_, tokenize_eq_ok_iff.2 htokens, ?_⟩
    rw [map_toTokens, map_toTokens, lexemes_spaced]

/-- A name may start with a keyword or have digits in it, and a number may start with zeros. Without
    blanks between them, some of these lexemes would run into each other. -/
theorem tokenize_spaced_keywords :
    let ws : List (Kind × String) := [(.identifier, "define"), (.definition, "def"),
      (.number, "007"), (.identifier, "_1"), (.shiftLeft, "<<"), (.number, "9223372036854775807")]
    (∃ ts, tokenize ⟨⟨"a", "define def 007 _1 << 9223372036854775807"⟩, "lex"⟩ = .ok ts ∧
      ts.map (fun t => (t.id, t.lexeme)) = ws.map (fun w => (w.1.id, w.2)) ∧
      ∀ t, ts[3]? = some t → t.span.start = 15) ∧
    ∃ ts us, tokenize ⟨⟨"b", "f(x)# é\n<<1"⟩, "lex"⟩ = .ok ts ∧
      tokenize ⟨⟨"a", "f ( x ) << 1"⟩, "lex"⟩ = .ok us ∧
      us.map (fun t => (t.id, t.lexeme)) = ts.map fun t => (t.id, t.lexeme) := by
  intro ws
  obtain ⟨hspaced, hagain⟩ := tokenize_spaced "a" "lex"
  constructor
  · have hsplit : ∀ w ∈ ws, split? w.2.toList = some (w.1, w.2.toList, []) := by decide
    have hrange : ∀ w ∈ ws, w.1 = .number → Number.valueOf w.2.toList ≤ 0x7fffffffffffffff := by
      decide
    obtain ⟨ts, hts, hlexemes, hspans⟩ :=
      hspaced ws (fun w hw => (split?_eq_some_iff.1 (hsplit w hw)).2.1) hrange
    exact ⟨ts, hts, hlexemes, fun t ht => (hspans 3 t ht).1⟩
  · obtain ⟨ts, hts, hlexemes⟩ : ∃ ts, tokenize ⟨⟨"b", "f(x)# é\n<<1"⟩, "lex"⟩ = .ok ts ∧
        ts.map Token.lexeme = ["f", "(", "x", ")", "<<", "1"] := ⟨_, by cbv, by cbv⟩
    obtain ⟨us, hus, hsame⟩ := hagain _ ts hts
    rw [hlexemes] at hus
    exact ⟨ts, us, hts, hus, hsame⟩

end Frontend
