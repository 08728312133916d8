import Frontend.Proofs.Token.Joining
import Mathlib

/-!
# Texts taken apart at a line feed

A line feed stands in no lexeme, so in a text that is made of lexemes and gaps it stands in a gap,
and each of the two parts of this gap is a gap again: a comment ends with the line feed at the
latest, and none reaches over it. So the text before a line feed and the text after it are made of
lexemes and gaps, too (`Decomposes.split_line`).

Together with the tokens of two texts that are put together (`readTokens_append_line`), this says
that a text can be made into tokens line by line (`tokenize_append_line`).
-/

namespace Frontend

namespace Lexeme

variable {cs ds gap gap' text rest last : List Char} {k : Kind} {pieces : List Piece}

/-! ## Where a line feed stands -/

theorem IsLexeme.not_mem_line (h : IsLexeme k text) : '\n' ∉ text := by
  have hword {c : Char} (hc : c.isAlphanum ∨ c = '_') : '\n' ≠ c := by
    rintro rfl
    exact absurd hc (by decide)
  cases h with
  | @spelled k s hs => cases k <;> cases hs <;> decide
  | identifier hc hcs _ =>
    refine List.not_mem_cons_of_ne_of_not_mem (hword (hc.imp_left fun hc => ?_)) fun hmem => ?_
    · rw [Char.isAlphanum, hc, Bool.true_or]
    · exact hword (hcs _ hmem) rfl
  | number _ hdigits => exact fun hmem => absurd (hdigits _ hmem) (by decide)

/-- A character behind some others in a text that is made of two stands in the first of them, or
    in the second one. -/
theorem append_eq_append_cons {c : Char} (h : gap ++ rest = cs ++ c :: ds) :
    (∃ gap', gap = cs ++ c :: gap' ∧ ds = gap' ++ rest) ∨
      ∃ cs', cs = gap ++ cs' ∧ rest = cs' ++ c :: ds := by
  rcases List.append_eq_append_iff.1 h with ⟨cs', rfl, hrest⟩ | ⟨gap', rfl, hds⟩
  · exact .inr ⟨cs', rfl, hrest⟩
  · cases gap' with
    | nil => exact .inr ⟨[], by simp, hds.symm⟩
    | cons c' gap' =>
      obtain ⟨rfl, rfl⟩ := List.cons.inj hds
      exact .inl ⟨gap', rfl, rfl⟩

/-! ## Gaps and texts taken apart -/

/-- What stands before a line feed in a gap is a gap at the end of a text, and what stands behind
    it is a gap. -/
theorem IsGap.split_line (h : IsGap rest (gap ++ '\n' :: gap')) :
    IsGap [] gap ∧ IsGap rest gap' := by
  generalize heq : gap ++ '\n' :: gap' = whole at h
  induction h generalizing gap with
  | nil => simp at heq
  | @blank c whole hc hwhole ih =>
    cases gap with
    | nil =>
      obtain ⟨rfl, rfl⟩ := List.cons.inj heq
      exact ⟨.nil, hwhole⟩
    | cons d gap =>
      obtain ⟨rfl, hrest⟩ := List.cons.inj heq
      obtain ⟨hgap, hgap'⟩ := ih hrest
      exact ⟨.blank hc hgap, hgap'⟩
  | @comment text whole htext hnext hwhole ih =>
    cases gap with
    | nil => exact absurd (List.cons.inj heq).1 (by decide)
    | cons d gap =>
      obtain ⟨rfl, hrest⟩ := List.cons.inj heq
      rcases append_eq_append_cons hrest.symm with ⟨text', rfl, -⟩ | ⟨gap, rfl, rfl⟩
      · -- The line feed would stand in the comment.
        exact absurd (htext '\n' (by simp)) (by decide)
      · obtain ⟨hgap, hgap'⟩ := ih rfl
        refine ⟨.comment htext (fun c hc => hnext c ?_) hgap, hgap'⟩
        cases gap with
        | nil => exact absurd hc (Option.not_mem_none c)
        | cons d gap => exact hc

/-- The two parts of a text that is made of lexemes and gaps, before a line feed and after it. -/
theorem Decomposes.split_line (h : Decomposes (cs ++ '\n' :: ds) pieces last) :
    (∃ pieces last, Decomposes cs pieces last) ∧ ∃ pieces last, Decomposes ds pieces last := by
  generalize heq : cs ++ '\n' :: ds = whole at h
  induction h generalizing cs with
  | last hgap =>
    subst heq
    obtain ⟨hgap, hgap'⟩ := hgap.split_line
    exact ⟨⟨_, _, .last hgap⟩, _, _, .last hgap'⟩
  | piece hgap hlexeme hends h ih =>
    rcases append_eq_append_cons heq.symm with ⟨gap', rfl, rfl⟩ | ⟨cs', rfl, hrest⟩
    · obtain ⟨hgap, hgap'⟩ := hgap.split_line
      exact ⟨⟨_, _, .last hgap⟩, _, _, .piece hgap' hlexeme hends h⟩
    · rcases append_eq_append_cons hrest with ⟨text', rfl, -⟩ | ⟨cs', rfl, rfl⟩
      · exact absurd (by simp) hlexeme.not_mem_line
      · obtain ⟨⟨pieces, last, hbefore⟩, hafter⟩ := ih rfl
        exact ⟨⟨_, _, .piece (hlexeme.isGap hgap) hlexeme hends.of_append hbefore⟩, hafter⟩

end Lexeme

open Lexeme

/-- If two texts with a line feed between them are made into tokens, each of them is. -/
theorem exists_readTokens_of_append_line {a b : String} {ts : List Token}
    (h : readTokens (a ++ "\n" ++ b) = .ok ts) :
    (∃ us, readTokens a = .ok us) ∧ ∃ vs, readTokens b = .ok vs := by
  obtain ⟨pieces, last, hpieces, hrange, -⟩ := readTokens_eq_ok_iff.1 h
  have htext : (a ++ "\n" ++ b).toList = a.toList ++ '\n' :: b.toList := by simp
  rw [htext] at hpieces
  obtain ⟨⟨ps, gap, hps⟩, qs, gap', hqs⟩ := hpieces.split_line
  -- There is only one way to take the whole text apart, so its lexemes are those of the two.
  obtain ⟨last', hwhole⟩ := hps.exists_append_line hqs
  obtain rfl := congrArg Reading.pieces (hpieces.read_eq.symm.trans hwhole.read_eq)
  obtain ⟨hrange, hrange'⟩ := List.forall_mem_append.1 hrange
  exact ⟨⟨_, readTokens_eq_ok_iff.2 ⟨ps, gap, hps, hrange, rfl⟩⟩,
    _, readTokens_eq_ok_iff.2 ⟨qs, gap', hqs, inRange_afterGap_iff.1 hrange', rfl⟩⟩

/-- Two texts with a line feed between them are made into tokens exactly if each of them is. The
    tokens are those of the first text and those of the second one, which stand as many bytes and
    lines further on as the first text and the line feed take, in the same columns. -/
theorem tokenize_append_line (a b : Origin) (name phase : String) :
    let o : Origin := ⟨⟨name, a.source.content ++ "\n" ++ b.source.content⟩, phase⟩
    ((∃ ts, tokenize o = .ok ts) ↔
      (∃ us, tokenize a = .ok us) ∧ ∃ vs, tokenize b = .ok vs) ∧
    ∀ us vs, tokenize a = .ok us → tokenize b = .ok vs →
      tokenize o = .ok (us ++ vs.map (Token.move (a.source.content.utf8ByteSize + 1)
        (a.source.content.toList.count '\n' + 1))) := by
  intro o
  simp only [tokenize_eq_ok_iff]
  refine ⟨⟨?_, ?_⟩, fun us vs => readTokens_append_line⟩
  · rintro ⟨ts, h⟩
    exact exists_readTokens_of_append_line h
  · rintro ⟨⟨us, hus⟩, vs, hvs⟩
    exact ⟨_, readTokens_append_line hus hvs⟩

/-- The line feed ends a comment with an `é` of two bytes, and what could have been `==` is not read
    over it. -/
theorem tokenize_append_line_comment :
    let a : Origin := ⟨⟨"a", "x = # é"⟩, "lex"⟩
    let b : Origin := ⟨⟨"b", "= 1"⟩, "lex"⟩
    ∃ us vs, tokenize a = .ok us ∧ tokenize b = .ok vs ∧
      us.map Token.lexeme = ["x", "="] ∧ vs.map Token.lexeme = ["=", "1"] ∧
      tokenize ⟨⟨"c", "x = # é\n= 1"⟩, "lex"⟩ = .ok (us ++ vs.map (Token.move 9 1)) := by
  intro a b
  obtain ⟨us, hus, hlexemes⟩ :
      ∃ us, tokenize a = .ok us ∧ us.map Token.lexeme = ["x", "="] := ⟨_, by cbv, by cbv⟩
  obtain ⟨vs, hvs, hlexemes'⟩ :
      ∃ vs, tokenize b = .ok vs ∧ vs.map Token.lexeme = ["=", "1"] := ⟨_, by cbv, by cbv⟩
  have hcontent : a.source.content ++ "\n" ++ b.source.content = "x = # é\n= 1" := by cbv
  have hoffset : a.source.content.utf8ByteSize + 1 = 9 := by cbv
  have hlines : a.source.content.toList.count '\n' + 1 = 1 := by cbv
  have htokens := (tokenize_append_line a b "c" "lex").2 us vs hus hvs
  rw [hcontent, hoffset, hlines] at htokens
  exact ⟨us, vs, hus, hvs, hlexemes, hlexemes', htokens⟩

end Frontend
