import Frontend.Proofs.List
import Frontend.Proofs.Token.Lines
import Frontend.Proofs.Token.Slice

/-!
# Lines and columns

A place in a text has an offset, in bytes, and a line and a column, which count characters. The line
is told by the line feeds before the place, and the column by the characters behind the last of them
(`afterLast`). Of two places in the same line, the one that is further on has as many columns more
as there are characters between them, so a place is known from its line and its column, too
(`eq_of_line_column_eq`).

The tokens of a text are at the lines and columns of the places at which they start
(`Token.StandsBehind`). A lexeme lies within one line, so it takes as many columns as it has
characters, and the tokens of a line stand one after the other in it (`tokenize_locations`).
-/

namespace Frontend

open Text

section

variable {cs ds text : List Char}

/-- The column counts the characters behind the last line feed. -/
theorem Position.column_advance (cs : List Char) :
    (start.advance cs).column = 1 + (afterLast '\n' cs).length := by
  induction cs using List.reverseRecOn with
  | nil => rfl
  | append_singleton cs c ih =>
    have hstep : start.advance (cs ++ [c]) = (start.advance cs).next c :=
      advance_append start cs [c]
    rw [hstep, next]
    split
    · next hc =>
      rw [hc, afterLast_append_self]
      rfl
    · next hc =>
      have hline : '\n' ∉ [c] := mt List.mem_singleton.1 (Ne.symm hc)
      rw [afterLast_append hline, List.length_append, ih]
      rfl

/-- A place in a text is known from its line and its column. -/
theorem eq_of_line_column_eq (h : cs <+: text) (h' : ds <+: text)
    (hline : cs.count '\n' = ds.count '\n')
    (hcolumn : (afterLast '\n' cs).length = (afterLast '\n' ds).length) : cs = ds := by
  have hplace {cs ds : List Char} (h : cs <+: ds) (hline : cs.count '\n' = ds.count '\n')
      (hcolumn : (afterLast '\n' cs).length = (afterLast '\n' ds).length) : cs = ds := by
    obtain ⟨es, rfl⟩ := h
    rw [List.count_append] at hline
    have hes : '\n' ∉ es := List.count_eq_zero.1 (by omega)
    rw [afterLast_append hes, List.length_append] at hcolumn
    rw [List.length_eq_zero_iff.1 (by omega : es.length = 0), List.append_nil]
  rcases List.prefix_or_prefix_of_prefix h h' with hle | hle
  · exact hplace hle hline hcolumn
  · exact (hplace hle hline.symm hcolumn.symm).symm

end

/-! ## Tokens -/

/-- The token starts behind some characters, at the line and the column to which they lead. -/
structure Token.StandsBehind (t : Token) (before : List Char) : Prop where
  start_eq : t.span.start = byteSize before
  stop_eq : t.span.stop = byteSize (before ++ t.lexeme.toList)
  line_eq : t.location.line = 1 + before.count '\n'
  beginColumn_eq : t.location.beginColumn = 1 + (afterLast '\n' before).length
  endColumn_eq : t.location.endColumn + 1 = t.location.beginColumn + t.lexeme.length
  length_pos : 0 < t.lexeme.length
  not_mem_line : '\n' ∉ t.lexeme.toList

namespace Token.StandsBehind

variable {t u : Token} {cs ds : List Char}

theorem beginColumn_le (h : t.StandsBehind cs) : t.location.beginColumn ≤ t.location.endColumn := by
  have hend := h.endColumn_eq
  have hlength := h.length_pos
  omega

/-- A token that starts where another one has ended is further down, or further to the right in the
    same line. -/
theorem before (ht : t.StandsBehind cs) (hu : u.StandsBehind ds)
    (h : cs ++ t.lexeme.toList <+: ds) :
    t.location.line < u.location.line ∨
      t.location.line = u.location.line ∧ t.location.endColumn < u.location.beginColumn := by
  obtain ⟨es, rfl⟩ := h
  have hlexeme : t.lexeme.toList.count '\n' = 0 := List.count_eq_zero.2 ht.not_mem_line
  have hline := hu.line_eq
  rw [List.count_append, List.count_append, hlexeme] at hline
  have htline := ht.line_eq
  rcases Nat.eq_zero_or_pos (es.count '\n') with hes | hes
  · have hcolumn := hu.beginColumn_eq
    rw [afterLast_append (List.count_eq_zero.1 hes), afterLast_append ht.not_mem_line] at hcolumn
    simp only [List.length_append, String.length_toList] at hcolumn
    have htcolumn := ht.beginColumn_eq
    have htend := ht.endColumn_eq
    omega
  · omega

end Token.StandsBehind

namespace Lexeme

variable {cs text : List Char} {k : Kind}

theorem standsBehind_toToken (cs : List Char) (h : IsLexeme k text) :
    (toToken (Position.start.advance cs) k text).StandsBehind cs := by
  have hoffset : (Position.start.advance cs).offset = byteSize cs := by
    rw [Position.offset_advance]
    exact Nat.zero_add _
  have hlength := List.length_pos_iff.2 h.ne_nil
  constructor
  · exact hoffset
  · rw [span_toToken, hoffset, toToken, String.toList_ofList, byteSize_append]
  · exact Position.line_advance _ _
  · exact Position.column_advance cs
  · simp only [toToken, String.length_ofList]
    omega
  · rwa [toToken, String.length_ofList]
  · rw [toToken, String.toList_ofList]
    exact h.not_mem_line

end Lexeme

open Lexeme

variable {text : String} {ts : List Token} {t : Token}

/-- Every token of a text is at the place behind some beginning of the text. -/
theorem exists_standsBehind (h : readTokens text = .ok ts) (ht : t ∈ ts) :
    ∃ cs, cs ++ t.lexeme.toList <+: text.toList ∧ t.StandsBehind cs := by
  obtain ⟨pieces, last, hpieces, -, rfl⟩ := readTokens_eq_ok_iff.1 h
  obtain ⟨ps, piece, qs, rfl, rfl⟩ := exists_of_mem_toTokens ht
  refine ⟨textOf ps ++ piece.gap, ?_, standsBehind_toToken _ (hpieces.isLexeme piece (by simp))⟩
  rw [toToken, String.toList_ofList, hpieces.text_eq]
  exact (textOf_append_isPrefix ps piece qs).trans (List.prefix_append _ last)

/-- The tokens of a text go down, and to the right within a line. -/
theorem pairwise_location (h : readTokens text = .ok ts) :
    ts.Pairwise fun t u => t.location.line < u.location.line ∨
      t.location.line = u.location.line ∧ t.location.endColumn < u.location.beginColumn := by
  refine (inOrder_of_readTokens h).pairwise.imp_of_mem fun {t u} ht hu hle => ?_
  obtain ⟨cs, hcs, ht⟩ := exists_standsBehind h ht
  obtain ⟨ds, hds, hu⟩ := exists_standsBehind h hu
  rw [ht.stop_eq, hu.start_eq] at hle
  exact ht.before hu (prefix_of_byteSize_le hcs ((List.prefix_append ds _).trans hds) hle)

/-- The line of a token is told by the line feeds before it, and its first column by the characters
    from the last of them, or from the beginning of the text, up to it; it takes a column for each
    character of its lexeme. No other place in the text has this line and this column. The tokens
    are in the order of their lines and columns, and two of them in the same line have no column in
    common. -/
theorem tokenize_locations (o : Origin) (ts : List Token) (h : tokenize o = .ok ts) :
    (∀ t ∈ ts, ∃ before after, o.source.content = before ++ t.lexeme ++ after ∧
      t.span.start = before.utf8ByteSize ∧
      t.location.line = 1 + before.toList.count '\n' ∧
      t.location.beginColumn = 1 + (afterLast '\n' before.toList).length ∧
      t.location.endColumn = t.location.beginColumn + t.lexeme.length - 1) ∧
    (∀ t ∈ ts, ∀ before after, o.source.content = before ++ after →
      t.location.line = 1 + before.toList.count '\n' →
      t.location.beginColumn = 1 + (afterLast '\n' before.toList).length →
      t.span.start = before.utf8ByteSize) ∧
    (ts.Pairwise fun t u => t.location.line < u.location.line ∨
      t.location.line = u.location.line ∧ t.location.beginColumn < u.location.beginColumn) ∧
    ts.Pairwise fun t u =>
      t.location.line = u.location.line → t.location.endColumn < u.location.beginColumn := by
  have htokens := tokenize_eq_ok_iff.1 h
  refine ⟨fun t ht => ?_, fun t ht before after htext hline hcolumn => ?_, ?_, ?_⟩
  · obtain ⟨cs, ⟨ds, hcs⟩, hplace⟩ := exists_standsBehind htokens ht
    refine ⟨String.ofList cs, String.ofList ds, ?_, hplace.start_eq, ?_, ?_, ?_⟩
    · rw [← String.toList_inj, ← hcs]
      simp
    · rw [String.toList_ofList, hplace.line_eq]
    · rw [String.toList_ofList, hplace.beginColumn_eq]
    · rw [← hplace.endColumn_eq, Nat.add_sub_cancel]
  · obtain ⟨cs, hcs, hplace⟩ := exists_standsBehind htokens ht
    have hbefore : before.toList <+: o.source.content.toList := ⟨after.toList, by simp [htext]⟩
    rw [hplace.line_eq, Nat.add_left_cancel_iff] at hline
    rw [hplace.beginColumn_eq, Nat.add_left_cancel_iff] at hcolumn
    have heq := eq_of_line_column_eq ((List.prefix_append cs _).trans hcs) hbefore hline hcolumn
    rw [hplace.start_eq, heq, byteSize_toList]
  · refine (pairwise_location htokens).imp_of_mem fun {t u} ht _ hlocation => ?_
    obtain ⟨cs, -, hplace⟩ := exists_standsBehind htokens ht
    have := hplace.beginColumn_le
    omega
  · exact (pairwise_location htokens).imp fun hlocation hline => by omega

/-- A letter of two bytes is one column, a line may end with a carriage return before its line feed,
    and a carriage return alone is a column of its line. -/
theorem tokenize_locations_columns :
    let o : Origin := ⟨⟨"a", "# é\r\n\rab = 1 # x\nc"⟩, "lex"⟩
    ∃ ts, tokenize o = .ok ts ∧
      ts.map Token.location = [⟨2, 2, 3⟩, ⟨2, 5, 5⟩, ⟨2, 7, 7⟩, ⟨3, 1, 1⟩] ∧
      ts.map (fun t => t.span.start) = [7, 10, 12, 18] ∧
      (∀ t ∈ ts, ∃ before after, o.source.content = before ++ t.lexeme ++ after ∧
        t.span.start = before.utf8ByteSize ∧ t.location.line = 1 + before.toList.count '\n') ∧
      ts.Pairwise fun t u =>
        t.location.line = u.location.line → t.location.endColumn < u.location.beginColumn := by
  intro o
  obtain ⟨ts, hts, hlocations, hstarts⟩ : ∃ ts, tokenize o = .ok ts ∧
      ts.map Token.location = [⟨2, 2, 3⟩, ⟨2, 5, 5⟩, ⟨2, 7, 7⟩, ⟨3, 1, 1⟩] ∧
      ts.map (fun t => t.span.start) = [7, 10, 12, 18] := ⟨_, by cbv, by cbv, by cbv⟩
  obtain ⟨hplaces, -, -, hcolumns⟩ := tokenize_locations o ts hts
  refine ⟨ts, hts, hlocations, hstarts, fun t ht => ?_, hcolumns⟩
  obtain ⟨before, after, htext, hstart, hline, -⟩ := hplaces t ht
  exact ⟨before, after, htext, hstart, hline⟩

end Frontend
