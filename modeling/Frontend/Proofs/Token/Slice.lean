import Frontend.Proofs.Token.Joining
import Mathlib.Data.List.Basic
import Mathlib.Data.List.Forall2

/-!
# Slices of a text

A span *covers* a part of a text if it reaches from the first byte of this part to just past its
last one, so that both ends of the span are ends of characters (`Span.Covers`). The part is known
from the span, and two spans that cover something are joined to one that does.

The tokens of a text stand one after the other (`InOrder`), and each of them covers its lexeme. A
run of tokens reaches from the first of them to the last one (`extent`), and a text may be cut at
both ends of any run: the slice between them is made into the tokens of the run, which only stand
elsewhere in it (`exists_slice`).
-/

namespace Frontend

open Text

/-! ## Parts of a text -/

namespace Span

/-- The span covers `part` where it stands in the text. -/
def Covers (s : Span) (text part : String) : Prop :=
  ∃ before after, text = before ++ part ++ after ∧
    s = ⟨before.utf8ByteSize, before.utf8ByteSize + part.utf8ByteSize⟩

end Span

section

variable {cs ds text : List Char}

theorem eq_nil_of_byteSize_eq_zero (h : byteSize cs = 0) : cs = [] := by
  cases cs with
  | nil => rfl
  | cons c cs =>
    have := c.utf8Size_pos
    rw [byteSize_cons] at h
    omega

/-- Of two beginnings of a text, the one with fewer bytes is a beginning of the other. -/
theorem prefix_of_byteSize_le (h : cs <+: text) (h' : ds <+: text)
    (hle : byteSize cs ≤ byteSize ds) :
    cs <+: ds := by
  rcases List.prefix_or_prefix_of_prefix h h' with hcs | ⟨es, rfl⟩
  · exact hcs
  · rw [byteSize_append] at hle
    have hes : byteSize es = 0 := by omega
    obtain rfl := eq_nil_of_byteSize_eq_zero hes
    simp

/-- A beginning of a text is known from the number of its bytes. -/
theorem eq_of_byteSize_eq (h : cs <+: text) (h' : ds <+: text) (heq : byteSize cs = byteSize ds) :
    cs = ds := by
  obtain ⟨es, rfl⟩ := prefix_of_byteSize_le h h' (Nat.le_of_eq heq)
  rw [byteSize_append] at heq
  have hes : byteSize es = 0 := by omega
  obtain rfl := eq_nil_of_byteSize_eq_zero hes
  rw [List.append_nil]

end

namespace Span

variable {s s' : Span} {text part part' : String}

/-- A span that covers something reaches from the end of one beginning of the text to the end of
    another. -/
theorem covers_iff : s.Covers text part ↔ ∃ cs, cs ++ part.toList <+: text.toList ∧
    s = ⟨byteSize cs, byteSize (cs ++ part.toList)⟩ := by
  simp only [byteSize_append, byteSize_toList]
  constructor
  · rintro ⟨before, after, rfl, rfl⟩
    exact ⟨before.toList, ⟨after.toList, by simp⟩, by rw [byteSize_toList]⟩
  · rintro ⟨cs, ⟨ds, heq⟩, rfl⟩
    refine ⟨String.ofList cs, String.ofList ds, ?_, rfl⟩
    rw [← String.toList_inj]
    simpa using heq.symm

/-- What a span covers is known. -/
theorem Covers.unique (h : s.Covers text part) (h' : s.Covers text part') : part = part' := by
  obtain ⟨cs, hpart, rfl⟩ := covers_iff.1 h
  obtain ⟨ds, hpart', heq⟩ := covers_iff.1 h'
  obtain ⟨hstart, hstop⟩ := Span.mk.inj heq
  have hcs := (List.prefix_append cs part.toList).trans hpart
  have hds := (List.prefix_append ds part'.toList).trans hpart'
  obtain rfl := eq_of_byteSize_eq hcs hds hstart
  exact String.toList_inj.1 (List.append_cancel_left (eq_of_byteSize_eq hpart hpart' hstop))

/-- The empty span behind a part of the text covers nothing. -/
theorem Covers.stop (h : s.Covers text part) : (empty s.stop).Covers text "" := by
  obtain ⟨before, after, rfl, rfl⟩ := h
  exact ⟨before ++ part, after, by simp, by simp [empty]⟩

/-- A span covers something if it reaches from one boundary between characters to another one, and
    not backwards. -/
theorem exists_covers_iff : (∃ part, s.Covers text part) ↔ s.start ≤ s.stop ∧
    ∃ cs ds, cs <+: text.toList ∧ ds <+: text.toList ∧ s = ⟨byteSize cs, byteSize ds⟩ := by
  constructor
  · rintro ⟨part, h⟩
    obtain ⟨cs, hpart, rfl⟩ := covers_iff.1 h
    refine ⟨?_, cs, _, (List.prefix_append cs part.toList).trans hpart, hpart, rfl⟩
    rw [byteSize_append]
    exact Nat.le_add_right _ _
  · rintro ⟨hle, cs, ds, hcs, hds, rfl⟩
    obtain ⟨es, rfl⟩ := prefix_of_byteSize_le hcs hds hle
    exact ⟨String.ofList es, covers_iff.2 ⟨cs, by simpa using hds, by simp⟩⟩

/-- The span that joins two others covers something if they do. -/
theorem Covers.join (h : s.Covers text part) (h' : s'.Covers text part') :
    ∃ part'', (s.join s').Covers text part'' := by
  obtain ⟨hle, cs, ds, hcs, hds, rfl⟩ := exists_covers_iff.1 ⟨_, h⟩
  obtain ⟨hle', cs', ds', hcs', hds', rfl⟩ := exists_covers_iff.1 ⟨_, h'⟩
  obtain ⟨es, hes, hstart⟩ : ∃ es, es <+: text.toList ∧
      byteSize es = min (byteSize cs) (byteSize cs') := by
    rcases Nat.le_total (byteSize cs) (byteSize cs') with hmin | hmin
    · exact ⟨cs, hcs, (Nat.min_eq_left hmin).symm⟩
    · exact ⟨cs', hcs', (Nat.min_eq_right hmin).symm⟩
  obtain ⟨fs, hfs, hstop⟩ : ∃ fs, fs <+: text.toList ∧
      byteSize fs = max (byteSize ds) (byteSize ds') := by
    rcases Nat.le_total (byteSize ds) (byteSize ds') with hmax | hmax
    · exact ⟨ds', hds', (Nat.max_eq_right hmax).symm⟩
    · exact ⟨ds, hds, (Nat.max_eq_left hmax).symm⟩
  refine exists_covers_iff.2 ⟨?_, es, fs, hes, hfs, by rw [hstart, hstop]; rfl⟩
  exact Nat.le_trans (Nat.min_le_left _ _) (Nat.le_trans hle (Nat.le_max_left _ _))

end Span

/-! ## Tokens in order -/

/-- The tokens stand one after the other. -/
structure InOrder (ts : List Token) : Prop where
  start_le_stop : ∀ t ∈ ts, t.span.start ≤ t.span.stop
  pairwise : ts.Pairwise fun t u => t.span.stop ≤ u.span.start

/-- The bytes from the first token of a run to the last one. -/
def extent (ts : List Token) : Span :=
  ⟨(ts.head?.map fun t => t.span.start).getD 0, (ts.getLast?.map fun t => t.span.stop).getD 0⟩

section

variable {ts us vs : List Token}

theorem extent_singleton (t : Token) : extent [t] = t.span := rfl

theorem start_extent_append (h : ts ≠ []) : (extent (ts ++ us)).start = (extent ts).start := by
  simp only [extent, List.head?_append_of_ne_nil _ h]

theorem stop_extent_append (h : us ≠ []) : (extent (ts ++ us)).stop = (extent us).stop := by
  simp only [extent, List.getLast?_append_of_ne_nil _ h]

namespace InOrder

theorem of_isInfix (h : InOrder ts) (hus : us <:+: ts) : InOrder us :=
  ⟨fun t ht => h.start_le_stop t (hus.subset ht), h.pairwise.sublist hus.sublist⟩

theorem start_extent_le (h : InOrder ts) {t : Token} (ht : t ∈ ts) :
    (extent ts).start ≤ t.span.start := by
  cases ts with
  | nil => exact absurd ht List.not_mem_nil
  | cons u ts =>
    obtain ⟨hfirst, -⟩ := List.pairwise_cons.1 h.pairwise
    rcases List.mem_cons.1 ht with rfl | ht
    · exact Nat.le_refl _
    · exact Nat.le_trans (h.start_le_stop u List.mem_cons_self) (hfirst t ht)

theorem le_stop_extent (h : InOrder ts) {t : Token} (ht : t ∈ ts) :
    t.span.stop ≤ (extent ts).stop := by
  rcases List.eq_nil_or_concat' ts with rfl | ⟨us, u, rfl⟩
  · exact absurd ht List.not_mem_nil
  · rw [stop_extent_append (List.cons_ne_nil u []), extent_singleton]
    obtain ⟨-, -, hlast⟩ := List.pairwise_append.1 h.pairwise
    rcases List.mem_append.1 ht with ht | ht
    · have hu : u ∈ [u] := List.mem_singleton_self u
      exact Nat.le_trans (hlast t ht u hu) (h.start_le_stop u (List.mem_append_right us hu))
    · obtain rfl := List.mem_singleton.1 ht
      exact Nat.le_refl _

/-- A run inside another one does not reach over it. -/
theorem extent_le (h : InOrder ts) (hus : us <:+: ts) (hne : us ≠ []) :
    (extent ts).start ≤ (extent us).start ∧ (extent us).stop ≤ (extent ts).stop := by
  constructor
  · obtain ⟨t, us, rfl⟩ := List.exists_cons_of_ne_nil hne
    exact h.start_extent_le (hus.subset List.mem_cons_self)
  · obtain ⟨us, t, rfl⟩ := (List.eq_nil_or_concat' us).resolve_left hne
    rw [stop_extent_append (List.cons_ne_nil t [])]
    exact h.le_stop_extent (hus.subset (by simp))

/-- A run ends before any that comes after it starts. -/
theorem extent_before (h : InOrder (ts ++ us)) (hvs : vs <:+: us) (hts : ts ≠ [])
    (hne : vs ≠ []) : (extent ts).stop ≤ (extent vs).start := by
  obtain ⟨ts, t, rfl⟩ := (List.eq_nil_or_concat' ts).resolve_left hts
  obtain ⟨v, vs, rfl⟩ := List.exists_cons_of_ne_nil hne
  rw [stop_extent_append (List.cons_ne_nil t [])]
  have hv : v ∈ us := hvs.subset List.mem_cons_self
  exact (List.pairwise_append.1 h.pairwise).2.2 t (by simp) v hv

/-- A run reaches as far as its beginning and its end do together. -/
theorem join_extent (ts vs us : List Token) (h : InOrder (ts ++ (vs ++ us))) (hts : ts ≠ [])
    (hus : us ≠ []) : (extent ts).join (extent us) = extent (ts ++ (vs ++ us)) := by
  have hstart : (extent (ts ++ (vs ++ us))).start = (extent ts).start := start_extent_append hts
  have hstop : (extent (ts ++ (vs ++ us))).stop = (extent us).stop := by
    rw [stop_extent_append (List.append_ne_nil_of_right_ne_nil vs hus), stop_extent_append hus]
  have hfirst := (h.extent_le (List.prefix_append ts _).isInfix hts).2
  have hlast := (h.extent_le ⟨ts ++ vs, [], by simp⟩ hus).1
  rw [hstop] at hfirst
  rw [hstart] at hlast
  rw [Span.join, Nat.min_eq_left hlast, Nat.max_eq_right hfirst, ← hstart, ← hstop]

end InOrder

end

/-- The second token is the first one, so many bytes further on. -/
structure Token.Moved (offset : Nat) (t u : Token) : Prop where
  id_eq : u.id = t.id
  lexeme_eq : u.lexeme = t.lexeme
  span_eq : u.span = t.span.shift offset

theorem Token.Moved.is_iff {offset : Nat} {t u : Token} (h : t.Moved offset u) (k : Kind) :
    t.is k ↔ u.is k := by
  rw [Token.is_iff, Token.is_iff, h.id_eq]

section

variable {offset : Nat} {ts us vs : List Token} {u o c : Token}

theorem eq_singleton_of_moved (h : List.Forall₂ (Token.Moved offset) ts [u]) :
    ∃ t, ts = [t] ∧ t.Moved offset u := by
  obtain ⟨t, _, ht, hnil, rfl⟩ := List.forall₂_cons_right_iff.1 h
  obtain rfl := List.forall₂_nil_right_iff.1 hnil
  exact ⟨t, rfl, ht⟩

/-- Two runs with a token between them stand elsewhere as two runs with a token between them. -/
theorem eq_separated_of_moved (h : List.Forall₂ (Token.Moved offset) ts (us ++ u :: vs)) :
    ∃ us' t vs', ts = us' ++ t :: vs' ∧ List.Forall₂ (Token.Moved offset) us' us ∧
      t.Moved offset u ∧ List.Forall₂ (Token.Moved offset) vs' vs := by
  have happend := List.take_append_drop us.length ts
  obtain ⟨t, vs', ht, hvs, heq⟩ :=
    List.forall₂_cons_right_iff.1 (List.forall₂_drop_append ts us (u :: vs) h)
  exact ⟨_, t, vs', heq ▸ happend.symm, List.forall₂_take_append ts us (u :: vs) h, ht, hvs⟩

/-- A run between two tokens stands elsewhere as a run between two tokens. -/
theorem eq_enclosed_of_moved (h : List.Forall₂ (Token.Moved offset) ts (o :: (us ++ [c]))) :
    ∃ o' us' c', ts = o' :: (us' ++ [c']) ∧ o'.Moved offset o ∧
      List.Forall₂ (Token.Moved offset) us' us ∧ c'.Moved offset c := by
  obtain ⟨o', _, ho, htail, rfl⟩ := List.forall₂_cons_right_iff.1 h
  obtain ⟨us', c', vs, rfl, hus, hc, hnil⟩ := eq_separated_of_moved htail
  obtain rfl := List.forall₂_nil_right_iff.1 hnil
  exact ⟨o', us', c', rfl, ho, hus, hc⟩

end

/-! ## Cutting a text at tokens -/

namespace Lexeme

variable {cs gap text last : List Char} {p q : Position} {k : Kind} {piece : Piece}
  {pieces ps qs rs : List Piece} {t : Token} {ts us : List Token} {offset : Nat}

/-- The first pieces of a text make up a text without the gap behind them. -/
theorem Decomposes.take (h : Decomposes cs (ps ++ qs) last) : Decomposes (textOf ps) ps [] := by
  induction ps generalizing cs with
  | nil => exact .last .nil
  | cons piece ps ih =>
    cases h with
    | piece hgap hlexeme hends h =>
      replace h : Decomposes _ (ps ++ qs) last := h
      rw [h.text_eq, textOf_append, List.append_assoc] at hends
      rw [textOf_cons]
      exact .piece (hlexeme.isGap hgap) hlexeme hends.of_append (ih h)

/-- The last pieces of a text make up a text. -/
theorem Decomposes.drop (h : Decomposes cs (ps ++ qs) last) :
    Decomposes (textOf qs ++ last) qs last := by
  induction ps generalizing cs with
  | nil => exact h.text_eq ▸ h
  | cons piece ps ih =>
    cases h with
    | piece _ _ _ h => exact ih h

/-- The gap in front of the first lexeme can be left out. -/
theorem Decomposes.drop_gap (h : Decomposes cs (⟨gap, k, text⟩ :: pieces) last) :
    Decomposes (text ++ (textOf pieces ++ last)) (⟨[], k, text⟩ :: pieces) last := by
  cases h with
  | piece _ hlexeme hends h =>
    rw [← h.text_eq]
    exact .piece .nil hlexeme hends h

/-- A text that ends with a lexeme can be ended by a separator. -/
theorem Decomposes.append_separator (h : Decomposes cs pieces []) :
    Decomposes (cs ++ [';']) (pieces ++ [⟨[], .separator, [';']⟩]) [] := by
  generalize hlast : [] = last at h
  induction h with
  | last _ =>
    subst hlast
    have hseparator : IsLexeme .separator [';'] := .spelled (s := ";") rfl
    exact .piece .nil hseparator trivial (.last .nil)
  | @piece gap text rest last k pieces hgap hlexeme hends _ ih =>
    rw [List.append_assoc, List.append_assoc]
    exact .piece (hlexeme.isGap hgap) hlexeme
      (hends.append (Kind.endsBefore_cons (by decide) k)) (ih hlast)

/-- The tokens of the same pieces at two places in a text. -/
theorem toTokens_moved (h : q.offset = p.offset + offset) (pieces : List Piece) :
    List.Forall₂ (Token.Moved offset) (toTokens p pieces) (toTokens q pieces) := by
  have hadvance {p q : Position} (h : q.offset = p.offset + offset) (cs : List Char) :
      (q.advance cs).offset = (p.advance cs).offset + offset := by
    rw [Position.offset_advance, Position.offset_advance, h, Nat.add_right_comm]
  induction pieces generalizing p q with
  | nil => exact .nil
  | cons piece pieces ih =>
    have hgap := hadvance h piece.gap
    refine .cons ⟨rfl, rfl, ?_⟩ (ih (hadvance hgap piece.text))
    rw [span_toToken, span_toToken, Span.shift, hgap, Nat.add_right_comm]

/-- Where the tokens are divided, the pieces can be divided, too. -/
theorem toTokens_eq_append (h : toTokens p pieces = ts ++ us) :
    ∃ ps qs, pieces = ps ++ qs ∧ toTokens p ps = ts ∧
      toTokens (p.advance (textOf ps)) qs = us := by
  have happend := List.take_append_drop ts.length pieces
  have hlength := congrArg List.length h
  rw [← happend, toTokens_append] at h
  rw [length_toTokens, List.length_append] at hlength
  obtain ⟨hts, hus⟩ := List.append_inj h (by rw [length_toTokens, List.length_take]; omega)
  exact ⟨_, _, happend.symm, hts, hus⟩

theorem start_le_of_mem_toTokens (ht : t ∈ toTokens p pieces) :
    p.offset ≤ t.span.start ∧ t.span.start ≤ t.span.stop := by
  obtain ⟨i, piece, -, rfl⟩ := mem_toTokens_iff.1 ht
  rw [span_toToken, Position.offset_advance]
  exact ⟨Nat.le_add_right _ _, Nat.le_add_right _ _⟩

theorem inOrder_toTokens (p : Position) (pieces : List Piece) : InOrder (toTokens p pieces) := by
  refine ⟨fun t ht => (start_le_of_mem_toTokens ht).2, ?_⟩
  induction pieces generalizing p with
  | nil => exact .nil
  | cons piece pieces ih =>
    exact List.pairwise_cons.2 ⟨fun t ht => (start_le_of_mem_toTokens ht).1, ih _⟩

theorem stop_extent_toTokens (p : Position) (hne : pieces ≠ []) :
    (extent (toTokens p pieces)).stop = p.offset + byteSize (textOf pieces) := by
  obtain ⟨pieces, piece, rfl⟩ := (List.eq_nil_or_concat' pieces).resolve_left hne
  have hlast (q : Position) :
      toTokens q [piece] = [toToken (q.advance piece.gap) piece.kind piece.text] := rfl
  rw [toTokens_append, hlast, stop_extent_append (List.cons_ne_nil _ _), extent_singleton,
    span_toToken, ← Position.advance_append, Position.offset_advance, textOf_append, textOf_cons]
  simp only [byteSize_append, Nat.add_assoc]
  rfl

/-- Tokens that start with a lexeme reach as far as the text of their pieces. -/
theorem extent_toTokens (p : Position) (k : Kind) (text : List Char) (pieces : List Piece) :
    extent (toTokens p (⟨[], k, text⟩ :: pieces)) =
      ⟨p.offset, p.offset + byteSize (textOf (⟨[], k, text⟩ :: pieces))⟩ :=
  congrArg (Span.mk _) (stop_extent_toTokens p (List.cons_ne_nil _ _))

/-- A token is that of a piece, and stands behind the pieces before it and the gap. -/
theorem exists_of_mem_toTokens (ht : t ∈ toTokens p pieces) :
    ∃ ps piece qs, pieces = ps ++ piece :: qs ∧
      t = toToken (p.advance (textOf ps ++ piece.gap)) piece.kind piece.text := by
  obtain ⟨ts, us, heq⟩ := List.append_of_mem ht
  obtain ⟨ps, _ | ⟨piece, qs⟩, rfl, -, hqs⟩ := toTokens_eq_append heq
  · exact nomatch hqs
  · obtain ⟨rfl, -⟩ := List.cons.inj hqs
    exact ⟨ps, piece, qs, rfl, by rw [Position.advance_append]⟩

theorem textOf_append_isPrefix (ps : List Piece) (piece : Piece) (qs : List Piece) :
    textOf ps ++ piece.gap ++ piece.text <+: textOf (ps ++ piece :: qs) :=
  ⟨textOf qs, by simp only [textOf_append, textOf_cons, List.append_assoc]⟩

/-- A token covers its lexeme. -/
theorem covers_of_mem_toTokens {s : String} (htext : textOf pieces <+: s.toList)
    (ht : t ∈ toTokens .start pieces) : t.span.Covers s t.lexeme := by
  obtain ⟨ps, piece, qs, rfl, rfl⟩ := exists_of_mem_toTokens ht
  refine Span.covers_iff.2 ⟨textOf ps ++ piece.gap, ?_, ?_⟩
  · rw [toToken, String.toList_ofList]
    exact (textOf_append_isPrefix ps piece qs).trans htext
  · rw [span_toToken, Position.offset_advance, byteSize_append _ (String.toList _)]
    simp only [toToken, String.toList_ofList, Position.start, Nat.zero_add]

end Lexeme

open Lexeme

variable {text : String} {ts us vs : List Token}

/-- The characters of pieces whose numbers are in range are made into the tokens of the pieces, and
    so they are with a separator behind them. -/
theorem readTokens_textOf {pieces : List Piece} (h : Decomposes (textOf pieces) pieces [])
    (hrange : ∀ piece ∈ pieces, piece.kind = .number →
      Number.valueOf piece.text ≤ 0x7fffffffffffffff) :
    readTokens (String.ofList (textOf pieces)) = .ok (toTokens .start pieces) ∧
      ∃ t, t.is .separator ∧
        readTokens (String.ofList (textOf pieces) ++ ";") =
          .ok (toTokens .start pieces ++ [t]) := by
  refine ⟨readTokens_eq_ok_iff.2 ⟨pieces, [], by rwa [String.toList_ofList], hrange, rfl⟩,
    toToken (Position.start.advance (textOf pieces)) .separator [';'], rfl, ?_⟩
  refine readTokens_eq_ok_iff.2 ⟨_, [], by simpa using h.append_separator, ?_, ?_⟩
  · refine List.forall_mem_append.2 ⟨hrange, List.forall_mem_singleton.2 fun hkind => ?_⟩
    cases hkind
  · rw [toTokens_append]
    rfl

/-- Every run of the tokens of a text covers a slice of it, which is made into the same tokens, as
    far from its beginning as they are from the first of them in the text. A separator behind the
    slice is one more token. -/
theorem exists_slice (h : readTokens text = .ok (ts ++ (us ++ vs))) (hne : us ≠ []) :
    ∃ part us' t, (extent us).Covers text part ∧
      List.Forall₂ (Token.Moved (extent us).start) us' us ∧ readTokens part = .ok us' ∧
      t.is .separator ∧ readTokens (part ++ ";") = .ok (us' ++ [t]) := by
  obtain ⟨pieces, last, hpieces, hrange, heq⟩ := readTokens_eq_ok_iff.1 h
  obtain ⟨ps, qrs, rfl, -, hqrs⟩ := toTokens_eq_append heq.symm
  obtain ⟨_ | ⟨⟨gap, k, lexeme⟩, qs⟩, rs, rfl, rfl, -⟩ := toTokens_eq_append hqrs
  · exact absurd rfl hne
  -- The slice starts with the first lexeme of the run, so the gap before it is left out.
  let run : List Piece := ⟨[], k, lexeme⟩ :: qs
  let p := Position.start.advance (textOf ps ++ gap)
  have hus : toTokens (Position.start.advance (textOf ps)) (⟨gap, k, lexeme⟩ :: qs) =
      toTokens p run := by
    dsimp only [p]
    rw [Position.advance_append]
    rfl
  have hoffset : p.offset = byteSize (textOf ps ++ gap) := by
    rw [Position.offset_advance, Position.start, Nat.zero_add]
  have hrun : Decomposes (textOf run) run [] := hpieces.drop.drop_gap.take
  have hranges : ∀ piece ∈ run, piece.kind = .number →
      Number.valueOf piece.text ≤ 0x7fffffffffffffff :=
    List.forall_mem_cons.2 ⟨hrange ⟨gap, k, lexeme⟩ (by simp),
      fun piece hpiece => hrange piece (by simp [hpiece])⟩
  obtain ⟨hread, t, ht, hended⟩ := readTokens_textOf hrun hranges
  rw [hus, extent_toTokens]
  refine ⟨String.ofList (textOf run), toTokens .start run, t, Span.covers_iff.2
    ⟨textOf ps ++ gap, ?_, ?_⟩, toTokens_moved (Nat.zero_add p.offset).symm run, hread, ht, hended⟩
  · rw [hpieces.text_eq, String.toList_ofList]
    exact ⟨textOf rs ++ last, by simp [run, textOf_append, textOf_cons]⟩
  · rw [String.toList_ofList, byteSize_append _ (textOf run), hoffset]

/-- The tokens of a text stand one after the other. -/
theorem inOrder_of_readTokens (h : readTokens text = .ok ts) : InOrder ts := by
  obtain ⟨pieces, last, -, -, rfl⟩ := readTokens_eq_ok_iff.1 h
  exact inOrder_toTokens _ _

/-- A token of a text covers its lexeme. -/
theorem covers_of_readTokens (h : readTokens text = .ok ts) {t : Token} (ht : t ∈ ts) :
    t.span.Covers text t.lexeme := by
  obtain ⟨pieces, last, hpieces, -, rfl⟩ := readTokens_eq_ok_iff.1 h
  exact covers_of_mem_toTokens (hpieces.text_eq ▸ List.prefix_append _ _) ht

end Frontend
