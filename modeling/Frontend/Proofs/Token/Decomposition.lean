import Frontend.Proofs.Except
import Frontend.Proofs.Token.Lexeme
import Frontend.Text.Size
import Frontend.Token.Stream

/-!
# Texts as gaps and lexemes

`Decomposes cs pieces gap` says that a text is made of gaps and lexemes in turn: each of the
pieces is a gap and the lexeme after it, and `gap` follows the last one. `Reaches rest cs pieces
gap` says the same of a text that is made of them only up to `rest`. Reading a text piece by piece
reaches the place where it cannot go on (`reaches_read`), and no other one (`Reaches.read_eq`). So
it finds the decomposition of the text if there is one (`read_eq_iff`), and a text has at most one.

The tokens of a text are the lexemes of its decomposition, each with the bytes at which it stands
in the text. So a text is made into tokens exactly if it has a decomposition in which no number
is too large (`tokenize_language`).
-/

namespace Frontend

open Text

namespace Lexeme

variable {cs gap text rest : List Char} {k : Kind} {pieces : List Piece}

/-- The text is made of the pieces, each of them a gap and a lexeme, and a gap behind them. -/
inductive Decomposes : List Char → List Piece → List Char → Prop
  | last {gap : List Char} : IsGap [] gap → Decomposes gap [] gap
  | piece {gap text rest last : List Char} {k : Kind} {pieces : List Piece} :
      IsGap (text ++ rest) gap → IsLexeme k text → k.EndsBefore rest →
      Decomposes rest pieces last →
      Decomposes (gap ++ (text ++ rest)) (⟨gap, k, text⟩ :: pieces) last

/-- Reading the text from its beginning leads behind the pieces and a gap, to `rest`. -/
inductive Reaches (rest : List Char) : List Char → List Piece → List Char → Prop
  | gap {gap : List Char} : IsGap rest gap → Reaches rest (gap ++ rest) [] gap
  | piece {gap text cs last : List Char} {k : Kind} {pieces : List Piece} :
      IsGap (text ++ cs) gap → IsLexeme k text → k.EndsBefore cs → Reaches rest cs pieces last →
      Reaches rest (gap ++ (text ++ cs)) (⟨gap, k, text⟩ :: pieces) last

/-- Neither a gap nor a lexeme begins the text. -/
structure Unreadable (cs : List Char) : Prop where
  startsNoGap : StartsNoGap cs
  no_lexeme : ∀ k text, text <+: cs → ¬IsLexeme k text

/-- The characters of consecutive pieces. -/
def textOf (pieces : List Piece) : List Char :=
  pieces.flatMap fun piece => piece.gap ++ piece.text

theorem textOf_cons (piece : Piece) (pieces : List Piece) :
    textOf (piece :: pieces) = piece.gap ++ (piece.text ++ textOf pieces) :=
  List.append_assoc _ _ _

theorem textOf_append (pieces pieces' : List Piece) :
    textOf (pieces ++ pieces') = textOf pieces ++ textOf pieces' :=
  List.flatMap_append

/-! ## Reading a text -/

/-- What cannot be read is what the scanner can split nothing off. -/
theorem unreadable_iff : Unreadable cs ↔ StartsNoGap cs ∧ split? cs = none := by
  rw [split?_eq_none_iff]
  exact ⟨fun h => ⟨h.startsNoGap, h.no_lexeme⟩, fun h => ⟨h.1, h.2⟩⟩

/-- Reading ends where no lexeme follows the gap. -/
theorem read_of_none (hgap : splitGap false cs = (gap, rest)) (h : split? rest = none) :
    read cs = ⟨[], gap, rest⟩ := by
  rw [read]
  split
  · rw [hgap]
  · next h' =>
    rw [hgap] at h'
    simp [h] at h'

/-- Reading goes on behind a gap and a lexeme. -/
theorem read_of_some {rest' : List Char} (hgap : splitGap false cs = (gap, rest'))
    (h : split? rest' = some (k, text, rest)) :
    read cs = { read rest with pieces := ⟨gap, k, text⟩ :: (read rest).pieces } := by
  rw [read]
  split
  · next h' =>
    rw [hgap] at h'
    simp [h] at h'
  · next h' =>
    rw [hgap, h] at h'
    cases h'
    rw [hgap]

/-- A text is the pieces that reading it leads behind, a gap and the rest. -/
theorem Reaches.text_eq (h : Reaches rest cs pieces gap) :
    cs = textOf pieces ++ (gap ++ rest) := by
  induction h with
  | gap _ => rfl
  | piece _ _ _ _ ih => rw [textOf_cons, List.append_assoc, List.append_assoc, ← ih]

/-- Reading goes on as long as it can. -/
theorem Reaches.read_eq (h : Reaches rest cs pieces gap) (hrest : Unreadable rest) :
    read cs = ⟨pieces, gap, rest⟩ := by
  obtain ⟨hnoGap, hnone⟩ := unreadable_iff.1 hrest
  induction h with
  | gap hgap => exact read_of_none (splitGap_eq_iff.2 ⟨rfl, hgap, hnoGap⟩) hnone
  | piece hgap hlexeme hends _ ih =>
    have hsplit := split?_eq_some_iff.2 ⟨rfl, hlexeme, hends⟩
    rw [read_of_some (splitGap_eq_iff.2 ⟨rfl, hgap, startsNoGap_of_split? hsplit⟩) hsplit, ih]

/-- Reading a text leads to its rest, and no gap or lexeme begins this rest. -/
theorem reaches_read (cs : List Char) :
    Reaches (read cs).rest cs (read cs).pieces (read cs).gap ∧ Unreadable (read cs).rest := by
  induction cs using read.induct with
  | case1 cs hnone =>
    obtain ⟨heq, hgap, hnoGap⟩ := splitGap_eq_iff.1 (Prod.eta (splitGap false cs)).symm
    have hreaches := Reaches.gap hgap
    rw [← heq] at hreaches
    rw [read_of_none rfl hnone]
    exact ⟨hreaches, unreadable_iff.2 ⟨hnoGap, hnone⟩⟩
  | case2 cs k text rest hsome ih =>
    obtain ⟨heq, hgap, -⟩ := splitGap_eq_iff.1 (Prod.eta (splitGap false cs)).symm
    obtain ⟨htext, hlexeme, hends⟩ := split?_eq_some_iff.1 hsome
    rw [htext] at hgap heq
    have hpiece := Reaches.piece hgap hlexeme hends ih.1
    rw [← heq] at hpiece
    rw [read_of_some rfl hsome]
    exact ⟨hpiece, ih.2⟩

/-- Reading leads to the end of a text that is made of pieces. -/
theorem Decomposes.reaches (h : Decomposes cs pieces gap) : Reaches [] cs pieces gap := by
  induction h with
  | @last gap hgap =>
    have hreaches := Reaches.gap hgap
    rwa [List.append_nil] at hreaches
  | piece hgap hlexeme hends _ ih => exact .piece hgap hlexeme hends ih

/-- What has been read is made of pieces and a gap without what follows it, too. -/
theorem Reaches.decomposes (h : Reaches rest cs pieces gap) :
    Decomposes (textOf pieces ++ gap) pieces gap := by
  induction h with
  | @gap gap hgap =>
    have hends : IsGap ([] ++ rest) gap := hgap
    exact .last hends.of_append
  | piece hgap hlexeme hends h ih =>
    have htext := h.text_eq
    rw [← List.append_assoc] at htext
    rw [htext] at hends
    rw [htext, ← List.append_assoc] at hgap
    rw [textOf_cons, List.append_assoc, List.append_assoc]
    exact .piece hgap.of_append hlexeme hends.of_append ih

/-- A text is the pieces that it is made of and the gap behind them. -/
theorem Decomposes.text_eq (h : Decomposes cs pieces gap) : cs = textOf pieces ++ gap := by
  rw [h.reaches.text_eq, List.append_nil]

/-- Reading finds the pieces that a text is made of. -/
theorem Decomposes.read_eq (h : Decomposes cs pieces gap) : read cs = ⟨pieces, gap, []⟩ :=
  h.reaches.read_eq (unreadable_iff.2 ⟨nofun, rfl⟩)

/-- If nothing is left unread, the text is made of what has been read. -/
theorem decomposes_read (h : (read cs).rest = []) :
    Decomposes cs (read cs).pieces (read cs).gap := by
  have hreaches := (reaches_read cs).1
  have htext := hreaches.text_eq
  rw [h, List.append_nil] at htext
  have hdecomposes := hreaches.decomposes
  rwa [← htext] at hdecomposes

/-- Reading a text to its end finds its decomposition. -/
theorem read_eq_iff : read cs = ⟨pieces, gap, []⟩ ↔ Decomposes cs pieces gap := by
  constructor
  · intro h
    have hread := decomposes_read (congrArg Reading.rest h)
    rwa [h] at hread
  · exact Decomposes.read_eq

/-- The pieces of a text hold lexemes of their kinds. -/
theorem Decomposes.isLexeme (h : Decomposes cs pieces gap) :
    ∀ piece ∈ pieces, IsLexeme piece.kind piece.text := by
  induction h with
  | last _ => exact nofun
  | piece _ hlexeme _ _ ih => exact List.forall_mem_cons.2 ⟨hlexeme, ih⟩

end Lexeme

/-! ## Numbers -/

namespace Number

variable {cs : List Char}

/-- A run of digits is read as its value. -/
theorem readAny?_digits (hne : cs ≠ []) (hdigits : ∀ d ∈ cs, d.isDigit) :
    readAny? cs = some (valueOf cs : Int) := by
  unfold readAny?
  split
  · exact absurd (hdigits '-' List.mem_cons_self) (by decide)
  · exact absurd (hdigits '+' List.mem_cons_self) (by decide)
  · have hall : cs.all Char.isDigit := List.all_eq_true.2 hdigits
    simp [readDigits?, hne, hall]

/-- A run of digits has a value in range unless it is too large. -/
theorem read?_digits_eq_none_iff (hne : cs ≠ []) (hdigits : ∀ d ∈ cs, d.isDigit) :
    read? (String.ofList cs) = none ↔ ¬valueOf cs ≤ 0x7fffffffffffffff := by
  have hrange : InRange (valueOf cs) ↔ valueOf cs ≤ 0x7fffffffffffffff := by
    unfold InRange least greatest
    omega
  rw [read?, String.toList_ofList, readAny?_digits hne hdigits, Option.filter_some, ← hrange]
  by_cases h : InRange (valueOf cs)
  · simp [h]
  · simp [h]

end Number

/-! ## Places -/

namespace Position

theorem offset_next (p : Position) (c : Char) : (p.next c).offset = p.offset + c.utf8Size := by
  unfold next
  split <;> rfl

/-- Going over some characters takes as many bytes as they have. -/
theorem offset_advance (p : Position) (cs : List Char) :
    (p.advance cs).offset = p.offset + byteSize cs := by
  induction cs generalizing p with
  | nil => rfl
  | cons c cs ih =>
    have hstep : p.advance (c :: cs) = (p.next c).advance cs := rfl
    rw [hstep, ih, offset_next, byteSize_cons, Nat.add_assoc]

theorem advance_append (p : Position) (cs ds : List Char) :
    p.advance (cs ++ ds) = (p.advance cs).advance ds :=
  List.foldl_append

end Position

/-! ## Tokens -/

namespace Lexeme

variable {k : Kind} {text : List Char} {pieces : List Piece}

/-- The tokens are those of the pieces, each at the place that the pieces before it lead to. -/
theorem getElem?_toTokens (p : Position) (pieces : List Piece) (i : Nat) :
    (toTokens p pieces)[i]? = pieces[i]?.map fun piece =>
      toToken (p.advance (textOf (pieces.take i) ++ piece.gap)) piece.kind piece.text := by
  induction pieces generalizing p i with
  | nil => rfl
  | cons piece pieces ih =>
    cases i with
    | zero => rfl
    | succ i =>
      have htokens : (toTokens p (piece :: pieces))[i + 1]? =
          (toTokens ((p.advance piece.gap).advance piece.text) pieces)[i]? := rfl
      rw [htokens, ih, List.take_succ_cons, textOf_cons]
      simp only [List.getElem?_cons_succ, Position.advance_append]

/-- There is one token for each piece. -/
theorem length_toTokens (p : Position) (pieces : List Piece) :
    (toTokens p pieces).length = pieces.length := by
  induction pieces generalizing p with
  | nil => rfl
  | cons piece pieces ih => exact congrArg (· + 1) (ih _)

/-- The place behind some pieces is that behind their characters. -/
theorem afterPieces_eq (p : Position) (pieces : List Piece) :
    afterPieces p pieces = p.advance (textOf pieces) := by
  induction pieces generalizing p with
  | nil => rfl
  | cons piece pieces ih =>
    rw [textOf_cons, Position.advance_append, Position.advance_append, ← ih]
    rfl

/-- A token covers the bytes of its lexeme. -/
theorem span_toToken (p : Position) (k : Kind) (text : List Char) :
    (toToken p k text).span = ⟨p.offset, p.offset + byteSize text⟩ := by
  rw [toToken, Position.offset_advance]

/-- The only tokens out of range are numbers with too large a value. -/
theorem isOutOfRange_toToken (h : IsLexeme k text) (p : Position) :
    (toToken p k text).isOutOfRange ↔ k = .number ∧ ¬Number.valueOf text ≤ 0x7fffffffffffffff := by
  have hkind : (toToken p k text).is .number ↔ k = .number := by
    rw [Token.is_iff]
    exact ⟨Kind.id_injective, congrArg Kind.id⟩
  rw [Token.isOutOfRange, Bool.and_eq_true, hkind, Option.isNone_iff_eq_none]
  refine and_congr_right ?_
  rintro rfl
  cases h with
  | spelled hspelling => exact nomatch hspelling
  | number hne hdigits => exact Number.read?_digits_eq_none_iff hne hdigits

/-- The tokens of some pieces, each found at the place to which the pieces before it lead. -/
theorem mem_toTokens_iff {p : Position} {t : Token} :
    t ∈ toTokens p pieces ↔ ∃ i piece, pieces[i]? = some piece ∧
      toToken (p.advance (textOf (pieces.take i) ++ piece.gap)) piece.kind piece.text = t := by
  simp only [List.mem_iff_getElem?, getElem?_toTokens, Option.map_eq_some_iff]

end Lexeme

open Lexeme

variable {ts : List Token} {pieces : List Piece}

/-- No token is out of range exactly if no number is too large. -/
theorem find?_isOutOfRange_eq_none_iff (p : Position)
    (h : ∀ piece ∈ pieces, IsLexeme piece.kind piece.text) :
    (toTokens p pieces).find? Token.isOutOfRange = none ↔
      ∀ piece ∈ pieces, piece.kind = .number →
        Number.valueOf piece.text ≤ 0x7fffffffffffffff := by
  rw [List.find?_eq_none]
  constructor
  · intro htokens piece hpiece hk
    obtain ⟨i, hi⟩ := List.getElem?_of_mem hpiece
    have hrange := htokens _ (mem_toTokens_iff.2 ⟨i, piece, hi, rfl⟩)
    rw [isOutOfRange_toToken (h piece hpiece)] at hrange
    exact Decidable.byContradiction fun hlarge => hrange ⟨hk, hlarge⟩
  · intro hpieces t ht hrange
    obtain ⟨i, piece, hi, rfl⟩ := mem_toTokens_iff.1 ht
    have hpiece := List.mem_of_getElem? hi
    obtain ⟨hk, hlarge⟩ := (isOutOfRange_toToken (h piece hpiece) _).1 hrange
    exact hlarge (hpieces piece hpiece hk)

/-- A text is made into the tokens of its decomposition, unless a number is too large. -/
theorem readTokens_eq_ok_iff {text : String} :
    readTokens text = .ok ts ↔ ∃ pieces gap, Decomposes text.toList pieces gap ∧
      (∀ piece ∈ pieces, piece.kind = .number →
        Number.valueOf piece.text ≤ 0x7fffffffffffffff) ∧
      ts = toTokens .start pieces := by
  unfold readTokens
  dsimp only
  split
  · next hrest =>
    refine iff_of_false nofun ?_
    rintro ⟨pieces, gap, h, -⟩
    rw [h.read_eq] at hrest
    exact nomatch hrest
  · next hrest =>
    have h := decomposes_read hrest
    split
    · next t hfind =>
      refine iff_of_false nofun ?_
      rintro ⟨pieces, gap, h', hrange, -⟩
      rw [h'.read_eq, (find?_isOutOfRange_eq_none_iff .start h'.isLexeme).2 hrange] at hfind
      exact nomatch hfind
    · next hfind =>
      constructor
      · rintro ⟨⟩
        exact ⟨_, _, h, (find?_isOutOfRange_eq_none_iff .start h.isLexeme).1 hfind, rfl⟩
      · rintro ⟨pieces, gap, h', -, rfl⟩
        rw [h'.read_eq]

theorem tokenize_eq_ok_iff {o : Origin} :
    tokenize o = .ok ts ↔ readTokens o.source.content = .ok ts := by
  rw [tokenize, mapError_eq_ok_iff]

theorem tokenize_eq_error_iff {o : Origin} {d : Diagnostic} :
    tokenize o = .error d ↔ ∃ c, readTokens o.source.content = .error c ∧ d = o.report c := by
  rw [tokenize, mapError_eq_error_iff]

/-- Every keyword and every mark among the tokens of a text is spelled like one. -/
theorem lexeme_of_tokenize {o : Origin} {t : Token} {k : Kind} {s : String}
    (h : tokenize o = .ok ts) (ht : t ∈ ts) (hk : t.is k) (hs : k.spelling? = some s) :
    t.lexeme = s := by
  obtain ⟨pieces, gap, hpieces, -, rfl⟩ := readTokens_eq_ok_iff.1 (tokenize_eq_ok_iff.1 h)
  obtain ⟨i, piece, hi, rfl⟩ := mem_toTokens_iff.1 ht
  obtain rfl : piece.kind = k := Kind.id_injective (Token.is_iff.1 hk)
  have htext := (hpieces.isLexeme piece (List.mem_of_getElem? hi)).eq_of_spelling? hs
  rw [toToken, htext, String.ofList_toList]

/-- A text is made into tokens exactly if it consists of lexemes with gaps around them, none of
    them a number that is too large. There is only one way to write it so, and the tokens are the
    lexemes in their order, each with its kind and the bytes at which it stands. -/
theorem tokenize_language (o : Origin) :
    ((∃ ts, tokenize o = .ok ts) ↔
      ∃ pieces last, Decomposes o.source.content.toList pieces last ∧
        ∀ piece ∈ pieces, piece.kind = .number →
          Number.valueOf piece.text ≤ 0x7fffffffffffffff) ∧
    (∀ pieces pieces' last last', Decomposes o.source.content.toList pieces last →
      Decomposes o.source.content.toList pieces' last' → pieces = pieces' ∧ last = last') ∧
    ∀ ts pieces last, tokenize o = .ok ts → Decomposes o.source.content.toList pieces last →
      ts.length = pieces.length ∧
      ∀ (i : Nat) (piece : Piece) (t : Token), pieces[i]? = some piece → ts[i]? = some t →
        t.id = piece.kind.id ∧ t.lexeme = String.ofList piece.text ∧
        t.span = ⟨byteSize (textOf (pieces.take i) ++ piece.gap),
          byteSize (textOf (pieces.take i) ++ piece.gap ++ piece.text)⟩ := by
  have hunique (pieces pieces' last last')
      (h : Decomposes o.source.content.toList pieces last)
      (h' : Decomposes o.source.content.toList pieces' last') :
      pieces = pieces' ∧ last = last' := by
    have heq := h.read_eq.symm.trans h'.read_eq
    exact ⟨congrArg Reading.pieces heq, congrArg Reading.gap heq⟩
  refine ⟨?_, hunique, ?_⟩
  · simp only [tokenize_eq_ok_iff, readTokens_eq_ok_iff]
    constructor
    · rintro ⟨_, pieces, last, h, hrange, rfl⟩
      exact ⟨pieces, last, h, hrange⟩
    · rintro ⟨pieces, last, h, hrange⟩
      exact ⟨_, pieces, last, h, hrange, rfl⟩
  · intro ts pieces last hts h
    obtain ⟨pieces', last', h', -, rfl⟩ := readTokens_eq_ok_iff.1 (tokenize_eq_ok_iff.1 hts)
    obtain ⟨rfl, rfl⟩ := hunique _ _ _ _ h h'
    refine ⟨length_toTokens _ _, fun i piece t hpiece ht => ?_⟩
    rw [getElem?_toTokens, hpiece] at ht
    obtain rfl := Option.some.inj ht
    refine ⟨rfl, rfl, ?_⟩
    rw [span_toToken, Position.offset_advance, byteSize_append _ piece.text]
    simp [Position.start]

end Frontend
