import Frontend.Token.Lexeme

/-!
# Gaps and lexemes

What gaps and lexemes are, without a word on how they are cut off: a gap is made of blanks and
comments (`IsGap`), and a lexeme is a word, a run of digits or one of the spellings of the
alphabet (`IsLexeme`). Whether some characters are a gap or a lexeme also depends on what follows
them: a comment reaches up to the end of its line, and a word or a number is not followed by a
character that continues it (`Kind.EndsBefore`).

Cutting off a gap and cutting off a lexeme are exactly this (`splitGap_eq_iff`,
`split?_eq_some_iff`), so there is only one way to do either.
-/

namespace Frontend

/-- A lexeme of the kind may end before `rest`: a word or a number does not go on. -/
def Kind.EndsBefore (rest : List Char) : Kind → Prop
  | identifier | definition | external => ∀ c ∈ rest.head?, ¬(c.isAlphanum ∨ c = '_')
  | number => ∀ c ∈ rest.head?, ¬c.isDigit
  | _ => True

namespace Kind

variable {k : Kind} {c : Char} {rest ds : List Char}

theorem endsBefore_nil (k : Kind) : k.EndsBefore [] := by
  cases k with
  | identifier | definition | external | number => exact nofun
  | _ => exact trivial

/-- Every lexeme may end in front of a character that stands in no word. -/
theorem endsBefore_cons (hc : ¬(c.isAlphanum ∨ c = '_') ∧ ¬c.isDigit) (k : Kind) :
    k.EndsBefore (c :: rest) := by
  cases k with
  | identifier | definition | external =>
    rintro d ⟨⟩
    exact hc.1
  | number =>
    rintro d ⟨⟩
    exact hc.2
  | _ => exact trivial

/-- Whether a lexeme ends is told by the next character, or by what follows if there is none yet. -/
theorem EndsBefore.append (h : k.EndsBefore rest) (hds : k.EndsBefore ds) :
    k.EndsBefore (rest ++ ds) := by
  cases rest with
  | nil => exact hds
  | cons c rest => cases k <;> exact h

/-- A lexeme may end earlier in a text that ends earlier. -/
theorem EndsBefore.of_append (h : k.EndsBefore (rest ++ ds)) : k.EndsBefore rest := by
  cases rest with
  | nil => exact k.endsBefore_nil
  | cons c rest => cases k <;> exact h

end Kind

namespace Lexeme

/-- The characters are a gap in front of `rest`. A comment reaches up to the next line feed or
    carriage return, or to the end of the text. -/
inductive IsGap (rest : List Char) : List Char → Prop
  | nil : IsGap rest []
  | blank {c : Char} {gap : List Char} : c ∈ [' ', '\t', '\r', '\n'] → IsGap rest gap →
      IsGap rest (c :: gap)
  | comment {text gap : List Char} : (∀ c ∈ text, c ∉ ['\r', '\n']) →
      (∀ c ∈ (gap ++ rest).head?, c ∈ ['\r', '\n']) → IsGap rest gap →
      IsGap rest ('#' :: (text ++ gap))

/-- The characters are a lexeme of the kind. -/
inductive IsLexeme : Kind → List Char → Prop
  | spelled {k : Kind} {s : String} : k.spelling? = some s → IsLexeme k s.toList
  | identifier {c : Char} {cs : List Char} : c.isAlpha ∨ c = '_' →
      (∀ d ∈ cs, d.isAlphanum ∨ d = '_') → c :: cs ∉ ["def".toList, "extern".toList] →
      IsLexeme .identifier (c :: cs)
  | number {cs : List Char} : cs ≠ [] → (∀ d ∈ cs, d.isDigit) → IsLexeme .number cs

variable {c : Char} {cs gap text rest rest' : List Char} {k : Kind}

theorem isBlank_iff : isBlank c ↔ c ∈ [' ', '\t', '\r', '\n'] := by
  simp [isBlank, or_assoc]

theorem endsComment_iff : endsComment c ↔ c ∈ ['\r', '\n'] := by
  simp [endsComment, or_comm]

theorem startsWord_iff : startsWord c ↔ c.isAlpha ∨ c = '_' := by
  simp [startsWord]

theorem continuesWord_iff : continuesWord c ↔ c.isAlphanum ∨ c = '_' := by
  simp [continuesWord]

/-! ## Gaps -/

/-- The characters start neither a blank nor a comment. -/
def StartsNoGap (cs : List Char) : Prop := ∀ c ∈ cs.head?, ¬isBlank c ∧ c ≠ '#'

theorem isBlank_of_endsComment (h : endsComment c) : isBlank c := by
  simp only [endsComment, isBlank, Bool.or_eq_true] at h ⊢
  rcases h with h | h
  · exact .inr h
  · exact .inl (.inr h)

/-- A character of a comment that goes on. -/
theorem splitGap_inside (hc : ¬endsComment c) :
    splitGap true (c :: cs) = (c :: (splitGap true cs).1, (splitGap true cs).2) := by
  simp [splitGap, hc]

/-- The character that ends a comment. -/
theorem splitGap_ends (hc : endsComment c) :
    splitGap true (c :: cs) = (c :: (splitGap false cs).1, (splitGap false cs).2) := by
  simp [splitGap, hc]

theorem splitGap_blank (hc : isBlank c) :
    splitGap false (c :: cs) = (c :: (splitGap false cs).1, (splitGap false cs).2) := by
  simp [splitGap, hc]

theorem splitGap_mark :
    splitGap false ('#' :: cs) = ('#' :: (splitGap true cs).1, (splitGap true cs).2) := rfl

/-- Where no gap starts, the gap is empty. -/
theorem splitGap_of_startsNoGap (h : StartsNoGap cs) : splitGap false cs = ([], cs) := by
  cases cs with
  | nil => rfl
  | cons c cs =>
    obtain ⟨hblank, hmark⟩ := h c rfl
    simp [splitGap, hblank, hmark]

/-- A comment and what follows it. -/
theorem splitGap_comment (htext : ∀ c ∈ text, ¬endsComment c)
    (hcs : ∀ c ∈ cs.head?, endsComment c) :
    splitGap true (text ++ cs) = (text ++ (splitGap false cs).1, (splitGap false cs).2) := by
  induction text with
  | nil =>
    cases cs with
    | nil => rfl
    | cons c cs =>
      -- The character that ends the comment is a blank.
      have hc := hcs c rfl
      rw [List.nil_append, List.nil_append, splitGap_ends hc,
        splitGap_blank (isBlank_of_endsComment hc)]
  | cons c text ih =>
    obtain ⟨hc, htext⟩ := List.forall_mem_cons.1 htext
    rw [List.cons_append, splitGap_inside hc, ih htext, List.cons_append]

/-- A gap in front of something that continues none is split off. -/
theorem IsGap.splitGap (h : IsGap rest gap) (hrest : StartsNoGap rest) :
    splitGap false (gap ++ rest) = (gap, rest) := by
  induction h with
  | nil => exact splitGap_of_startsNoGap hrest
  | blank hc _ ih => rw [List.cons_append, splitGap_blank (isBlank_iff.2 hc), ih]
  | @comment text gap htext hnext _ ih =>
    have hcomment := splitGap_comment (fun c hc => mt endsComment_iff.1 (htext c hc))
      fun c hc => endsComment_iff.2 (hnext c hc)
    rw [List.cons_append, List.append_assoc, splitGap_mark, hcomment, ih]

/-- A comment without a character after its `#`. -/
theorem IsGap.comment_nil (hnext : ∀ c ∈ (gap ++ rest).head?, c ∈ ['\r', '\n'])
    (h : IsGap rest gap) : IsGap rest ('#' :: gap) :=
  @IsGap.comment rest [] gap nofun hnext h

/-- One more character of a comment. -/
theorem IsGap.cons_comment (h : IsGap rest ('#' :: gap)) (hc : ¬endsComment c) :
    IsGap rest ('#' :: c :: gap) := by
  cases h with
  | blank hmark _ => exact absurd hmark (by decide)
  | @comment text gap htext hnext hgap =>
    have hall : ∀ d ∈ c :: text, d ∉ ['\r', '\n'] :=
      List.forall_mem_cons.2 ⟨mt endsComment_iff.2 hc, htext⟩
    exact @IsGap.comment rest (c :: text) gap hall hnext hgap

/-- What is cut off is a gap, together with the `#` if the text starts inside a comment. -/
theorem isGap_of_splitGap (b : Bool) (cs : List Char) :
    StartsNoGap (splitGap b cs).2 ∧
      IsGap (splitGap b cs).2 (if b then '#' :: (splitGap b cs).1 else (splitGap b cs).1) := by
  induction cs generalizing b with
  | nil =>
    refine ⟨nofun, ?_⟩
    cases b with
    | false => exact .nil
    | true => exact .comment_nil nofun .nil
  | cons c cs ih =>
    cases b with
    | true =>
      by_cases hc : endsComment c
      · obtain ⟨hrest, hgap⟩ := ih false
        have hblank := isBlank_iff.1 (isBlank_of_endsComment hc)
        rw [splitGap_ends hc]
        refine ⟨hrest, .comment_nil ?_ (.blank hblank hgap)⟩
        rintro _ ⟨⟩
        exact endsComment_iff.1 hc
      · obtain ⟨hrest, hgap⟩ := ih true
        rw [splitGap_inside hc]
        exact ⟨hrest, hgap.cons_comment hc⟩
    | false =>
      by_cases hblank : isBlank c
      · obtain ⟨hrest, hgap⟩ := ih false
        rw [splitGap_blank hblank]
        exact ⟨hrest, .blank (isBlank_iff.1 hblank) hgap⟩
      · by_cases hmark : c = '#'
        · subst hmark
          exact ih true
        · have hnone : StartsNoGap (c :: cs) := by
            rintro _ ⟨⟩
            exact ⟨hblank, hmark⟩
          rw [splitGap_of_startsNoGap hnone]
          exact ⟨hnone, .nil⟩

/-- Cutting off a gap gives the gap in front of the first character that belongs to none. -/
theorem splitGap_eq_iff :
    splitGap false cs = (gap, rest) ↔ cs = gap ++ rest ∧ IsGap rest gap ∧ StartsNoGap rest := by
  constructor
  · intro h
    have happend := splitGap_append false cs
    obtain ⟨hrest, hgap⟩ := isGap_of_splitGap false cs
    rw [h] at happend hrest hgap
    exact ⟨happend.symm, hgap, hrest⟩
  · rintro ⟨rfl, hgap, hrest⟩
    exact hgap.splitGap hrest

/-! ## Lexemes -/

theorem takeWhile_append_eq {p : Char → Bool} (htext : ∀ c ∈ text, p c)
    (hrest : ∀ c ∈ rest.head?, ¬p c) :
    (text ++ rest).takeWhile p = text ∧ (text ++ rest).dropWhile p = rest := by
  rw [List.takeWhile_append_of_pos htext, List.dropWhile_append_of_pos htext]
  cases rest with
  | nil => simp
  | cons c rest =>
    have := hrest c rfl
    simp [this]

/-- A word is split off if it ends before the rest. -/
theorem split?_word (hc : startsWord c) (hcs : ∀ d ∈ cs, continuesWord d)
    (hrest : ∀ d ∈ rest.head?, ¬continuesWord d) :
    split? (c :: (cs ++ rest)) = some (wordKind (c :: cs), c :: cs, rest) := by
  obtain ⟨htake, hdrop⟩ := takeWhile_append_eq hcs hrest
  simp [split?, hc, htake, hdrop]

theorem not_startsWord_of_isDigit (h : c.isDigit) : ¬startsWord c := by
  rw [startsWord_iff]
  rintro (halpha | rfl)
  · delta Char.isDigit Char.isAlpha Char.isUpper Char.isLower at h halpha
    simp only [Bool.or_eq_true, Bool.and_eq_true, decide_eq_true_eq, ge_iff_le,
      UInt32.le_iff_toNat_le] at h halpha
    have : '9'.val.toNat = 57 := rfl
    have : 'A'.val.toNat = 65 := rfl
    have : 'a'.val.toNat = 97 := rfl
    omega
  · exact absurd h (by decide)

/-- A number is split off if it ends before the rest. -/
theorem split?_digits (hc : c.isDigit) (hcs : ∀ d ∈ cs, d.isDigit)
    (hrest : ∀ d ∈ rest.head?, ¬d.isDigit) :
    split? (c :: (cs ++ rest)) = some (.number, c :: cs, rest) := by
  obtain ⟨htake, hdrop⟩ := takeWhile_append_eq hcs hrest
  simp [split?, not_startsWord_of_isDigit hc, hc, htake, hdrop]

/-- A word is a lexeme of its kind. -/
theorem isLexeme_word (hc : startsWord c) (hcs : ∀ d ∈ cs, continuesWord d) :
    IsLexeme (wordKind (c :: cs)) (c :: cs) := by
  unfold wordKind
  split
  · next h =>
    rw [h]
    exact .spelled (k := .definition) (s := "def") rfl
  · split
    · next h =>
      rw [h]
      exact .spelled (k := .external) (s := "extern") rfl
    · next hdef hextern =>
      refine .identifier (startsWord_iff.1 hc) (fun d hd => continuesWord_iff.1 (hcs d hd)) ?_
      simp only [List.mem_cons, List.not_mem_nil, or_false, not_or]
      exact ⟨hdef, hextern⟩

theorem spelling?_of_markKind? (h : markKind? c = some k) :
    k.spelling? = some (String.singleton c) ∧ k.EndsBefore rest := by
  unfold markKind? at h
  split at h <;> cases h <;> exact ⟨rfl, trivial⟩

/-- A mark that is split off is a lexeme. -/
theorem isLexeme_of_splitMark? (h : splitMark? cs = some (k, text, rest)) :
    IsLexeme k text ∧ k.EndsBefore rest := by
  unfold splitMark? at h
  split at h
  · cases h
    exact ⟨.spelled (k := .shiftLeft) (s := "<<") rfl, trivial⟩
  · cases h
    exact ⟨.spelled (k := .shiftRight) (s := ">>") rfl, trivial⟩
  · next c _ _ _ =>
    obtain ⟨k, hk, heq⟩ := Option.map_eq_some_iff.1 h
    cases heq
    obtain ⟨hspelling, hends⟩ := spelling?_of_markKind? hk
    have hlexeme := IsLexeme.spelled hspelling
    rw [String.toList_singleton] at hlexeme
    exact ⟨hlexeme, hends⟩
  · exact nomatch h

theorem endsBefore_wordKind (word : List Char) (hrest : ∀ c ∈ rest.head?, ¬continuesWord c) :
    (wordKind word).EndsBefore rest := by
  have hends : ∀ c ∈ rest.head?, ¬(c.isAlphanum ∨ c = '_') := fun c hc =>
    mt continuesWord_iff.2 (hrest c hc)
  unfold wordKind
  split
  · exact hends
  · split <;> exact hends

theorem not_of_mem_head?_dropWhile {p : Char → Bool} (h : c ∈ (cs.dropWhile p).head?) : ¬p c := by
  have hnot := List.head?_dropWhile_not p cs
  rw [Option.mem_def.1 h] at hnot
  exact Bool.not_eq_true _ ▸ hnot

/-- What is cut off is a lexeme, and it may end where it does. -/
theorem isLexeme_of_split? (h : split? cs = some (k, text, rest)) :
    IsLexeme k text ∧ k.EndsBefore rest := by
  unfold split? at h
  split at h
  · exact nomatch h
  · next c cs =>
    split at h
    · next hc =>
      cases h
      refine ⟨isLexeme_word hc fun d hd => ?_, endsBefore_wordKind _ fun d hd => ?_⟩
      · exact List.all_eq_true.1 List.all_takeWhile d hd
      · exact not_of_mem_head?_dropWhile hd
    · split at h
      · next hc =>
        cases h
        refine ⟨.number (List.cons_ne_nil _ _) (List.forall_mem_cons.2 ⟨hc, fun d hd => ?_⟩),
          fun d hd => not_of_mem_head?_dropWhile hd⟩
        exact List.all_eq_true.1 List.all_takeWhile d hd
      · exact isLexeme_of_splitMark? h

/-- The spelling of a kind is split off as a lexeme of this kind. -/
theorem split?_spelled {s : String} (h : k.spelling? = some s) (hends : k.EndsBefore rest) :
    split? (s.toList ++ rest) = some (k, s.toList, rest) := by
  have hword (hends : ∀ c ∈ rest.head?, ¬(c.isAlphanum ∨ c = '_')) :
      ∀ c ∈ rest.head?, ¬continuesWord c := fun c hc => mt continuesWord_iff.1 (hends c hc)
  cases k with
  | definition =>
    cases h
    exact @split?_word 'd' ['e', 'f'] rest rfl (List.all_eq_true.1 rfl) (hword hends)
  | external =>
    cases h
    exact @split?_word 'e' ['x', 't', 'e', 'r', 'n'] rest rfl (List.all_eq_true.1 rfl)
      (hword hends)
  | _ =>
    -- A mark is told by its first one or two characters.
    cases h <;> rfl

/-- Cutting off a lexeme gives the one that may end where it does. -/
theorem split?_eq_some_iff :
    split? cs = some (k, text, rest) ↔ cs = text ++ rest ∧ IsLexeme k text ∧ k.EndsBefore rest := by
  constructor
  · intro h
    exact ⟨(split?_append h).1.symm, isLexeme_of_split? h⟩
  · rintro ⟨rfl, hlexeme, hends⟩
    cases hlexeme with
    | spelled hs => exact split?_spelled hs hends
    | @identifier c cs hc hcs hkeyword =>
      have hkind : wordKind (c :: cs) = .identifier := by
        simp only [List.mem_cons, List.not_mem_nil, or_false, not_or] at hkeyword
        exact (if_neg hkeyword.1).trans (if_neg hkeyword.2)
      rw [← hkind]
      exact split?_word (startsWord_iff.2 hc) (fun d hd => continuesWord_iff.2 (hcs d hd))
        fun d hd => mt continuesWord_iff.1 (hends d hd)
    | number hne hdigits =>
      obtain ⟨c, cs, rfl⟩ := List.exists_cons_of_ne_nil hne
      obtain ⟨hc, hcs⟩ := List.forall_mem_cons.1 hdigits
      exact split?_digits hc hcs hends

/-- A lexeme is cut off if one begins the text, perhaps a longer one. -/
theorem split?_eq_none_iff : split? cs = none ↔ ∀ k text, text <+: cs → ¬IsLexeme k text := by
  constructor
  · rintro h k _ ⟨rest, rfl⟩ hlexeme
    cases hlexeme with
    | @spelled k s hs =>
      cases k <;> cases hs <;> simp [split?, splitMark?, markKind?, startsWord] at h
    | identifier hc _ _ => simp [split?, startsWord_iff.2 hc] at h
    | number hne hdigits =>
      obtain ⟨d, ds, rfl⟩ := List.exists_cons_of_ne_nil hne
      have hd := hdigits d List.mem_cons_self
      simp [split?, not_startsWord_of_isDigit hd, hd] at h
  · intro h
    cases hsplit : split? cs with
    | none => rfl
    | some found =>
      obtain ⟨k, text, rest⟩ := found
      obtain ⟨rfl, hlexeme, -⟩ := split?_eq_some_iff.1 hsplit
      exact absurd hlexeme (h k text (List.prefix_append text rest))

/-- No lexeme starts with a character that starts a gap. -/
theorem startsNoGap_of_split? (h : split? cs = some (k, text, rest)) : StartsNoGap cs := by
  cases cs with
  | nil => exact nofun
  | cons c cs =>
    have hnone : c ∈ [' ', '\t', '\r', '\n', '#'] → split? (c :: cs) = none := by
      simp only [List.mem_cons, List.not_mem_nil, or_false]
      rintro (rfl | rfl | rfl | rfl | rfl) <;> rfl
    have hc : c ∉ [' ', '\t', '\r', '\n', '#'] := fun hc => by simp [hnone hc] at h
    rintro _ ⟨⟩
    rw [isBlank_iff]
    simpa [not_or, and_assoc] using hc

/-- There is one way to write a lexeme whose kind has a spelling. -/
theorem IsLexeme.eq_of_spelling? {s : String} (h : IsLexeme k text) (hs : k.spelling? = some s) :
    text = s.toList := by
  cases h with
  | spelled hs' => rw [Option.some.inj (hs.symm.trans hs')]
  | identifier => exact nomatch hs
  | number => exact nomatch hs

theorem IsLexeme.ne_nil (h : IsLexeme k text) : text ≠ [] :=
  (split?_append (split?_eq_some_iff.2 ⟨rfl, h, k.endsBefore_nil⟩)).2

/-- A lexeme is of one kind only. -/
theorem IsLexeme.kind_unique {k' : Kind} (h : IsLexeme k text) (h' : IsLexeme k' text) :
    k = k' := by
  have hsplit := split?_eq_some_iff.2 ⟨rfl, h, k.endsBefore_nil⟩
  have hsplit' := split?_eq_some_iff.2 ⟨rfl, h', k'.endsBefore_nil⟩
  exact (Prod.mk.inj (Option.some.inj (hsplit.symm.trans hsplit'))).1

/-! ## What follows a gap -/

/-- What makes some characters a gap is the first character behind them. -/
theorem IsGap.of_head? (h : IsGap rest gap) (hrest : rest.head? = rest'.head?) :
    IsGap rest' gap := by
  induction h with
  | nil => exact .nil
  | blank hc _ ih => exact .blank hc ih
  | comment htext hnext _ ih =>
    refine .comment htext (fun c hc => hnext c ?_) ih
    rwa [List.head?_append, hrest, ← List.head?_append]

/-- A gap in front of a lexeme is one whatever follows the lexeme. -/
theorem IsLexeme.isGap (h : IsLexeme k text) (hgap : IsGap (text ++ rest) gap) :
    IsGap (text ++ rest') gap := by
  obtain ⟨c, cs, rfl⟩ := List.exists_cons_of_ne_nil h.ne_nil
  exact hgap.of_head? rfl

/-- A gap is one in a text that ends earlier, too. -/
theorem IsGap.of_append (h : IsGap (rest ++ rest') gap) : IsGap rest gap := by
  induction h with
  | nil => exact .nil
  | blank hc _ ih => exact .blank hc ih
  | @comment text gap htext hnext _ ih =>
    refine .comment htext (fun c hc => hnext c ?_) ih
    rw [← List.append_assoc, List.head?_append, Option.mem_def.1 hc]
    rfl

end Lexeme

end Frontend
