import Frontend.Proofs.Expression.Spelling
import Frontend.Proofs.Program.Statements

/-!
# Programs written and read

An expression is written word by word (`Expr.words`): names and numbers as they are, operators
between their operands, parentheses and commas around and between arguments, and a separator after
every element of a sequence. Its text has a blank between each word and the next.

What a program may consist of can be written so that it is read back (`parseProgram_text`): every
word is a lexeme, so the tokens of the text are the words again, and these read as a tree that
differs in its spans only.
-/

namespace Frontend

namespace Expr

/-! ## Writing -/

mutual

/-- The words with which an expression is written. -/
def words : Expr → List String
  | name n _ => [n]
  | number v _ => [toString v]
  | binary _ x l r _ => words l ++ x :: words r
  | group e _ => "(" :: (words e ++ [")"])
  | call f es _ => f :: "(" :: ([","].intercalate (allWords es) ++ [")"])
  | sequence x es _ => (allWords es).flatMap (· ++ [x])

/-- The words of each of some expressions. -/
def allWords : List Expr → List (List String)
  | [] => []
  | e :: es => words e :: allWords es

end

/-- The text of an expression. -/
def text (e : Expr) : String := " ".intercalate e.words

/-- An expression that can be written in a program: a name, a number without a sign, a call, or an
    assignment to a name. Names are written like identifiers, so no keyword is one. -/
inductive Writable : Expr → Prop
  | name {n : String} {s : Span} : Lexeme.IsLexeme .identifier n.toList → Writable (.name n s)
  | number {v : Int} {s : Span} : 0 ≤ v → v ≤ Number.greatest → Writable (.number v s)
  | call {f : String} {es : List Expr} {s : Span} : Lexeme.IsLexeme .identifier f.toList →
      (∀ e ∈ es, Writable e) → Writable (.call f es s)
  | assign {n : String} {s s' : Span} {r : Expr} : Lexeme.IsLexeme .identifier n.toList →
      Writable r → Writable (.binary Kind.assign.id "=" (.name n s') r s)

theorem allWords_eq_map (es : List Expr) : allWords es = es.map words := by
  induction es with
  | nil => rfl
  | cons e es ih => rw [allWords, ih, List.map_cons]

end Expr

/-! ## Words -/

namespace Number

variable {v : Int}

theorem toString_eq (n : Nat) : toString (n : Int) = String.ofList (Nat.toDigits 10 n) :=
  Nat.toString_eq_ofList_toDigits

theorem valueOf_toDigits (n : Nat) : valueOf (Nat.toDigits 10 n) = n :=
  Nat.ofDigitChars_toDigits (by decide) (by decide)

theorem isDigit_toDigits (n : Nat) : ∀ d ∈ Nat.toDigits 10 n, d.isDigit := fun _ =>
  Nat.isDigit_of_mem_toDigits (by decide) (by decide)

/-- A number without a sign is written as a lexeme. -/
theorem isLexeme_toString (hv : 0 ≤ v) : Lexeme.IsLexeme .number (toString v).toList := by
  obtain ⟨n, rfl⟩ := Int.eq_ofNat_of_zero_le hv
  rw [toString_eq, String.toList_ofList]
  exact .number Nat.toDigits_ne_nil (isDigit_toDigits n)

theorem valueOf_toString (hv : 0 ≤ v) : (valueOf (toString v).toList : Int) = v := by
  obtain ⟨n, rfl⟩ := Int.eq_ofNat_of_zero_le hv
  rw [toString_eq, String.toList_ofList, valueOf_toDigits]

/-- The text of a number is read as the number. -/
theorem read?_toString (hv : 0 ≤ v) (hv' : v ≤ greatest) : read? (toString v) = some v := by
  have hrange : InRange v := ⟨by unfold least; omega, hv'⟩
  obtain ⟨n, rfl⟩ := Int.eq_ofNat_of_zero_le hv
  rw [read?, toString_eq, String.toList_ofList,
    readAny?_digits Nat.toDigits_ne_nil (isDigit_toDigits n), valueOf_toDigits, Option.filter_some]
  exact if_pos (decide_eq_true hrange)

end Number

/-- The word is a lexeme, and no number that is too large. -/
def IsWord (w : String) : Prop :=
  ∃ k, Lexeme.IsLexeme k w.toList ∧
    (k = .number → Number.valueOf w.toList ≤ 0x7fffffffffffffff)

/-- What a kind of token spells is a word. -/
theorem isWord_of_spelling? {k : Kind} {s : String} (h : k.spelling? = some s) : IsWord s := by
  refine ⟨k, .spelled h, ?_⟩
  rintro rfl
  exact nomatch h

theorem isWord_identifier {n : String} (h : Lexeme.IsLexeme .identifier n.toList) : IsWord n :=
  ⟨.identifier, h, nofun⟩

/-- A number without a sign is a word unless it is too large. -/
theorem isWord_number {v : Int} (hv : 0 ≤ v) (hv' : v ≤ Number.greatest) :
    IsWord (toString v) := by
  refine ⟨.number, Number.isLexeme_toString hv, fun _ => ?_⟩
  have := Number.valueOf_toString hv
  unfold Number.greatest at hv'
  omega

/-- Words are the words of lexemes of some kinds. -/
theorem exists_lexemes {words : List String} (h : ∀ w ∈ words, IsWord w) :
    ∃ ws : List (Kind × String), ws.map Prod.snd = words ∧
      (∀ w ∈ ws, Lexeme.IsLexeme w.1 w.2.toList) ∧
      ∀ w ∈ ws, w.1 = .number → Number.valueOf w.2.toList ≤ 0x7fffffffffffffff := by
  induction words with
  | nil => exact ⟨[], rfl, nofun, nofun⟩
  | cons w words ih =>
    obtain ⟨⟨k, hw, hrange⟩, hwords⟩ := List.forall_mem_cons.1 h
    obtain ⟨ws, rfl, hws, hranges⟩ := ih hwords
    exact ⟨(k, w) :: ws, rfl, List.forall_mem_cons.2 ⟨hw, hws⟩,
      List.forall_mem_cons.2 ⟨hrange, hranges⟩⟩

/-- The text of some words is made into tokens with these lexemes. -/
theorem exists_readTokens_words {words : List String} (h : ∀ w ∈ words, IsWord w) :
    ∃ ts, readTokens (" ".intercalate words) = .ok ts ∧ ts.map Token.lexeme = words := by
  obtain ⟨ws, rfl, hws, hranges⟩ := exists_lexemes h
  exact exists_readTokens_spaced hws hranges

namespace Expr

variable {e : Expr} {es : List Expr}

theorem isWord_arguments (h : ∀ e ∈ es, ∀ w ∈ e.words, IsWord w) :
    ∀ w ∈ [","].intercalate (allWords es), IsWord w := by
  induction es with
  | nil => exact nofun
  | cons e es ih =>
    obtain ⟨he, hes⟩ := List.forall_mem_cons.1 h
    cases es with
    | nil =>
      rw [allWords, allWords, List.intercalate_singleton]
      exact he
    | cons e' es =>
      have hcomma : IsWord "," := isWord_of_spelling? (k := .comma) rfl
      rw [allWords, allWords, List.intercalate_cons_cons]
      refine List.forall_mem_append.2 ⟨List.forall_mem_append.2 ⟨he, ?_⟩, ih hes⟩
      exact List.forall_mem_singleton.2 hcomma

/-- An expression of a program is written in words. -/
theorem Writable.isWord (h : e.Writable) : ∀ w ∈ e.words, IsWord w := by
  induction h with
  | name hn => exact List.forall_mem_singleton.2 (isWord_identifier hn)
  | number hv hv' => exact List.forall_mem_singleton.2 (isWord_number hv hv')
  | call hf _ ih =>
    have hopen : IsWord "(" := isWord_of_spelling? (k := .openParen) rfl
    have hclose : IsWord ")" := isWord_of_spelling? (k := .closeParen) rfl
    refine List.forall_mem_cons.2 ⟨isWord_identifier hf, List.forall_mem_cons.2 ⟨hopen, ?_⟩⟩
    exact List.forall_mem_append.2 ⟨isWord_arguments ih, List.forall_mem_singleton.2 hclose⟩
  | assign hn _ ih =>
    have hequals : IsWord "=" := isWord_of_spelling? (k := .assign) rfl
    exact List.forall_mem_cons.2 ⟨isWord_identifier hn, List.forall_mem_cons.2 ⟨hequals, ih⟩⟩

theorem isWord_statements (h : ∀ e ∈ es, e.Writable) {s : Span} :
    ∀ w ∈ (sequence ";" es s).words, IsWord w := by
  have hsemicolon : IsWord ";" := isWord_of_spelling? (k := .separator) rfl
  rw [words, allWords_eq_map]
  intro w hw
  obtain ⟨ws, hws, hw⟩ := List.mem_flatMap.1 hw
  obtain ⟨e, he, rfl⟩ := List.mem_map.1 hws
  rcases List.mem_append.1 hw with hw | hw
  · exact (h e he).isWord w hw
  · rwa [List.mem_singleton.1 hw]

end Expr

/-! ## Reading what has been written -/

open Program

variable {e : Expr} {es : List Expr} {ts : List Token}

/-- The words of the expression are read as the expression, whatever tokens they are. -/
def Expr.ReadsBack (e : Expr) : Prop :=
  ∀ ts : List Token, ts.map Token.lexeme = e.words → (∀ t ∈ ts, t.IsProper) →
    ∃ e' : Expr, Reads .expression ts [e'] ∧ e'.unspanned = e.unspanned

/-- A token that is spelled as a kind prescribes is of this kind. -/
theorem Token.IsProper.is_spelled {t : Token} {k : Kind} (ht : t.IsProper)
    (hk : k.spelling? = some t.lexeme) : t.is k :=
  ht.is (.spelled hk)

/-- Arguments with commas between them are read back. -/
theorem exists_reads_arguments (hne : es ≠ []) (h : ∀ e ∈ es, e.ReadsBack)
    (hts : ts.map Token.lexeme = [","].intercalate (Expr.allWords es))
    (hproper : ∀ t ∈ ts, t.IsProper) :
    ∃ es', Reads .parameters ts es' ∧ es'.map Expr.unspanned = es.map Expr.unspanned := by
  induction es generalizing ts with
  | nil => exact absurd rfl hne
  | cons e es ih =>
    obtain ⟨he, hes⟩ := List.forall_mem_cons.1 h
    cases es with
    | nil =>
      rw [Expr.allWords, Expr.allWords, List.intercalate_singleton] at hts
      obtain ⟨e', hread, hsame⟩ := he ts hts hproper
      exact ⟨[e'], .argument hread, congrArg (· :: []) hsame⟩
    | cons e₁ es =>
      rw [Expr.allWords, Expr.allWords, List.intercalate_cons_cons, List.append_assoc] at hts
      obtain ⟨us, vs, rfl, hus, hvs⟩ := List.map_eq_append_iff.1 hts
      obtain ⟨t, vs, rfl, ht, hvs⟩ := List.map_eq_cons_iff.1 hvs
      obtain ⟨hproper, hproper'⟩ := List.forall_mem_append.1 hproper
      obtain ⟨htproper, hproper'⟩ := List.forall_mem_cons.1 hproper'
      obtain ⟨e', hread, hsame⟩ := he us hus hproper
      obtain ⟨es', hreads, hsames⟩ := ih (List.cons_ne_nil _ _) hes hvs hproper'
      refine ⟨e' :: es', .arguments hread (htproper.is_spelled (ht ▸ rfl)) hreads, ?_⟩
      exact congrArg₂ List.cons hsame hsames

/-- An expression that can be written is read back. -/
theorem Expr.Writable.readsBack (h : e.Writable) : e.ReadsBack := by
  induction h with
  | name hn =>
    intro ts hts hproper
    obtain ⟨t, rfl, rfl⟩ := List.map_eq_singleton_iff.1 hts
    have ht := (List.forall_mem_singleton.1 hproper).is hn
    exact ⟨_, .rvalue (.lvalue (.name ht)), rfl⟩
  | number hv hv' =>
    intro ts hts hproper
    obtain ⟨t, rfl, ht⟩ := List.map_eq_singleton_iff.1 hts
    have hnumber := Number.isLexeme_toString hv
    have hvalue := Number.read?_toString hv hv'
    rw [← ht] at hnumber hvalue
    exact ⟨_, .rvalue (.number ((List.forall_mem_singleton.1 hproper).is hnumber) hvalue), rfl⟩
  | @call f args s hf _ ih =>
    intro ts hts hproper
    obtain ⟨x, ts₁, rfl, rfl, hts₁⟩ := List.map_eq_cons_iff.1 hts
    obtain ⟨o, ts₂, rfl, ho, hts₂⟩ := List.map_eq_cons_iff.1 hts₁
    obtain ⟨us, vs, rfl, hus, hvs⟩ := List.map_eq_append_iff.1 hts₂
    obtain ⟨c, rfl, hc⟩ := List.map_eq_singleton_iff.1 hvs
    obtain ⟨hx, hproper⟩ := List.forall_mem_cons.1 hproper
    obtain ⟨hoproper, hproper⟩ := List.forall_mem_cons.1 hproper
    obtain ⟨husproper, hcproper⟩ := List.forall_mem_append.1 hproper
    have hopen : o.is .openParen := hoproper.is_spelled (ho ▸ rfl)
    have hclose : c.is .closeParen :=
      (List.forall_mem_singleton.1 hcproper).is_spelled (hc ▸ rfl)
    by_cases hargs : args = []
    · subst hargs
      obtain rfl := List.map_eq_nil_iff.1 hus
      exact ⟨_, .rvalue (.emptyCall (hx.is hf) hopen hclose), rfl⟩
    · obtain ⟨es', hreads, hsame⟩ := exists_reads_arguments hargs ih hus husproper
      refine ⟨_, .rvalue (.call (hx.is hf) hopen hreads hclose), ?_⟩
      rw [unspanned, unspanned, unspannedAll_eq_map, unspannedAll_eq_map, hsame]
  | assign hn _ ih =>
    intro ts hts hproper
    obtain ⟨x, ts₁, rfl, rfl, hts₁⟩ := List.map_eq_cons_iff.1 hts
    obtain ⟨t, ts₂, rfl, ht, hts₂⟩ := List.map_eq_cons_iff.1 hts₁
    obtain ⟨hx, hproper⟩ := List.forall_mem_cons.1 hproper
    obtain ⟨htproper, hproper⟩ := List.forall_mem_cons.1 hproper
    obtain ⟨r, hread, hsame⟩ := ih ts₂ hts₂ hproper
    refine ⟨_, .assign (.name (hx.is hn)) (htproper.is_spelled (ht ▸ rfl)) hread, ?_⟩
    rw [unspanned, unspanned, unspanned, unspanned, hsame]

/-- Statements with a separator behind each of them are read back. -/
theorem exists_reads_compound (hne : es ≠ []) (h : ∀ e ∈ es, e.ReadsBack)
    (hts : ts.map Token.lexeme = (Expr.allWords es).flatMap (· ++ [";"]))
    (hproper : ∀ t ∈ ts, t.IsProper) :
    ∃ es', Reads .compound ts es' ∧ es'.map Expr.unspanned = es.map Expr.unspanned := by
  induction es generalizing ts with
  | nil => exact absurd rfl hne
  | cons e es ih =>
    obtain ⟨he, hes⟩ := List.forall_mem_cons.1 h
    rw [Expr.allWords, List.flatMap_cons, List.append_assoc] at hts
    obtain ⟨us, vs, rfl, hus, hvs⟩ := List.map_eq_append_iff.1 hts
    obtain ⟨t, vs, rfl, ht, hvs⟩ := List.map_eq_cons_iff.1 hvs
    obtain ⟨husproper, hproper⟩ := List.forall_mem_append.1 hproper
    obtain ⟨htproper, hvsproper⟩ := List.forall_mem_cons.1 hproper
    have hsemicolon : t.is .separator := htproper.is_spelled (ht ▸ rfl)
    obtain ⟨e', hread, hsame⟩ := he us hus husproper
    by_cases hnil : es = []
    · subst hnil
      obtain rfl := List.map_eq_nil_iff.1 hvs
      exact ⟨[e'], .last hread hsemicolon, congrArg (· :: []) hsame⟩
    · obtain ⟨es', hreads, hsames⟩ := ih hnil hes hvs hvsproper
      exact ⟨e' :: es', .more hread hsemicolon hreads, congrArg₂ List.cons hsame hsames⟩

theorem exists_statements (h : ∀ e ∈ es, e.ReadsBack)
    (hts : ts.map Token.lexeme = (Expr.allWords es).flatMap (· ++ [";"]))
    (hproper : ∀ t ∈ ts, t.IsProper) :
    ∃ es', Statements ts es' ∧ es'.map Expr.unspanned = es.map Expr.unspanned := by
  by_cases hnil : es = []
  · subst hnil
    obtain rfl := List.map_eq_nil_iff.1 hts
    exact ⟨[], .none, rfl⟩
  · obtain ⟨es', hreads, hsame⟩ := exists_reads_compound hnil h hts hproper
    exact ⟨es', .some hreads, hsame⟩

/-- A sequence of expressions that can be written is parsed from its text, up to the spans. -/
theorem parseProgram_text (es : List Expr) (s : Span) (h : ∀ e ∈ es, e.Writable) (name : String) :
    ∃ e, parseProgram ⟨name, (Expr.sequence ";" es s).text⟩ = .ok e ∧
      e.unspanned = (Expr.sequence ";" es s).unspanned := by
  obtain ⟨ts, htokens, hts⟩ := exists_readTokens_words (Expr.isWord_statements h (s := s))
  obtain ⟨es', hstatements, hsame⟩ := exists_statements (fun e he => (h e he).readsBack) hts
    (isProper_of_readTokens htokens)
  refine ⟨_, parseProgram_eq_ok_iff.2 ⟨ts, es', htokens, hstatements, rfl⟩, ?_⟩
  simp only [Expr.unspanned, Expr.unspannedAll_eq_map, hsame]

/-- Names may start with a keyword, and the greatest number is one that can be written. -/
theorem parseProgram_text_keywords :
    let call : Expr :=
      .call "externs" [.number 0x7fffffffffffffff .zero, .call "define" [] .zero] .zero
    let assign : Expr := .binary Kind.assign.id "=" (.name "define" .zero) call .zero
    let program : Expr := .sequence ";" [assign, .name "externs" .zero] .zero
    assign.Writable ∧ (Expr.name "externs" .zero).Writable ∧
      program.text = "define = externs ( 9223372036854775807 , define ( ) ) ; externs ;" ∧
      ∃ e, parseProgram ⟨"a", program.text⟩ = .ok e ∧ e.unspanned = program.unspanned := by
  intro call assign program
  have hdefine : Lexeme.IsLexeme .identifier "define".toList := by
    rw [show "define".toList = ['d', 'e', 'f', 'i', 'n', 'e'] by simp]
    exact .identifier (.inl (by decide)) (by simp) (by simp)
  have hexterns : Lexeme.IsLexeme .identifier "externs".toList := by
    rw [show "externs".toList = ['e', 'x', 't', 'e', 'r', 'n', 's'] by simp]
    exact .identifier (.inl (by decide)) (by simp) (by simp)
  have hcall : call.Writable := by
    refine .call hexterns (List.forall_mem_cons.2 ⟨.number (by decide) (by decide), ?_⟩)
    exact List.forall_mem_singleton.2 (.call hdefine nofun)
  have hassign : assign.Writable := .assign hdefine hcall
  refine ⟨hassign, .name hexterns, by cbv, parseProgram_text _ _ ?_ _⟩
  exact List.forall_mem_cons.2 ⟨hassign, List.forall_mem_singleton.2 (.name hexterns)⟩

end Frontend
