import Frontend.Proofs.Program.Agreement
import Frontend.Proofs.Program.Statements
import Frontend.Proofs.Token.Slice

/-!
# The extent of expressions

An expression covers exactly the tokens that it is built from, whether its span is that of a token,
joins those of its operands or reaches from one parenthesis to the other (`Built.span_eq`). Every
expression inside it is built from some of these tokens alone (`Built.exists_within`). As they
stand one after the other, operands and arguments do so, too, inside of what they belong to.

How an expression is built does not depend on where its tokens stand (`Built.unmoved`), and a
text can be cut at any of its tokens. So whatever stands in a parsed expression is parsed again
from the part of the text that it covers, with its spans counted from there
(`parseExpression_spans`).
-/

namespace Frontend

/-- If an expression is made from some tokens, and each child of what is made is made from some of
    the tokens, everything inside the expression is. -/
theorem Expr.Within.exists_isInfix {R : List Token → Expr → Prop} {n e : Expr} {ts : List Token}
    (h : n.Within e) (he : R ts e)
    (hchild : ∀ ts e c, R ts e → c ∈ e.children → ∃ us, us <:+: ts ∧ R us c) :
    ∃ us, us <:+: ts ∧ R us n := by
  have hstep {e c : Expr} {ts : List Token} (hc : c ∈ e.children) (he : R ts e)
      (ih : ∀ {us}, R us c → ∃ vs, vs <:+: us ∧ R vs n) : ∃ vs, vs <:+: ts ∧ R vs n := by
    obtain ⟨us, hus, hc⟩ := hchild ts e c he hc
    obtain ⟨vs, hvs, hn⟩ := ih hc
    exact ⟨vs, hvs.trans hus, hn⟩
  induction h generalizing ts with
  | refl => exact ⟨ts, List.infix_refl ts, he⟩
  | left _ ih => exact hstep (by simp [children]) he ih
  | right _ ih => exact hstep (by simp [children]) he ih
  | inner _ ih => exact hstep (by simp [children]) he ih
  | argument hmem _ ih => exact hstep hmem he ih
  | element hmem _ ih => exact hstep hmem he ih

/-- What is moved to a single expression is a single expression. -/
theorem Expr.exists_of_map_shift {P : List Expr → Prop} {e : Expr} {offset : Nat}
    (h : ∃ es, P es ∧ es.map (shift offset) = [e]) : ∃ e', P [e'] ∧ e'.shift offset = e := by
  obtain ⟨es, hes, hshift⟩ := h
  obtain ⟨e', rfl, he'⟩ := List.map_eq_singleton_iff.1 hshift
  exact ⟨e', hes, he'⟩

namespace Expression

variable {table : OperatorTable} {es : List Expr} {e n : Expr} {ts us opened opened' : List Token}
  {i offset : Nat} {best : Option (Nat × Int)} {point : Option Nat}

/-! ## Tokens that stand elsewhere -/

/-- Where the tokens stand makes no difference to a scan that succeeds. -/
theorem scanSplit_moved (h : List.Forall₂ (Token.Moved offset) ts us)
    (hopened : opened'.length = opened.length)
    (hscan : table.scanSplit i opened best us = .ok point) :
    table.scanSplit i opened' best ts = .ok point := by
  induction h generalizing i opened opened' best with
  | nil =>
    rw [OperatorTable.scanSplit] at hscan
    split at hscan
    · cases hscan
    · next hnone =>
      rw [List.getLast?_eq_none_iff.1 hnone] at hopened
      rw [List.length_eq_zero_iff.1 hopened]
      exact hscan
  | @cons t u ts us ht _ ih =>
    rw [OperatorTable.scanSplit.eq_def] at hscan
    dsimp only at hscan
    split at hscan
    · next ho =>
      rw [scanSplit_open ((ht.is_iff _).2 ho)]
      exact ih (by rw [List.length_cons, List.length_cons, hopened]) hscan
    · next ho =>
      split at hscan
      · next hc =>
        split at hscan
        · cases hscan
        · obtain ⟨o', opened', rfl⟩ := List.exists_cons_of_length_eq_add_one hopened
          rw [scanSplit_close ((ht.is_iff _).2 hc)]
          exact ih (Nat.succ.inj hopened) hscan
      · next hc =>
        split at hscan
        · next hskip =>
          rw [scanSplit_skip (mt (ht.is_iff _).1 ho) (mt (ht.is_iff _).1 hc)]
          · exact ih hopened hscan
          · rintro hoperator rfl
            rw [← ht.id_eq] at hoperator
            rw [List.length_eq_zero_iff.1 hopened.symm, hoperator] at hskip
            exact absurd hskip (by decide)
        · next hskip =>
          obtain ⟨rfl, hoperator⟩ : opened = [] ∧ isBinaryOperator u.id := by
            simpa using hskip
          obtain rfl := List.length_eq_zero_iff.1 hopened
          split at hscan
          · cases hscan
          · next b hb =>
            rw [ht.id_eq] at hoperator hb
            rw [scanSplit_operator hoperator hb]
            exact ih rfl hscan

/-- Tokens that stand elsewhere are split at the same place. -/
theorem splitPoint_moved (h : List.Forall₂ (Token.Moved offset) ts us)
    (hsplit : table.splitPoint us = .ok point) : table.splitPoint ts = .ok point :=
  scanSplit_moved h rfl hsplit

/-- Tokens that stand elsewhere are built into the same expressions, elsewhere. -/
theorem Built.unmoved (h : Built table es us) (hts : List.Forall₂ (Token.Moved offset) ts us) :
    ∃ es', Built table es' ts ∧ es'.map (Expr.shift offset) = es := by
  induction h generalizing ts with
  | @name u hu =>
    obtain ⟨t, rfl, ht⟩ := eq_singleton_of_moved hts
    refine ⟨_, .name ((ht.is_iff _).2 hu), ?_⟩
    simp [Expr.shift, ht.lexeme_eq, ht.span_eq]
  | @number u v hu hv =>
    obtain ⟨t, rfl, ht⟩ := eq_singleton_of_moved hts
    refine ⟨_, .number ((ht.is_iff _).2 hu) (ht.lexeme_eq ▸ hv), ?_⟩
    simp [Expr.shift, ht.span_eq]
  | @binary l r u us vs hsplit _ _ ihl ihr =>
    obtain ⟨ts₁, t, ts₂, rfl, hts₁, ht, hts₂⟩ := eq_separated_of_moved hts
    obtain ⟨l', hl, rfl⟩ := Expr.exists_of_map_shift (ihl hts₁)
    obtain ⟨r', hr, rfl⟩ := Expr.exists_of_map_shift (ihr hts₂)
    refine ⟨_, .binary (hts₁.length_eq ▸ splitPoint_moved hts hsplit) hl hr, ?_⟩
    simp [Expr.shift, Expr.span_shift, Span.shift_join, ht.id_eq, ht.lexeme_eq]
  | group ho _ hc ih =>
    obtain ⟨o', us', c', rfl, ho', hus, hc'⟩ := eq_enclosed_of_moved hts
    obtain ⟨e', he, rfl⟩ := Expr.exists_of_map_shift (ih hus)
    refine ⟨_, .group ((ho'.is_iff _).2 ho) he ((hc'.is_iff _).2 hc), ?_⟩
    simp [Expr.shift, Span.shift_join, ho'.span_eq, hc'.span_eq]
  | emptyCall hf ho hc =>
    obtain ⟨f', _, hf', htail, rfl⟩ := List.forall₂_cons_right_iff.1 hts
    obtain ⟨o', _, ho', hlast, rfl⟩ := List.forall₂_cons_right_iff.1 htail
    obtain ⟨c', rfl, hc'⟩ := eq_singleton_of_moved hlast
    refine ⟨_, .emptyCall ((hf'.is_iff _).2 hf) ((ho'.is_iff _).2 ho) ((hc'.is_iff _).2 hc), ?_⟩
    simp [Expr.shift, Expr.shiftAll, Span.shift_join, hf'.span_eq, hf'.lexeme_eq, hc'.span_eq]
  | call hf ho _ hc ih =>
    obtain ⟨f', _, hf', htail, rfl⟩ := List.forall₂_cons_right_iff.1 hts
    obtain ⟨o', us', c', rfl, ho', hus, hc'⟩ := eq_enclosed_of_moved htail
    obtain ⟨es', hes, rfl⟩ := ih hus
    refine ⟨_, .call ((hf'.is_iff _).2 hf) ((ho'.is_iff _).2 ho) hes ((hc'.is_iff _).2 hc), ?_⟩
    simp [Expr.shift, Expr.shiftAll_eq_map, Span.shift_join, hf'.span_eq, hf'.lexeme_eq,
      hc'.span_eq]
  | comma _ hu _ ih ihes =>
    obtain ⟨ts₁, t, ts₂, rfl, hts₁, ht, hts₂⟩ := eq_separated_of_moved hts
    obtain ⟨e', he, rfl⟩ := Expr.exists_of_map_shift (ih hts₁)
    obtain ⟨es', hes, rfl⟩ := ihes hts₂
    exact ⟨e' :: es', .comma he ((ht.is_iff _).2 hu) hes, rfl⟩

/-! ## What an expression covers -/

theorem Built.tokens_ne_nil (h : Built table es ts) : ts ≠ [] := h.spells.tokens_ne_nil

/-- An expression covers the tokens that it is built from. -/
theorem Built.span_eq (h : Built table es ts) (hts : InOrder ts) :
    ∀ e, es = [e] → e.span = extent ts := by
  induction h with
  | name ht => rintro _ ⟨⟩; rfl
  | number ht hv => rintro _ ⟨⟩; rfl
  | @binary l r t ts us _ hl hr ihl ihr =>
    rintro _ ⟨⟩
    have hleft := ihl (hts.of_isInfix (List.prefix_append ts _).isInfix) l rfl
    have hright := ihr (hts.of_isInfix ⟨ts ++ [t], [], by simp⟩) r rfl
    rw [Expr.span, hleft, hright]
    exact hts.join_extent ts [t] us hl.tokens_ne_nil hr.tokens_ne_nil
  | @group e o c ts _ _ _ _ =>
    rintro _ ⟨⟩
    exact hts.join_extent [o] ts [c] (List.cons_ne_nil _ _) (List.cons_ne_nil _ _)
  | @emptyCall f o c _ _ _ =>
    rintro _ ⟨⟩
    exact hts.join_extent [f] [o] [c] (List.cons_ne_nil _ _) (List.cons_ne_nil _ _)
  | @call es f o c ts _ _ _ _ _ =>
    rintro _ ⟨⟩
    exact hts.join_extent [f] (o :: ts) [c] (List.cons_ne_nil _ _) (List.cons_ne_nil _ _)
  | comma _ _ hes _ _ =>
    rintro _ ⟨⟩
    exact absurd rfl hes.exprs_ne_nil

/-- Each of some expressions is built from some of the tokens. -/
theorem Built.exists_of_mem (h : Built table es ts) (he : e ∈ es) :
    ∃ us, us <:+: ts ∧ Built table [e] us := by
  induction es generalizing ts with
  | nil => exact absurd he List.not_mem_nil
  | cons e' es ih =>
    cases es with
    | nil =>
      obtain rfl := List.mem_singleton.1 he
      exact ⟨ts, List.infix_refl ts, h⟩
    | cons e'' es =>
      cases h with
      | @comma _ _ t us vs he' _ hes =>
        rcases List.mem_cons.1 he with rfl | he
        · exact ⟨us, (List.prefix_append us _).isInfix, he'⟩
        · obtain ⟨ws, hws, hbuilt⟩ := ih hes he
          exact ⟨ws, hws.trans ⟨us ++ [t], [], by simp⟩, hbuilt⟩

/-- An expression is built from some of the tokens of its parent. -/
theorem Built.exists_child (h : Built table [e] ts) (hn : n ∈ e.children) :
    ∃ us, us <:+: ts ∧ Built table [n] us := by
  cases h with
  | name _ => exact absurd hn List.not_mem_nil
  | number _ _ => exact absurd hn List.not_mem_nil
  | @binary l r t us vs _ hl hr =>
    rcases List.mem_cons.1 hn with rfl | hn
    · exact ⟨us, (List.prefix_append us _).isInfix, hl⟩
    · obtain rfl := List.mem_singleton.1 hn
      exact ⟨vs, ⟨us ++ [t], [], by simp⟩, hr⟩
  | @group e o c us _ he _ =>
    obtain rfl := List.mem_singleton.1 hn
    exact ⟨us, ⟨[o], [c], rfl⟩, he⟩
  | emptyCall _ _ _ => exact absurd hn List.not_mem_nil
  | @call es f o c us _ _ hes _ =>
    obtain ⟨vs, hvs, hbuilt⟩ := hes.exists_of_mem hn
    exact ⟨vs, hvs.trans ⟨[f, o], [c], rfl⟩, hbuilt⟩
  | comma _ _ hes => exact absurd rfl hes.exprs_ne_nil

/-- Every expression inside of what is built is built from some of its tokens. -/
theorem Built.exists_within (h : Built table [e] ts) (hn : n.Within e) :
    ∃ us, us <:+: ts ∧ Built table [n] us :=
  hn.exists_isInfix (R := fun ts e => Built table [e] ts) h fun _ _ _ => Built.exists_child

/-- Expressions that are built together stand one after the other. -/
theorem Built.pairwise (h : Built table es ts) (hts : InOrder ts) :
    es.Pairwise fun a b => a.span.stop ≤ b.span.start := by
  induction es generalizing ts with
  | nil => exact .nil
  | cons e es ih =>
    cases es with
    | nil => exact List.pairwise_singleton _ _
    | cons e' es =>
      cases h with
      | @comma _ _ t us vs he _ hes =>
        have hus := hts.of_isInfix (List.prefix_append us _).isInfix
        have hvs : vs <:+: t :: vs := (List.suffix_cons t vs).isInfix
        refine List.pairwise_cons.2
          ⟨fun a ha => ?_, ih hes (hts.of_isInfix ⟨us ++ [t], [], by simp⟩)⟩
        obtain ⟨ws, hws, hbuilt⟩ := hes.exists_of_mem ha
        have hws' := hts.of_isInfix (hws.trans ⟨us ++ [t], [], by simp⟩)
        rw [he.span_eq hus e rfl, hbuilt.span_eq hws' a rfl]
        exact hts.extent_before (hws.trans hvs) he.tokens_ne_nil hbuilt.tokens_ne_nil

/-- The expressions below a root stand one after the other. -/
theorem Built.pairwise_children (h : Built table [e] ts) (hts : InOrder ts) :
    e.children.Pairwise fun a b => a.span.stop ≤ b.span.start := by
  cases h with
  | name _ => exact .nil
  | number _ _ => exact .nil
  | @binary l r t us vs _ hl hr =>
    have hvs : vs <:+: t :: vs := (List.suffix_cons t vs).isInfix
    have hleft := hl.span_eq (hts.of_isInfix (List.prefix_append us _).isInfix) l rfl
    have hright := hr.span_eq (hts.of_isInfix ⟨us ++ [t], [], by simp⟩) r rfl
    refine List.pairwise_pair.2 ?_
    rw [hleft, hright]
    exact hts.extent_before hvs hl.tokens_ne_nil hr.tokens_ne_nil
  | group _ _ _ => exact List.pairwise_singleton _ _
  | emptyCall _ _ _ => exact .nil
  | @call es f o c us _ _ hes _ => exact hes.pairwise (hts.of_isInfix ⟨[f, o], [c], rfl⟩)
  | comma _ _ hes => exact absurd rfl hes.exprs_ne_nil

theorem dropSeparator_isInfix (ts : List Token) : dropSeparator ts <:+: ts := by
  unfold dropSeparator
  split
  · split
    · exact (List.dropLast_prefix ts).isInfix
    · exact List.infix_refl ts
  · exact List.infix_refl ts

/-- What is built does not end with a separator. -/
theorem Built.dropSeparator_eq (h : Built table es ts) : dropSeparator ts = ts := by
  unfold dropSeparator
  split
  · next t hlast => exact if_neg (h.spells.not_separator t (List.mem_of_getLast? hlast))
  · rfl

end Expression

open Expression

/-- A text is parsed into what is built from its tokens, without a `;` at the end. -/
theorem parseExpression_eq_ok_iff {source : Source} {table : OperatorTable} {e : Expr} :
    parseExpression source table = .ok e ↔ ∃ tokens, readTokens source.content = .ok tokens ∧
      Built table [e] (dropSeparator tokens) := by
  rw [parseExpression, bind_eq_ok_iff]
  refine exists_congr fun tokens => and_congr tokenize_eq_ok_iff ?_
  rw [mapError_eq_ok_iff, build_eq_ok_iff]

/-- Everything in a parsed expression covers a slice of its text, and this slice alone is parsed
    into the same expression, with its spans counted from the beginning of the slice. What stands
    directly below it covers parts of the slice, one after the other. -/
theorem parseExpression_spans (source : Source) (table : OperatorTable) (e n : Expr)
    (h : parseExpression source table = .ok e) (hn : n.Within e) :
    (∃ part n', n.span.Covers source.content part ∧ n'.shift n.span.start = n ∧
      ∀ name, parseExpression ⟨name, part⟩ table = .ok n') ∧
    (∀ c ∈ n.children, n.span.start ≤ c.span.start ∧ c.span.stop ≤ n.span.stop) ∧
    n.children.Pairwise fun a b => a.span.stop ≤ b.span.start := by
  obtain ⟨tokens, htokens, hbuilt⟩ := parseExpression_eq_ok_iff.1 h
  obtain ⟨us, hus, hbuilt⟩ := hbuilt.exists_within hn
  obtain ⟨ts, vs, heq⟩ : us <:+: tokens := hus.trans (dropSeparator_isInfix tokens)
  have horder := (inOrder_of_readTokens htokens).of_isInfix ⟨ts, vs, heq⟩
  have hspan := hbuilt.span_eq horder n rfl
  refine ⟨?_, fun c hc => ?_, hbuilt.pairwise_children horder⟩
  · rw [← heq, List.append_assoc] at htokens
    obtain ⟨part, us', -, hcovers, hmoved, hpart, -⟩ := exists_slice htokens hbuilt.tokens_ne_nil
    obtain ⟨n', hbuilt', hn'⟩ := Expr.exists_of_map_shift (hbuilt.unmoved hmoved)
    rw [hspan]
    refine ⟨part, n', hcovers, hn', fun name => parseExpression_eq_ok_iff.2 ⟨us', hpart, ?_⟩⟩
    rwa [hbuilt'.dropSeparator_eq]
  · obtain ⟨ws, hws, hchild⟩ := hbuilt.exists_child hc
    rw [hspan, hchild.span_eq (horder.of_isInfix hws) c rfl]
    exact horder.extent_le hws hchild.tokens_ne_nil

/-- A call with a group in it, behind a comment with an `é` of two bytes. -/
theorem parseExpression_spans_call :
    let source : Source := ⟨"a", "# é\nx = f(y, (z))"⟩
    let group (i : Nat) : Expr := .group (.name "z" ⟨i + 6, i + 7⟩) ⟨i + 5, i + 8⟩
    let call (i : Nat) : Expr := .call "f" [.name "y" ⟨i + 2, i + 3⟩, group i] ⟨i, i + 9⟩
    let e : Expr := .binary Kind.assign.id "=" (.name "x" ⟨5, 6⟩) (call 9) ⟨5, 18⟩
    parseExpression source .standard = .ok e ∧ (call 9).Within e ∧
      (call 9).span.Covers source.content "f(y, (z))" ∧ (call 0).shift 9 = call 9 ∧
      (∀ name, parseExpression ⟨name, "f(y, (z))"⟩ .standard = .ok (call 0)) ∧
      (Expr.name "y" ⟨11, 12⟩).span.stop ≤ (group 9).span.start := by
  intro source group call e
  have hparse : parseExpression source .standard = .ok e := by cbv
  have hcall : (call 9).Within e := .right .refl
  obtain ⟨⟨part, n', hcovers, hn', hpart⟩, -, hpairwise⟩ :=
    parseExpression_spans source .standard e (call 9) hparse hcall
  have hslice : (call 9).span.Covers source.content "f(y, (z))" :=
    ⟨"# é\nx = ", "", by cbv, by cbv⟩
  obtain rfl := hcovers.unique hslice
  have halone : parseExpression ⟨"a", "f(y, (z))"⟩ .standard = .ok (call 0) := by cbv
  obtain rfl := Except.ok.inj ((hpart "a").symm.trans halone)
  obtain ⟨hbefore, -⟩ := List.pairwise_cons.1 hpairwise
  exact ⟨hparse, hcall, hslice, hn', hpart, hbefore (group 9) (List.mem_singleton_self _)⟩

end Frontend
