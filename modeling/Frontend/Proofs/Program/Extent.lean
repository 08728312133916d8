import Frontend.Proofs.Expression.Extent
import Frontend.Proofs.Expression.Written
import Frontend.Proofs.Program.MissingSeparator

/-!
# The extent of statements

The span of a call in a program joins those of its name and of its arguments, so it ends before
the `)`. Therefore what is read from some tokens covers them from the first one on, and up to the
last one exactly if there is no call in it (`Reads.exists_extent`): an assignment ends where its
right operand does, so it may end with a call, and with a call in an argument of this call.

What is read does not depend on where its tokens stand (`Reads.unmoved`), so everything in a
program is read again as a program of its own from the text between its first and its last token.
From the part of the text that it covers it is read again only if it contains no call
(`parseProgram_spans`).
-/

namespace Frontend

namespace Expr

/-- There is no call in the expression. -/
def CallFree (e : Expr) : Prop := ∀ f es s, ¬(call f es s).Within e

/-- The part of the text at the span, when it is ended by a separator, is a program that consists
    of the expression alone, with its spans counted from the beginning of the part. -/
def StandsAlone (n : Expr) (text : String) (s : Span) : Prop :=
  ∃ part n', s.Covers text part ∧ n'.shift s.start = n ∧
    ∀ name, parseProgram ⟨name, part ++ ";"⟩ = .ok (sequence ";" [n'] n'.span)

variable {x : String} {o : Nat} {n : String} {v : Int} {s s' : Span} {r e : Expr} {es : List Expr}

theorem callFree_name : (name n s).CallFree := by
  rintro f es s' ⟨⟩

theorem callFree_number : (number v s).CallFree := by
  rintro f es s' ⟨⟩

theorem not_callFree_call : ¬(call x es s).CallFree := fun h => h x es s .refl

theorem callFree_assign_iff : (binary o x (name n s') r s).CallFree ↔ r.CallFree := by
  constructor
  · exact fun h f es s hcall => h f es s (.right hcall)
  · rintro h f es s (_ | hcall | hcall)
    · exact callFree_name f es s hcall
    · exact h f es s hcall

mutual

/-- Moved expressions are written out in the same way. -/
theorem marks_shift (offset : Nat) : ∀ e : Expr, (e.shift offset).marks = e.marks
  | name _ _ | number _ _ => rfl
  | binary _ _ l r _ => by rw [shift, marks, marks, marks_shift offset l, marks_shift offset r]
  | group e _ => by rw [shift, marks, marks, marks_shift offset e]
  | call _ es _ => by rw [shift, marks, marks, marksSeparated_shiftAll offset es]
  | sequence _ es _ => by rw [shift, marks, marks, marksEnded_shiftAll offset _ es]

theorem marksSeparated_shiftAll (offset : Nat) :
    ∀ es : List Expr, marksSeparated (shiftAll offset es) = marksSeparated es
  | [] => rfl
  | [e] => marks_shift offset e
  | e :: e' :: es => by
    rw [marksSeparated, ← marks_shift offset e, ← marksSeparated_shiftAll offset (e' :: es)]
    rfl

theorem marksEnded_shiftAll (offset : Nat) (x : String) :
    ∀ es : List Expr, marksEnded x (shiftAll offset es) = marksEnded x es
  | [] => rfl
  | e :: es => by
    rw [shiftAll, marksEnded, marksEnded, marks_shift offset e, marksEnded_shiftAll offset x es]

end

end Expr

theorem Span.join_joinAll (s s' : Span) (spans : List Span) :
    (s.join s').joinAll spans = s.join (s'.joinAll spans) := by
  induction spans generalizing s' with
  | nil => rfl
  | cons s'' spans ih => exact (congrArg (joinAll · spans) (join_assoc s s' s'')).trans (ih _)

/-- The span of an expression and some others after it. -/
theorem Expr.joinAll_spans {es : List Expr} (s : Span) (hne : es ≠ []) :
    s.joinAll (es.map span) = s.join (spanAll es) := by
  obtain ⟨e, es, rfl⟩ := List.exists_cons_of_ne_nil hne
  exact Span.join_joinAll s e.span _

namespace Program

variable {p : Part} {ts us : List Token} {es : List Expr} {e n : Expr} {offset : Nat}

/-- Tokens that stand elsewhere are read as the same expressions, elsewhere. -/
theorem Reads.unmoved (h : Reads p us es) (hp : p.IsInner)
    (hts : List.Forall₂ (Token.Moved offset) ts us) :
    ∃ es', Reads p ts es' ∧ es'.map (Expr.shift offset) = es := by
  induction h generalizing ts with
  | topLevel _ _ => exact absurd rfl hp.1
  | last _ _ _ => exact absurd rfl hp.2
  | more _ _ _ _ _ => exact absurd rfl hp.2
  | assign _ hu _ ihl ihr =>
    obtain ⟨ts₁, t, ts₂, rfl, hts₁, ht, hts₂⟩ := eq_separated_of_moved hts
    obtain ⟨l', hl, rfl⟩ := Expr.exists_of_map_shift (ihl (by decide) hts₁)
    obtain ⟨r', hr, rfl⟩ := Expr.exists_of_map_shift (ihr (by decide) hts₂)
    refine ⟨_, .assign hl ((ht.is_iff _).2 hu) hr, ?_⟩
    simp [Expr.shift, Expr.span_shift, Span.shift_join]
  | rvalue _ ih =>
    obtain ⟨e', he, rfl⟩ := Expr.exists_of_map_shift (ih (by decide) hts)
    exact ⟨_, .rvalue he, rfl⟩
  | call hf ho _ hc ih =>
    obtain ⟨f', _, hf', htail, rfl⟩ := List.forall₂_cons_right_iff.1 hts
    obtain ⟨o', us', c', rfl, ho', hus, hc'⟩ := eq_enclosed_of_moved htail
    obtain ⟨es', hes, rfl⟩ := ih (by decide) hus
    refine ⟨_, .call ((hf'.is_iff _).2 hf) ((ho'.is_iff _).2 ho) hes ((hc'.is_iff _).2 hc), ?_⟩
    rw [List.map_singleton, Expr.shift, Expr.shiftAll_eq_map, Span.shift_joinAll,
      ← Expr.map_span_shift, hf'.span_eq, hf'.lexeme_eq]
  | emptyCall hf ho hc =>
    obtain ⟨f', _, hf', htail, rfl⟩ := List.forall₂_cons_right_iff.1 hts
    obtain ⟨o', _, ho', hlast, rfl⟩ := List.forall₂_cons_right_iff.1 htail
    obtain ⟨c', rfl, hc'⟩ := eq_singleton_of_moved hlast
    refine ⟨_, .emptyCall ((hf'.is_iff _).2 hf) ((ho'.is_iff _).2 ho) ((hc'.is_iff _).2 hc), ?_⟩
    simp [Expr.shift, Expr.shiftAll, hf'.span_eq, hf'.lexeme_eq]
  | lvalue _ ih =>
    obtain ⟨e', he, rfl⟩ := Expr.exists_of_map_shift (ih (by decide) hts)
    exact ⟨_, .lvalue he, rfl⟩
  | number hu hv =>
    obtain ⟨t, rfl, ht⟩ := eq_singleton_of_moved hts
    refine ⟨_, .number ((ht.is_iff _).2 hu) (ht.lexeme_eq ▸ hv), ?_⟩
    simp [Expr.shift, ht.span_eq]
  | name hu =>
    obtain ⟨t, rfl, ht⟩ := eq_singleton_of_moved hts
    refine ⟨_, .name ((ht.is_iff _).2 hu), ?_⟩
    simp [Expr.shift, ht.lexeme_eq, ht.span_eq]
  | argument _ ih =>
    obtain ⟨e', he, rfl⟩ := Expr.exists_of_map_shift (ih (by decide) hts)
    exact ⟨_, .argument he, rfl⟩
  | arguments _ hu _ ih ihes =>
    obtain ⟨ts₁, t, ts₂, rfl, hts₁, ht, hts₂⟩ := eq_separated_of_moved hts
    obtain ⟨e', he, rfl⟩ := Expr.exists_of_map_shift (ih (by decide) hts₁)
    obtain ⟨es', hes, rfl⟩ := ihes (by decide) hts₂
    exact ⟨e' :: es', .arguments he ((ht.is_iff _).2 hu) hes, rfl⟩

/-! ## What an expression covers -/

theorem Reads.tokens_ne_nil (h : Reads p ts es) : ts ≠ [] := by
  obtain ⟨t, us, rfl, -⟩ := h.head
  exact List.cons_ne_nil t us

/-- An expression covers its tokens from the first one on. The last ones are left out exactly if
    there is a call in the expression. -/
theorem Reads.exists_extent (h : Reads p ts es) (hp : p.IsInner) (hts : InOrder ts) :
    ∃ us vs, ts = us ++ vs ∧ us ≠ [] ∧ Expr.spanAll es = extent us ∧
      ∀ e, es = [e] → (vs = [] ↔ e.CallFree) := by
  induction h with
  | topLevel _ _ => exact absurd rfl hp.1
  | last _ _ _ => exact absurd rfl hp.2
  | more _ _ _ _ _ => exact absurd rfl hp.2
  | @assign _ ts l r t hl _ _ _ ihr =>
    cases hl with
    | @name x _ =>
      obtain ⟨us, vs, rfl, hus, hspan, hcalls⟩ :=
        ihr (by decide) (hts.of_isInfix ⟨[x, t], [], by simp⟩)
      refine ⟨[x] ++ ([t] ++ us), vs, by simp, List.cons_ne_nil _ _, ?_, ?_⟩
      · have hjoin := (hts.of_isInfix ⟨[], vs, by simp⟩).join_extent [x] [t] us
          (List.cons_ne_nil _ _) hus
        rw [← hspan] at hjoin
        exact hjoin
      · rintro _ ⟨⟩
        exact (hcalls r rfl).trans Expr.callFree_assign_iff.symm
  | rvalue _ ih => exact ih (by decide) hts
  | @call f o c ts args _ _ hargs _ ih =>
    obtain ⟨us, vs, rfl, hus, hspan, -⟩ := ih (by decide) (hts.of_isInfix ⟨[f, o], [c], rfl⟩)
    refine ⟨[f] ++ ([o] ++ us), vs ++ [c], by simp, List.cons_ne_nil _ _, ?_, ?_⟩
    · have hjoin := (hts.of_isInfix ⟨[], vs ++ [c], by simp⟩).join_extent [f] [o] us
        (List.cons_ne_nil _ _) hus
      rw [← hspan, extent_singleton, ← Expr.joinAll_spans _ hargs.parameters_ne_nil] at hjoin
      exact hjoin
    · rintro _ ⟨⟩
      exact iff_of_false (List.append_ne_nil_of_right_ne_nil _ (List.cons_ne_nil c []))
        Expr.not_callFree_call
  | @emptyCall f o c _ _ _ =>
    refine ⟨[f], [o, c], rfl, List.cons_ne_nil _ _, rfl, ?_⟩
    rintro _ ⟨⟩
    exact iff_of_false (List.cons_ne_nil _ _) Expr.not_callFree_call
  | lvalue _ ih => exact ih (by decide) hts
  | @number t _ _ _ =>
    refine ⟨[t], [], rfl, List.cons_ne_nil _ _, rfl, ?_⟩
    rintro _ ⟨⟩
    exact iff_of_true rfl Expr.callFree_number
  | @name t _ =>
    refine ⟨[t], [], rfl, List.cons_ne_nil _ _, rfl, ?_⟩
    rintro _ ⟨⟩
    exact iff_of_true rfl Expr.callFree_name
  | argument _ ih => exact ih (by decide) hts
  | @arguments ts₁ ts₂ e es t _ _ hes ih ihes =>
    have hts₁ := hts.of_isInfix (List.prefix_append ts₁ _).isInfix
    obtain ⟨us, vs, rfl, hus, hspan, -⟩ := ih (by decide) hts₁
    obtain ⟨us', vs', rfl, hus', hspan', -⟩ :=
      ihes (by decide) (hts.of_isInfix ⟨us ++ vs ++ [t], [], by simp⟩)
    refine ⟨us ++ ((vs ++ [t]) ++ us'), vs', by simp, List.append_ne_nil_of_left_ne_nil hus _, ?_,
      ?_⟩
    · have hjoin := (hts.of_isInfix ⟨[], vs', by simp⟩).join_extent us (vs ++ [t]) us' hus hus'
      rw [← hspan, ← hspan', ← Expr.joinAll_spans _ hes.parameters_ne_nil] at hjoin
      exact hjoin
    · rintro _ ⟨⟩
      exact absurd rfl hes.parameters_ne_nil

/-- Each of some expressions is read from some of the tokens. -/
theorem Reads.exists_of_mem (h : Reads p ts es) (hp : p = .compound ∨ p = .parameters)
    (he : e ∈ es) : ∃ us, us <:+: ts ∧ Reads .expression us [e] := by
  induction h with
  | @last ts e' t he' _ _ =>
    obtain rfl := List.mem_singleton.1 he
    exact ⟨ts, (List.prefix_append ts _).isInfix, he'⟩
  | @argument ts e' he' _ =>
    obtain rfl := List.mem_singleton.1 he
    exact ⟨ts, List.infix_refl ts, he'⟩
  | @more ts us e' es t he' _ _ _ ih | @arguments ts us e' es t he' _ _ _ ih =>
    rcases List.mem_cons.1 he with rfl | he
    · exact ⟨ts, (List.prefix_append ts _).isInfix, he'⟩
    · obtain ⟨vs, hvs, hread⟩ := ih hp he
      exact ⟨vs, hvs.trans ⟨ts ++ [t], [], by simp⟩, hread⟩
  | _ => simp at hp

/-- The children of an expression are expressions, read inside it. -/
theorem Reads.exists_child (h : Reads .expression ts [e]) (hn : n ∈ e.children) :
    ∃ us, us <:+: ts ∧ Reads .expression us [n] := by
  cases h with
  | @assign ts us l r t hl _ hr =>
    rcases List.mem_cons.1 hn with rfl | hn
    · exact ⟨ts, (List.prefix_append ts _).isInfix, .rvalue (.lvalue hl)⟩
    · obtain rfl := List.mem_singleton.1 hn
      exact ⟨us, ⟨ts ++ [t], [], by simp⟩, hr⟩
  | rvalue h =>
    cases h with
    | @call f o c ts args _ _ hargs _ =>
      obtain ⟨us, hus, hread⟩ := hargs.exists_of_mem (.inr rfl) hn
      exact ⟨us, hus.trans ⟨[f, o], [c], rfl⟩, hread⟩
    | emptyCall _ _ _ => exact absurd hn List.not_mem_nil
    | lvalue h =>
      cases h with
      | name _ => exact absurd hn List.not_mem_nil
    | number _ _ => exact absurd hn List.not_mem_nil

/-- Every expression inside of a statement is read from some of its tokens. -/
theorem Reads.exists_within (h : Reads .expression ts [e]) (hn : n.Within e) :
    ∃ us, us <:+: ts ∧ Reads .expression us [n] :=
  hn.exists_isInfix (R := fun ts e => Reads .expression ts [e]) h fun _ _ _ => Reads.exists_child

/-- There are as many tokens as there are marks to write what is read from them. -/
theorem Reads.length_eq (h : Reads p ts es) (hp : p.IsInner) :
    ts.length = (Expr.marksSeparated es).length := by
  induction h with
  | topLevel _ _ => exact absurd rfl hp.1
  | last _ _ _ => exact absurd rfl hp.2
  | more _ _ _ _ _ => exact absurd rfl hp.2
  | assign _ _ _ ihl ihr =>
    rw [List.length_append, List.length_cons, ihl (by decide), ihr (by decide)]
    simp [Expr.marksSeparated, Expr.marks]
  | rvalue _ ih | lvalue _ ih | argument _ ih => exact ih (by decide)
  | call _ _ _ _ ih =>
    simp [Expr.marksSeparated, Expr.marks, ih (by decide)]
  | emptyCall _ _ _ => rfl
  | number _ _ => rfl
  | name _ => rfl
  | @arguments ts us e es t _ _ hes ih ihes =>
    obtain ⟨e', es, rfl⟩ := List.exists_cons_of_ne_nil hes.parameters_ne_nil
    rw [List.length_append, List.length_cons, ih (by decide), ihes (by decide)]
    simp [Expr.marksSeparated]

/-- A compound with one expression ends after the tokens of this expression. -/
theorem Reads.compound_singleton {t : Token} (h : Reads .compound (ts ++ [t]) [e]) :
    Reads .expression ts [e] := by
  generalize hts : ts ++ [t] = us at h
  cases h with
  | last h _ =>
    obtain ⟨rfl, -⟩ := List.append_inj' hts rfl
    exact h
  | more _ _ hnil =>
    obtain ⟨_, _, hcons⟩ := hnil.exists_cons
    exact nomatch hcons

end Program

open Program

/-- Some tokens of a text that are read as an expression, and a separator behind the slice that they
    cover, are a program of its own. -/
theorem standsAlone_extent {text : String} {ts us vs : List Token} {n : Expr}
    (htext : readTokens text = .ok (ts ++ (us ++ vs))) (h : Reads .expression us [n]) :
    n.StandsAlone text (extent us) := by
  obtain ⟨part, us', t, hcovers, hmoved, -, ht, hpart⟩ := exists_slice htext h.tokens_ne_nil
  obtain ⟨n', h', hn'⟩ := Expr.exists_of_map_shift (h.unmoved (by decide) hmoved)
  refine ⟨part, n', hcovers, hn', fun name => parseProgram_eq_ok_iff.2 ?_⟩
  exact ⟨us' ++ [t], [n'], hpart, .some (.last h' ht), rfl⟩

/-- The first ones of the tokens of an expression do not stand alone. -/
theorem not_standsAlone_extent {text : String} {ts us vs ws : List Token} {n : Expr}
    (htext : readTokens text = .ok (ts ++ (us ++ (vs ++ ws))))
    (h : Reads .expression (us ++ vs) [n])
    (hus : us ≠ []) (hvs : vs ≠ []) : ¬n.StandsAlone text (extent us) := by
  rintro ⟨part, n', hcovers, rfl, hparse⟩
  obtain ⟨part', us', t, hcovers', hmoved, -, ht, hpart⟩ := exists_slice htext hus
  obtain rfl := hcovers.unique hcovers'
  obtain ⟨tokens, es, htokens, hes, heq⟩ := parseProgram_eq_ok_iff.1 (hparse "")
  obtain rfl := Except.ok.inj (hpart.symm.trans htokens)
  obtain rfl : [n'] = es := (Expr.sequence.inj heq).2.1
  -- Both runs of tokens are as long as the expression written out.
  have hread := (hes.reads (by simp)).compound_singleton
  have hlength := h.length_eq (by decide)
  have hlength' := hread.length_eq (by decide)
  rw [Expr.marksSeparated, Expr.marks_shift, List.length_append, ← hmoved.length_eq] at hlength
  rw [Expr.marksSeparated] at hlength'
  exact hvs (List.length_eq_zero_iff.1 (by omega))

/-- Everything in a statement of a program starts where its span does. Together with the text up to
    its last token it is a program of its own when it is ended by a separator. It already is so with
    the text up to the end of its span exactly if there is no call in it. -/
theorem parseProgram_spans (source : Source) (e c n : Expr) (h : parseProgram source = .ok e)
    (hc : c ∈ e.children) (hn : n.Within c) :
    (n.StandsAlone source.content n.span ↔ n.CallFree) ∧
      ∃ stop, n.span.stop ≤ stop ∧ n.StandsAlone source.content ⟨n.span.start, stop⟩ := by
  obtain ⟨tokens, es, htokens, hes, rfl⟩ := parseProgram_eq_ok_iff.1 h
  cases hes with
  | none => exact absurd hc List.not_mem_nil
  | some hes =>
    obtain ⟨us, hus, hread⟩ := hes.exists_of_mem (.inl rfl) hc
    obtain ⟨us', hus', hread⟩ := hread.exists_within hn
    obtain ⟨ts, ws, rfl⟩ := hus'.trans hus
    have horder := (inOrder_of_readTokens htokens).of_isInfix ⟨ts, ws, rfl⟩
    obtain ⟨vs, vs', rfl, hvs, hspan, hcalls⟩ := hread.exists_extent (by decide) horder
    replace hspan : n.span = extent vs := hspan
    have hstart : (extent (vs ++ vs')).start = n.span.start := by
      rw [hspan, start_extent_append hvs]
    have hstop := (horder.extent_le (List.prefix_append vs vs').isInfix hvs).2
    rw [List.append_assoc] at htokens
    have halone := standsAlone_extent htokens hread
    refine ⟨?_, (extent (vs ++ vs')).stop, hspan ▸ hstop, hstart ▸ halone⟩
    rw [← hcalls n rfl, hspan]
    constructor
    · intro hshort
      by_contra hne
      rw [List.append_assoc] at htokens
      exact not_standsAlone_extent htokens hread hvs hne hshort
    · rintro rfl
      rwa [List.append_nil] at halone

/-- In `y = b; f(a);`, the assignment stands alone, and the call does so with its `)`. -/
theorem parseProgram_spans_both :
    let source : Source := ⟨"a", "y = b; f(a);"⟩
    let assign : Expr :=
      .binary Kind.assign.id "=" (.name "y" ⟨0, 1⟩) (.name "b" ⟨4, 5⟩) ⟨0, 5⟩
    let call : Expr := .call "f" [.name "a" ⟨9, 10⟩] ⟨7, 10⟩
    parseProgram source = .ok (.sequence ";" [assign, call] ⟨0, 10⟩) ∧
      assign.StandsAlone source.content ⟨0, 5⟩ ∧ ¬call.StandsAlone source.content ⟨7, 10⟩ ∧
      ∃ stop, 10 ≤ stop ∧ call.StandsAlone source.content ⟨7, stop⟩ := by
  intro source assign call
  have hparse : parseProgram source = .ok (.sequence ";" [assign, call] ⟨0, 10⟩) := by cbv
  have hassign : assign.CallFree := Expr.callFree_assign_iff.2 Expr.callFree_name
  obtain ⟨hiff, -⟩ := parseProgram_spans source _ assign assign hparse List.mem_cons_self .refl
  obtain ⟨hiff', hstop⟩ :=
    parseProgram_spans source _ call call hparse (List.mem_cons_of_mem _ List.mem_cons_self) .refl
  exact ⟨hparse, hiff.2 hassign, fun h => Expr.not_callFree_call (hiff'.1 h), hstop⟩

/-- The call of `f(a);` covers `f(a` only, which is no program when it is ended by a separator. As
    an expression, `f(a)` covers its `)`, too. -/
theorem span_call_short :
    let source : Source := ⟨"a", "f(a);"⟩
    let call (stop : Nat) : Expr := .call "f" [.name "a" ⟨2, 3⟩] ⟨0, stop⟩
    parseProgram source = .ok (.sequence ";" [call 3] ⟨0, 3⟩) ∧
      ¬(call 3).StandsAlone source.content (call 3).span ∧
      parseExpression ⟨"a", "f(a)"⟩ .standard = .ok (call 4) := by
  intro source call
  have hparse : parseProgram source = .ok (.sequence ";" [call 3] ⟨0, 3⟩) := by cbv
  have hexpression : parseExpression ⟨"a", "f(a)"⟩ .standard = .ok (call 4) := by cbv
  refine ⟨hparse, ?_, hexpression⟩
  rintro ⟨part, n', hcovers, -, halone⟩
  have hpart : (call 3).span.Covers source.content "f(a" := ⟨"", ");", by cbv, by cbv⟩
  obtain rfl := hcovers.unique hpart
  obtain ⟨halt, hrejected⟩ : ∃ halt, parseProgram ⟨"a", "f(a;"⟩ = .error halt := ⟨_, by cbv⟩
  cases hrejected.symm.trans (halone "a")

end Frontend
