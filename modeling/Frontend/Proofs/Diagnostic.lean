import Frontend.Proofs.Expression.Blame
import Frontend.Proofs.Expression.Extent
import Frontend.Proofs.Grammar.LeftRecursion
import Frontend.Proofs.Program.MissingSeparator
import Frontend.Proofs.Token.Unreadable

/-!
# Where diagnostics point

A complaint points into a text if its span covers a part of the text. If the complaint quotes
something, this is the part; a parenthesis without its partner is covered by itself, and the end of
the input is an empty span behind the last token (`Complaint.PointsInto`).

Every complaint of the front end points into the text that it is about
(`diagnostics_point_into_source`): those about characters and numbers are raised while the text is
taken apart, and all others are about tokens of the text, which cover their lexemes. Rules put the
dead end of a search into words of their own, but only the symbols are theirs to name
(`Grammar.NamesSymbols`).
-/

namespace Frontend

open Text

/-- The complaint is about something in the text. -/
structure Complaint.PointsInto (c : Complaint) (text : String) : Prop where
  inside : ∃ part, c.span.Covers text part
  quoted : ∀ q, c.problem.quoted? = some q → c.span.Covers text q
  parenthesis : c.problem = .unbalancedParentheses → ∃ q ∈ ["(", ")"], c.span.Covers text q
  atEnd : ∀ x, c.problem = .unexpectedEnd x → ∃ tokens t, readTokens text = .ok tokens ∧
    tokens.getLast? = some t ∧ c.span = .empty t.span.stop

/-- The diagnostic is about something in the source. -/
def Diagnostic.PointsInto (d : Diagnostic) (source : Source) : Prop :=
  d.origin.source = source ∧ d.complaint.PointsInto source.content

variable {text : String} {c : Complaint} {tokens : List Token}

/-- A complaint that quotes something points into a text if this is what its span covers. -/
theorem Complaint.pointsInto_of_quoted {q : String} (hq : c.problem.quoted? = some q)
    (h : c.span.Covers text q) : c.PointsInto text where
  inside := ⟨q, h⟩
  quoted q' hq' := by
    obtain rfl := Option.some.inj (hq.symm.trans hq')
    exact h
  parenthesis hp := by
    rw [hp] at hq
    exact nomatch hq
  atEnd x hp := by
    rw [hp] at hq
    exact nomatch hq

theorem Complaint.pointsInto_of_empty {s : Span} (h : ∃ part, s.Covers text part) :
    Complaint.PointsInto ⟨.emptyExpression, s⟩ text :=
  ⟨h, nofun, nofun, nofun⟩

/-! ## Texts -/

open Lexeme

/-- What cannot be made into tokens is reported where it stands. -/
theorem pointsInto_of_readTokens (h : readTokens text = .error c) : c.PointsInto text := by
  rcases exists_stuckAt_or_decomposes text.toList with
    ⟨before, x, after, hstuck⟩ | ⟨pieces, last, hpieces⟩
  · obtain rfl := Except.error.inj ((readTokens_of_stuckAt hstuck).symm.trans h)
    refine Complaint.pointsInto_of_quoted rfl (Span.covers_iff.2 ⟨before, ⟨after, ?_⟩, ?_⟩)
    · simpa using hstuck.text_eq.symm
    · rw [byteSize_append before, byteSize_toList, String.utf8ByteSize_singleton]
  · obtain ⟨ps, piece, qs, rfl, -, -, rfl⟩ := (readTokens_eq_error_iff hpieces).1 h
    refine Complaint.pointsInto_of_quoted rfl (Span.covers_iff.2 ⟨textOf ps ++ piece.gap, ?_, ?_⟩)
    · rw [String.toList_ofList, hpieces.text_eq]
      exact (textOf_append_isPrefix ps piece qs).trans (List.prefix_append _ last)
    · rw [String.toList_ofList]

/-- The same of the diagnostic that is made of it. -/
theorem pointsInto_of_tokenize {o : Origin} {d : Diagnostic} (h : tokenize o = .error d) :
    d.PointsInto o.source := by
  obtain ⟨c, hc, rfl⟩ := tokenize_eq_error_iff.1 h
  exact ⟨rfl, pointsInto_of_readTokens hc⟩

/-! ## Expressions -/

/-- A complaint that blames tokens of a text points into the text. -/
theorem Expression.Blames.pointsInto {ts : List Token} (h : Blames ts c)
    (htokens : readTokens text = .ok tokens) (hts : ts ⊆ tokens) : c.PointsInto text := by
  cases h with
  | quoted ht hp => exact Complaint.pointsInto_of_quoted hp (covers_of_readTokens htokens (hts ht))
  | @unbalanced t ht hparen =>
    have hcovers := covers_of_readTokens htokens (hts ht)
    have hlexeme {k : Kind} {q : String} (hk : t.is k) (hq : k.spelling? = some q) :
        t.lexeme = q :=
      lexeme_of_tokenize (tokenize_eq_ok_iff (o := ⟨⟨"", text⟩, ""⟩).2 htokens) (hts ht) hk hq
    refine ⟨⟨_, hcovers⟩, nofun, fun _ => ⟨t.lexeme, ?_, hcovers⟩, nofun⟩
    rcases hparen with ho | hc
    · simp [hlexeme ho rfl]
    · simp [hlexeme hc rfl]
  | between ht hu =>
    exact Complaint.pointsInto_of_empty
      ((covers_of_readTokens htokens (hts ht)).join (covers_of_readTokens htokens (hts hu)))
  | empty => exact Complaint.pointsInto_of_empty ⟨"", "", text, by simp, rfl⟩

theorem pointsInto_of_parseExpression {source : Source} {table : OperatorTable} {d : Diagnostic}
    (h : parseExpression source table = .error d) : d.PointsInto source := by
  rcases bind_eq_error_iff.1 h with hlex | ⟨tokens, htokens, hreport⟩
  · exact pointsInto_of_tokenize hlex
  · obtain ⟨c, hbuild, rfl⟩ := mapError_eq_error_iff.1 hreport
    have hread := tokenize_eq_ok_iff.1 htokens
    refine ⟨rfl, (Expression.blames_of_build hbuild).pointsInto hread ?_⟩
    exact (Expression.dropSeparator_isInfix tokens).subset

/-! ## Grammars -/

/-- The rules of the grammar name the symbols of a dead end, and leave everything else as it is. -/
def Grammar.NamesSymbols {ε σ : Type} (g : Grammar ε σ) : Prop :=
  ∀ r ∈ g.rules, ∃ name, ∀ f o, (r.diagnose f o).complaint = f.complaint name ∧
    (r.diagnose f o).origin = o

namespace Grammar

variable {ε σ : Type} {g : Grammar ε σ}

/-- Whatever rule puts a dead end into words, the complaint is about the dead end. -/
theorem NamesSymbols.exists_name (hg : g.NamesSymbols) (o : Origin) (tokens : List Token)
    (n : Node) : ∃ name,
      (g.diagnose o tokens (some n)).complaint = (n.failure tokens.toArray).complaint name ∧
        (g.diagnose o tokens (some n)).origin = o := by
  rcases g.diagnose_some o tokens n with ⟨r, hr, heq⟩ | heq
  · obtain ⟨name, hname⟩ := hg r hr
    exact ⟨name, heq ▸ hname (n.failure tokens.toArray) o⟩
  · exact ⟨Symbol.describe, heq ▸ ⟨rfl, rfl⟩⟩

/-- A dead end is reported at a token of the text or behind the last one. -/
theorem DeadEnd.pointsInto {f : Failure} (h : g.DeadEnd tokens f)
    (htokens : readTokens text = .ok tokens) (name : Symbol → String) :
    (f.complaint name).PointsInto text := by
  by_cases hlast : f.position = tokens.length
  · obtain ⟨-, -, t, ht, hspan⟩ := h.atEnd hlast
    have hproblem : (f.complaint name).problem =
        .unexpectedEnd ((f.expected.map name).getD "more input") :=
      if_pos (h.endFound_iff.2 hlast)
    have hcovers := (covers_of_readTokens htokens (List.mem_of_getLast? ht)).stop
    rw [← hspan] at hcovers
    refine ⟨⟨"", hcovers⟩, ?_, ?_, fun _ _ => ⟨tokens, t, htokens, ht, hspan⟩⟩
    · rw [hproblem]
      exact nofun
    · rw [hproblem]
      exact nofun
  · obtain ⟨t, ht, hfound, hspan, -⟩ := h.inside hlast
    have hcovers := covers_of_readTokens htokens (List.mem_of_getElem? ht)
    rw [← hspan] at hcovers
    refine Complaint.pointsInto_of_quoted ?_ hcovers
    have hfalse := mt h.endFound_iff.1 hlast
    simp only [Failure.complaint, if_neg hfalse, hfound]
    split <;> rfl

/-- A rejection is reported at the furthest dead end of the search, which is in the text. -/
theorem pointsInto_of_rejected {furthest : Option Node} (hg : g.NamesSymbols) (hne : tokens ≠ [])
    {source : Source} (htokens : readTokens source.content = .ok tokens)
    (h : g.search tokens = some (.rejected furthest)) (phase : String) :
    (g.diagnose ⟨source, phase⟩ tokens furthest).PointsInto source := by
  obtain ⟨n, rfl, hdead, hn, -⟩ := furthest_of_rejected h
  obtain ⟨name, hcomplaint, horigin⟩ := hg.exists_name ⟨source, phase⟩ tokens n
  rw [Diagnostic.PointsInto, hcomplaint, horigin]
  exact ⟨rfl, (deadEnd_of_dead hne hdead hn).pointsInto htokens name⟩

end Grammar

theorem Program.namesSymbols : grammar.NamesSymbols := by
  intro r hr
  refine ⟨symbolName, fun f o => ?_⟩
  rw [diagnose_rules r hr]
  exact ⟨rfl, rfl⟩

theorem Parentheses.namesSymbols : grammar.NamesSymbols := by
  intro r hr
  refine ⟨symbolName, fun f o => ?_⟩
  rw [grammar_rules] at hr
  simp only [List.mem_cons, List.not_mem_nil, or_false] at hr
  rcases hr with rfl | rfl | rfl | rfl <;> exact ⟨rfl, rfl⟩

theorem Program.pointsInto_addHelp {d : Diagnostic} {source : Source} (h : d.PointsInto source) :
    (addHelp d).PointsInto source := by
  unfold addHelp
  split
  · exact h
  · exact h

/-! ## All of the front end -/

theorem pointsInto_of_parseProgram {source : Source} {halt : Halt Fault}
    (h : parseProgram source = .error halt) : ∃ d, halt = .reported d ∧ d.PointsInto source := by
  rcases parseProgram_cases source with ⟨d, htokens, hparse⟩ | ⟨-, hparse⟩ |
    ⟨tokens, htokens, hne, ⟨e, -, hparse⟩ | ⟨d, -, hparse⟩⟩
  · obtain rfl := Except.error.inj (h.symm.trans hparse)
    exact ⟨d, rfl, pointsInto_of_tokenize htokens⟩
  · exact nomatch h.symm.trans hparse
  · exact nomatch h.symm.trans hparse
  · obtain rfl := Except.error.inj (h.symm.trans hparse)
    obtain ⟨n, hs, rfl⟩ := rejected_of_parseProgram htokens hparse
    exact ⟨_, rfl, Program.pointsInto_addHelp (Grammar.pointsInto_of_rejected Program.namesSymbols
      hne (tokenize_eq_ok_iff.1 htokens) hs "grammar")⟩

theorem pointsInto_of_parseParentheses {source : Source} {halt : Halt Empty}
    (h : parseParentheses source = .error halt) :
    ∃ d, halt = .reported d ∧ d.PointsInto source := by
  rcases parseParentheses_cases source with ⟨fired, hparse⟩ | ⟨d, hparse⟩
  · exact nomatch h.symm.trans hparse
  · obtain rfl := Except.error.inj (h.symm.trans hparse)
    refine ⟨d, rfl, ?_⟩
    unfold parseParentheses at hparse
    split at hparse
    · next d' htokens =>
      obtain rfl := Halt.reported.inj (Except.error.inj hparse)
      exact pointsInto_of_tokenize htokens
    · next tokens htokens =>
      cases hresult : Parentheses.grammar.parse ⟨source, "grammar"⟩ tokens [] with
      | ok fired => simp [hresult, Except.map] at hparse
      | error halt =>
        rw [hresult] at hparse
        obtain rfl : halt = .reported d := Except.error.inj hparse
        have hne : tokens ≠ [] := by
          rintro rfl
          exact nomatch hresult
        obtain ⟨furthest, hs, rfl⟩ := Grammar.rejected_of_parse hne hresult
        exact Grammar.pointsInto_of_rejected Parentheses.namesSymbols hne
          (tokenize_eq_ok_iff.1 htokens) hs "grammar"

/-- Whatever text is parsed, as a program, as an expression or as parentheses, a failure is reported
    by a diagnostic that points into this text. -/
theorem diagnostics_point_into_source (source : Source) (table : OperatorTable) :
    (∀ halt, parseProgram source = .error halt →
      ∃ d, halt = .reported d ∧ d.PointsInto source) ∧
    (∀ d, parseExpression source table = .error d → d.PointsInto source) ∧
    ∀ halt, parseParentheses source = .error halt →
      ∃ d, halt = .reported d ∧ d.PointsInto source :=
  ⟨fun _ => pointsInto_of_parseProgram, fun _ => pointsInto_of_parseExpression,
    fun _ => pointsInto_of_parseParentheses⟩

/-- A character that starts no lexeme and an operator behind an `é` of two bytes are quoted as they
    stand there, and the end of the input comes after its last token. -/
theorem diagnostics_point_into_source_examples :
    let program : Source := ⟨"a", "x = é;"⟩
    let expression : Source := ⟨"b", "# é\n1 +"⟩
    let parentheses : Source := ⟨"c", "(() # é"⟩
    (∃ d, parseProgram program = .error (.reported d) ∧ d.problem = .unknownToken "é" ∧
      d.span.Covers program.content "é") ∧
    (∃ d, parseExpression expression .standard = .error d ∧
      d.problem = .missingOperand "+" "right" ∧ d.span.Covers expression.content "+") ∧
    ∃ d x, parseParentheses parentheses = .error (.reported d) ∧ d.problem = .unexpectedEnd x ∧
      ∃ tokens t, readTokens parentheses.content = .ok tokens ∧ tokens.getLast? = some t ∧
        d.span = .empty t.span.stop := by
  intro program expression parentheses
  obtain ⟨hprogram, -, -⟩ := diagnostics_point_into_source program .standard
  obtain ⟨-, hexpression, -⟩ := diagnostics_point_into_source expression .standard
  obtain ⟨-, -, hparentheses⟩ := diagnostics_point_into_source parentheses .standard
  refine ⟨?_, ?_, ?_⟩
  · obtain ⟨d, hd, hproblem⟩ : ∃ d, parseProgram program = .error (.reported d) ∧
        d.problem = .unknownToken "é" := ⟨_, by cbv, by cbv⟩
    obtain ⟨_, ⟨⟩, -, hpoints⟩ := hprogram _ hd
    exact ⟨d, hd, hproblem, hpoints.quoted "é" (congrArg Problem.quoted? hproblem)⟩
  · obtain ⟨d, hd, hproblem⟩ : ∃ d, parseExpression expression .standard = .error d ∧
        d.problem = .missingOperand "+" "right" := ⟨_, by cbv, by cbv⟩
    exact ⟨d, hd, hproblem, (hexpression d hd).2.quoted "+" (congrArg Problem.quoted? hproblem)⟩
  · obtain ⟨d, x, hd, hproblem⟩ : ∃ d x, parseParentheses parentheses = .error (.reported d) ∧
        d.problem = .unexpectedEnd x := ⟨_, _, by cbv, by cbv⟩
    obtain ⟨_, ⟨⟩, -, hpoints⟩ := hparentheses _ hd
    exact ⟨d, x, hd, hproblem, hpoints.atEnd x hproblem⟩

end Frontend
