import Frontend.Proofs.Grammar.LeftRecursion
import Frontend.Proofs.Grammar.Order
import Frontend.Proofs.Parentheses.Unambiguous
import Frontend.Proofs.Program.Unambiguous

/-!
# The order of the bundled rules

The grammars of programs and of parentheses are unambiguous and free of left recursion, and their
actions do not fail. So their rules could be added in any order: every text would be accepted with
the same result, or rejected with a failure at the same place (`bundled_grammars_unambiguous`).
-/

namespace Frontend

namespace Program

/-- All rules of programs put a failure into plain words, with their own names for symbols. -/
theorem diagnose_rules : ∀ r ∈ rules, r.diagnose = Rule.plainDiagnose symbolName := by
  simp [rules, rule, Production.toRule, Production.symbolName]

theorem keepsPlace : grammar.KeepsPlace := by
  intro r hr f o
  rw [diagnose_rules r hr]
  rfl

/-- The rules of programs in another order. -/
theorem agrees_of_perm {added : List (Rule Fault TreeStack)} (h : added.Perm rules)
    {tokens : List Token} (hrange : ∀ t ∈ tokens, ¬t.isOutOfRange) (o : Origin) (s : TreeStack) :
    grammar.Agrees (.ofRules Part.topLevel.symbol added) o tokens s := by
  refine (Grammar.sameRules_of_perm h.symm).agrees (deterministic.unambiguous _)
    leftRanked_height keepsPlace (fun n hn => ?_) o
  obtain ⟨s', hs', -⟩ := builds_of_accepted hrange hn s
  exact ⟨s', hs'⟩

end Program

namespace Parentheses

theorem keepsPlace : grammar.KeepsPlace := by
  intro r hr f o
  rw [grammar_rules] at hr
  simp only [List.mem_cons, List.not_mem_nil, or_false] at hr
  rcases hr with rfl | rfl | rfl | rfl <;> rfl

theorem faultless : grammar.Faultless := by
  intro r _ t s
  cases r.action t s with
  | ok s' => exact ⟨s', rfl⟩
  | error f => exact f.elim

/-- The rules of parentheses in another order. -/
theorem agrees_of_perm {added : List (Rule Empty (List String))} (h : added.Perm rules)
    (tokens : List Token) (o : Origin) (s : List String) :
    grammar.Agrees (.ofRules sequence added) o tokens s :=
  (Grammar.sameRules_of_perm h.symm).agrees (deterministic.unambiguous _) leftRanked keepsPlace
    (fun n _ => faultless.replay tokens n.uses s) o

end Parentheses

/-- No two derivation trees of a program have the same leaves, and none of parentheses. In
    whatever order the rules of either grammar are added, the tokens of a text are accepted with
    the same result or rejected with a failure at the same place. -/
theorem bundled_grammars_unambiguous :
    Program.grammar.Unambiguous Program.Part.topLevel.symbol ∧
    Parentheses.grammar.Unambiguous Parentheses.sequence ∧
    (∀ added, added.Perm Program.rules → ∀ source tokens,
      tokenize ⟨source, "lex"⟩ = .ok tokens → ∀ o s,
        Program.grammar.Agrees (.ofRules Program.Part.topLevel.symbol added) o tokens s) ∧
    ∀ added, added.Perm Parentheses.rules → ∀ tokens o s,
      Parentheses.grammar.Agrees (.ofRules Parentheses.sequence added) o tokens s := by
  refine ⟨Program.deterministic.unambiguous _, Parentheses.deterministic.unambiguous _, ?_, ?_⟩
  · intro added h source tokens htokens o s
    exact Program.agrees_of_perm h (not_isOutOfRange_of_tokenize htokens) o s
  · intro added h tokens o s
    exact Parentheses.agrees_of_perm h tokens o s

/-- With the rules in reverse, calls are tried before names and numbers, not after them. -/
theorem bundled_grammars_unambiguous_reverse :
    let source : Source := ⟨"a", "x;"⟩
    let tokens : List Token := [⟨1, "x", ⟨0, 1⟩, ⟨1, 1, 1⟩⟩, ⟨3, ";", ⟨1, 2⟩, ⟨1, 2, 2⟩⟩]
    tokenize ⟨source, "lex"⟩ = .ok tokens ∧
      (Grammar.ofRules Program.Part.topLevel.symbol Program.rules.reverse).parse
          ⟨source, "grammar"⟩ tokens .empty =
        .ok ⟨[.sequence ";" [.name "x" ⟨0, 1⟩] ⟨0, 1⟩], []⟩ := by
  intro source tokens
  have htokens : tokenize ⟨source, "lex"⟩ = .ok tokens := by cbv
  have hparse : Program.grammar.parse ⟨source, "grammar"⟩ tokens .empty =
      .ok ⟨[.sequence ";" [.name "x" ⟨0, 1⟩] ⟨0, 1⟩], []⟩ := by cbv
  refine ⟨htokens, ?_⟩
  obtain ⟨-, -, hprogram, -⟩ := bundled_grammars_unambiguous
  have hagrees := hprogram Program.rules.reverse (List.reverse_perm _) source tokens htokens
    ⟨source, "grammar"⟩ .empty
  cases hagrees with
  | accepted h h' =>
    rw [hparse] at h
    exact h'.trans h.symm
  | rejected _ _ _ h =>
    rw [hparse] at h
    cases h

end Frontend
