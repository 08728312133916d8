import Frontend.Parentheses
import Frontend.Proofs.Expression.Nesting
import Frontend.Proofs.Grammar.Unambiguous
import Mathlib

/-!
# One tree for balanced parentheses

What derives from the grammar of parentheses is nested, and the parenthesis that closes a group is
the first one that is not opened inside it. So a group ends at a place that is determined by where
it starts, and the grammar is unambiguous.
-/

namespace Frontend.Parentheses

open Expression

variable {ts us : List Token} {s s' : List String}

/-- The tokens are something between two parentheses that belong together. -/
def IsGroup (ts : List Token) : Prop :=
  ∃ o us c, ts = o :: (us ++ [c]) ∧ o.is .openParen ∧ Nested (fun _ => True) us ∧ c.is .closeParen

/-- A group ends where its first parenthesis is closed, whatever follows. -/
theorem IsGroup.eq_of_append {ts' us' : List Token} (h : IsGroup ts) (h' : IsGroup ts')
    (heq : ts ++ us = ts' ++ us') : ts = ts' := by
  obtain ⟨o, inner, c, rfl, -, hinner, hc⟩ := h
  obtain ⟨o', inner', c', rfl, -, hinner', hc'⟩ := h'
  simp only [List.cons_append, List.append_assoc, List.cons.injEq] at heq
  obtain ⟨rfl, heq⟩ := heq
  have hcut := cutAtClose_of_nested hinner hc us
  have hcut' := cutAtClose_of_nested hinner' hc' us'
  have hsame := hcut.symm.trans ((congrArg (cutAtClose 0) heq).trans hcut')
  obtain ⟨rfl, rfl, -⟩ : inner = inner' ∧ c = c' ∧ us = us' := by simpa using hsame
  rfl

/-- The meaning of the symbols of the grammar. -/
def Means : Grammar.Meaning (List String)
  | .terminal id, ts, _, _ => ∃ t, ts = [t] ∧ t.id = id
  | .nonterminal id, ts, _, _ =>
    if id = nested.id then IsGroup ts else Nested (fun _ => True) ts

theorem IsGroup.nested (h : IsGroup ts) (hus : Nested (fun _ => True) us) :
    Nested (fun _ => True) (ts ++ us) := by
  obtain ⟨o, inner, c, rfl, ho, hinner, hc⟩ := h
  rw [List.cons_append, List.append_assoc]
  exact .group ho hinner hc hus

theorem rhs_ne_nil : ∀ r ∈ grammar.rules, r.rhs ≠ [] := by
  decide

theorem grammar_rules : grammar.rules =
    [rule sequence [nested] "Sequence ::= Nested",
      rule sequence [nested, sequence] "Sequence ::= Nested Sequence",
      rule nested [.ofKind .openParen, .ofKind .closeParen] "Nested ::= ()",
      rule nested [.ofKind .openParen, sequence, .ofKind .closeParen] "Nested ::= (Sequence)"] := by
  rfl

variable {ss ss' : List Symbol}

theorem all_group_iff {xs : List Symbol} :
    Means.All (nested :: xs) ts s s' ↔
      ∃ us vs s₁, ts = us ++ vs ∧ IsGroup us ∧ Means.All xs vs s s₁ :=
  Grammar.Meaning.all_cons_iff

/-- Every rule makes something nested of groups, or a group of something nested. -/
theorem respects_means : grammar.Respects Means := by
  rw [Grammar.Respects, grammar_rules]
  simp only [List.forall_mem_cons]
  refine ⟨?single, ?several, ?empty, ?full, nofun⟩ <;> intro t ts s s₁ h
  case single =>
    obtain ⟨us, _, _, heq, hus, hnil⟩ := all_group_iff.1 h
    obtain ⟨rfl, -⟩ := Grammar.Meaning.all_nil_iff.1 hnil
    exact ⟨_, rfl, heq ▸ hus.nested .nil⟩
  case several =>
    obtain ⟨us, _, _, heq, hus, hall⟩ := all_group_iff.1 h
    obtain ⟨vs, _, _, rfl, hvs, hnil⟩ := Grammar.Meaning.all_cons_iff.1 hall
    obtain ⟨rfl, -⟩ := Grammar.Meaning.all_nil_iff.1 hnil
    rw [List.append_nil] at heq
    exact ⟨_, rfl, heq ▸ hus.nested hvs⟩
  case empty =>
    simp only [rule, Grammar.Meaning.all_cons_iff, Grammar.Meaning.all_nil_iff] at h
    obtain ⟨_, _, _, heq, ⟨o, rfl, ho⟩, _, _, _, rfl, ⟨c, rfl, hc⟩, rfl, -⟩ := h
    exact ⟨_, rfl, o, [], c, heq, Token.is_iff.2 ho, .nil, Token.is_iff.2 hc⟩
  case full =>
    simp only [rule, Grammar.Meaning.all_cons_iff, Grammar.Meaning.all_nil_iff] at h
    obtain ⟨_, _, _, heq, ⟨o, rfl, ho⟩, us, _, _, rfl, hus, _, _, _, rfl, ⟨c, rfl, hc⟩, rfl, -⟩ := h
    exact ⟨_, rfl, o, us, c, heq, Token.is_iff.2 ho, hus, Token.is_iff.2 hc⟩

/-! ## Trees -/

/-- What derives from `Nested` is a group. -/
theorem isGroup_leaves (t : grammar.Tree nested) : IsGroup (t.leaves.map .ofId) := by
  obtain ⟨s, h⟩ := t.exists_means rhs_ne_nil respects_means
    (Token.map_id_map_ofId t.leaves).symm (fun t _ s => ⟨t, rfl, rfl⟩) []
  obtain ⟨us, _, _, heq, hus, hnil⟩ := all_group_iff.1 h
  obtain ⟨rfl, -⟩ := Grammar.Meaning.all_nil_iff.1 hnil
  rwa [heq, List.append_nil]

/-- A group is told from what follows it. -/
theorem leaves_eq_of_append (t t' : grammar.Tree nested) {ids ids' : List Nat}
    (h : t.leaves ++ ids = t'.leaves ++ ids') : t.leaves = t'.leaves := by
  have htokens := congrArg (List.map Token.ofId) h
  rw [List.map_append, List.map_append] at htokens
  exact Token.map_ofId_injective ((isGroup_leaves t).eq_of_append (isGroup_leaves t') htokens)

/-- Different rules for the same symbol. -/
theorem rules_cases : ∀ x ∈ grammar.rules.zipIdx, ∀ y ∈ grammar.rules.zipIdx, x.2 < y.2 →
    x.1.lhs.id = y.1.lhs.id →
      x.1.rhs = [nested] ∧ y.1.rhs = [nested, sequence] ∨
      x.1.rhs = [.ofKind .openParen, .ofKind .closeParen] ∧
        y.1.rhs = [.ofKind .openParen, sequence, .ofKind .closeParen] := by
  decide

theorem leaves_ne {i j : Nat} {r r' : Rule Empty (List String)} (hi : grammar.rules[i]? = some r)
    (hj : grammar.rules[j]? = some r') (hlt : i < j) (hlhs : r.lhs.id = r'.lhs.id)
    (f : grammar.Forest r.rhs) (f' : grammar.Forest r'.rhs) : f.leaves ≠ f'.leaves := by
  have hcases := rules_cases (r, i) (List.mk_mem_zipIdx_iff_getElem?.2 hi) (r', j)
    (List.mk_mem_zipIdx_iff_getElem?.2 hj) hlt hlhs
  generalize r.rhs = ss at f hcases
  generalize r'.rhs = ss' at f' hcases
  intro heq
  rcases hcases with ⟨rfl, rfl⟩ | ⟨rfl, rfl⟩
  -- The first groups are the same, so nothing is left for the rest of a longer sequence.
  · obtain ⟨t, rest, rfl⟩ := @Grammar.Forest.exists_eq_append _ _ _ [nested] [sequence] f'
    rw [Grammar.Forest.leaves_append, ← List.append_nil f.leaves] at heq
    have hsame := leaves_eq_of_append f t heq
    rw [hsame] at heq
    have hnil : [] = rest.leaves := List.append_cancel_left heq
    have hlen := rest.length_le_leaves rhs_ne_nil
    rw [← hnil] at hlen
    exact absurd hlen (by decide)
  -- With something between them, there are more than two parentheses.
  · cases f with
    | leaf _ rest =>
      cases rest with
      | leaf _ rest =>
        cases rest
        have hlen := f'.length_le_leaves rhs_ne_nil
        rw [← heq] at hlen
        exact absurd hlen (by decide)

theorem index_eq {i j : Nat} {r r' : Rule Empty (List String)} (hi : grammar.rules[i]? = some r)
    (hj : grammar.rules[j]? = some r') (hlhs : r.lhs.id = r'.lhs.id) (f : grammar.Forest r.rhs)
    (f' : grammar.Forest r'.rhs) (h : f.leaves = f'.leaves) : i = j := by
  rcases Nat.lt_trichotomy i j with hlt | heq | hlt
  · exact absurd h (leaves_ne hi hj hlt hlhs f f')
  · exact heq
  · exact absurd h.symm (leaves_ne hj hi hlt hlhs.symm f' f)

/-- On a right-hand side, only a group stands before another nonterminal. -/
theorem tails_rhs : ∀ r ∈ grammar.rules, ∀ rest ∈ r.rhs.tails, ∀ s ∈ rest.head?, s.isTerminal ∨
    rest.tail = [] ∨ s = nested ∨ rest.tail = [.ofKind .closeParen] := by
  decide

theorem splits_rhs : ∀ r ∈ grammar.rules, grammar.Splits r.rhs := by
  intro r hr
  refine Grammar.splits_of_nonterminal fun id s rest hsuffix t t' f f' heq => ?_
  rcases tails_rhs r hr _ ((List.mem_tails _ _).2 hsuffix) _ rfl with
    hterminal | hnil | hnested | hclose
  · exact nomatch hterminal
  · exact nomatch hnil
  · obtain rfl : id = Symbol.firstNonterminal + 1 := Symbol.nonterminal.inj hnested
    exact leaves_eq_of_append t t' heq
  · obtain ⟨rfl, rfl⟩ := List.cons.inj hclose
    have hf : f.leaves = [Kind.closeParen.id] := f.leaves_terminal
    have hf' : f'.leaves = [Kind.closeParen.id] := f'.leaves_terminal
    rw [hf, hf'] at heq
    exact List.append_cancel_right heq

/-- What derives from a symbol determines its rule and where its parts end. -/
theorem deterministic : grammar.Deterministic := ⟨index_eq, splits_rhs⟩

end Frontend.Parentheses
