import Frontend.Proofs.Grammar.Meaning

/-!
# Unambiguous grammars

A grammar is unambiguous if no two derivation trees have the same leaves (`Unambiguous`). This can
be checked rule by rule (`Deterministic`): the rule at a node has to be determined by the leaves
below it, and so have the leaves of the first tree of a forest for the end of a right-hand side.
Then two trees with the same leaves agree at their roots and, one after the other, in all trees
below them (`Deterministic.unambiguous`).

What a list of symbols stands for is known of tokens (`Respects`), but the leaves of a forest are
numbers only. Any tokens with these numbers will do (`Forest.exists_means`), such as those of
`Token.ofId`.
-/

namespace Frontend

/-- A token of which only the number matters. If it is a number, its value is in range. -/
def Token.ofId (id : Nat) : Token := ⟨id, "0", .zero, .nowhere⟩

theorem Token.map_id_map_ofId (ids : List Nat) : (ids.map Token.ofId).map Token.id = ids := by
  rw [List.map_map]
  exact List.map_id ids

theorem Token.map_ofId_injective {ids ids' : List Nat}
    (h : ids.map Token.ofId = ids'.map Token.ofId) : ids = ids' := by
  rw [← Token.map_id_map_ofId ids, h, Token.map_id_map_ofId]

namespace Grammar

variable {ε σ : Type} {g : Grammar ε σ} {s : Symbol} {ss : List Symbol}

/-- Trees for the symbol with the same leaves are the same. -/
def Unambiguous (g : Grammar ε σ) (s : Symbol) : Prop :=
  ∀ t t' : g.Tree s, t.leaves = t'.leaves → t = t'

/-- At every place in the list of symbols: if forests for the symbols from there on have the same
    leaves, their first trees have the same leaves. -/
def Splits (g : Grammar ε σ) (ss : List Symbol) : Prop :=
  ∀ s rest, s :: rest <:+ ss → ∀ (t t' : g.Tree s) (f f' : Forest g rest),
    t.leaves ++ f.leaves = t'.leaves ++ f'.leaves → t.leaves = t'.leaves

/-- What is true at every place of a list is true at every place behind its first symbol. -/
theorem Splits.tail (h : g.Splits (s :: ss)) : g.Splits ss :=
  fun s' rest hsuffix => h s' rest (hsuffix.trans (List.suffix_cons s ss))

theorem Forest.leaves_terminal {id : Nat} (t : g.Tree (.terminal id)) : t.leaves = [id] := by
  cases t with
  | leaf _ rest =>
    cases rest
    rfl

/-- Only at a nonterminal with something behind it is there anything to be told. -/
theorem splits_of_nonterminal (h : ∀ id s rest, .nonterminal id :: s :: rest <:+ ss →
    ∀ (t t' : g.Tree (.nonterminal id)) (f f' : Forest g (s :: rest)),
      t.leaves ++ f.leaves = t'.leaves ++ f'.leaves → t.leaves = t'.leaves) : g.Splits ss := by
  intro s rest hsuffix t t' f f' heq
  cases s with
  | terminal id => rw [t.leaves_terminal, t'.leaves_terminal]
  | nonterminal id =>
    cases rest with
    | nil =>
      cases f
      cases f'
      exact List.append_cancel_right heq
    | cons s rest => exact h id s rest hsuffix t t' f f' heq

/-- A single symbol leaves no choice. -/
theorem splits_singleton (s : Symbol) : g.Splits [s] := by
  refine splits_of_nonterminal fun id s' rest hsuffix => ?_
  have hlen := hsuffix.length_le
  simp only [List.length_cons, List.length_nil] at hlen
  omega

/-- The leaves of a tree determine the rule at its root, and those of a forest for the end of a
    right-hand side determine the leaves of its first tree. -/
structure Deterministic (g : Grammar ε σ) : Prop where
  index : ∀ {i j : Nat} {r r' : Rule ε σ}, g.rules[i]? = some r → g.rules[j]? = some r' →
    r.lhs.id = r'.lhs.id → ∀ (f : Forest g r.rhs) (f' : Forest g r'.rhs),
      f.leaves = f'.leaves → i = j
  splits : ∀ r ∈ g.rules, g.Splits r.rhs

/-- In a deterministic grammar, the leaves of a forest determine it. -/
theorem Deterministic.forest_eq (hg : g.Deterministic) (hss : g.Splits ss) (f f' : Forest g ss)
    (h : f.leaves = f'.leaves) : f = f' := by
  induction f with
  | nil =>
    cases f'
    rfl
  | leaf id rest ih =>
    cases f' with
    | leaf _ rest' => rw [ih hss.tail rest' (List.cons.inj h).2]
  | @node i id r ss hi hid children rest ihc ih =>
    subst hid
    cases f' with
    | @node j _ r' _ hj hid' children' rest' =>
      -- The leaves are split between the first trees and the others in the same way.
      have hfirst := hss _ _ List.suffix_rfl (.node hi rfl children .nil)
        (.node hj hid' children' .nil) rest rest'
      simp only [Forest.leaves, List.append_nil] at hfirst h
      have hchildren := hfirst h
      have hrest : rest.leaves = rest'.leaves := by
        rw [hchildren] at h
        exact List.append_cancel_left h
      obtain rfl := hg.index hi hj hid'.symm children children' hchildren
      obtain rfl : r = r' := Option.some.inj (hi.symm.trans hj)
      rw [ihc (hg.splits r (List.mem_of_getElem? hi)) children' hchildren,
        ih hss.tail rest' hrest]

/-- A deterministic grammar is unambiguous. -/
theorem Deterministic.unambiguous (hg : g.Deterministic) (s : Symbol) : g.Unambiguous s :=
  hg.forest_eq (splits_singleton s)

/-- Tokens at the leaves of a forest mean what its symbols mean. -/
theorem Forest.exists_means {M : Meaning σ} (hrhs : ∀ r ∈ g.rules, r.rhs ≠ [])
    (hg : g.Respects M) (f : Forest g ss) {ts : List Token} (hleaves : f.leaves = ts.map Token.id)
    (hts : ∀ t ∈ ts, ∀ s, M (.terminal t.id) [t] s s) (s : σ) : ∃ s', M.All ss ts s s' := by
  obtain ⟨s', -, h⟩ := f.replay_means hrhs hg [] ts [] hleaves hts s
  exact ⟨s', h⟩

end Grammar

end Frontend
