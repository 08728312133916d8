import Frontend.Proofs.Grammar.Forest

/-!
# The meaning of a derivation

What the actions of a derivation do can be said symbol by symbol. A *meaning* relates a symbol,
the tokens it stands for, and the states before and after the actions of its derivation. If every
action fits the meaning (`Respects`), replaying the uses of a derivation tree never fails, and
its result is what the meaning says (`Forest.replay_means`).

The uses are replayed from the last one on, so the symbols of a list act from right to left, and
a rule acts on what the symbols of its right-hand side have left behind.
-/

namespace Frontend.Grammar

variable {ε σ : Type}

/-- Which tokens a symbol stands for, with the states before and after its actions. -/
abbrev Meaning (σ : Type) : Type := Symbol → List Token → σ → σ → Prop

/-- The meaning of some symbols side by side, of which the last one acts first. -/
inductive Meaning.All (M : Meaning σ) : List Symbol → List Token → σ → σ → Prop
  | nil {s : σ} : All M [] [] s s
  | cons {x : Symbol} {xs : List Symbol} {ts us : List Token} {s s₁ s₂ : σ} :
      M x ts s₁ s₂ → All M xs us s s₁ → All M (x :: xs) (ts ++ us) s s₂

namespace Meaning

variable {M : Meaning σ} {ts : List Token} {s s' : σ}

@[simp]
theorem all_nil_iff : All M [] ts s s' ↔ ts = [] ∧ s' = s := by
  constructor
  · intro h
    cases h
    exact ⟨rfl, rfl⟩
  · rintro ⟨rfl, rfl⟩
    exact .nil

/-- The first symbol acts last, on what the others have left behind. -/
@[simp]
theorem all_cons_iff {x : Symbol} {xs : List Symbol} :
    All M (x :: xs) ts s s' ↔
      ∃ ts₁ ts₂ s₁, ts = ts₁ ++ ts₂ ∧ M x ts₁ s₁ s' ∧ All M xs ts₂ s s₁ := by
  constructor
  · intro h
    cases h with
    | cons hx hxs => exact ⟨_, _, _, rfl, hx, hxs⟩
  · rintro ⟨ts₁, ts₂, s₁, rfl, hx, hxs⟩
    exact .cons hx hxs

end Meaning

/-- Every rule acts as the meaning says: on what its right-hand side leaves behind, the action
    succeeds and leaves behind what the left-hand side should. -/
def Respects (g : Grammar ε σ) (M : Meaning σ) : Prop :=
  ∀ r ∈ g.rules, ∀ t ts s s₁, M.All r.rhs (t :: ts) s s₁ →
    ∃ s₂, r.action t s₁ = .ok s₂ ∧ M (.nonterminal r.lhs.id) (t :: ts) s s₂

variable {g : Grammar ε σ}

/-- Uses are replayed one after the other. -/
theorem replay_append {tokens : Array Token} {us : List Use} {s s₁ : σ}
    (h : g.replay tokens us s = .ok s₁) (vs : List Use) :
    g.replay tokens (us ++ vs) s = g.replay tokens vs s₁ := by
  rw [replay] at h
  rw [replay, List.foldlM_append, h]
  rfl

/-- A use is replayed by the action of its rule, on the token at its place. -/
theorem replay_singleton {tokens : Array Token} {u : Use} {r : Rule ε σ} {t : Token}
    (hr : g.rules[u.rule]? = some r) (ht : tokens[u.position]? = some t) (s : σ) :
    g.replay tokens [u] s = r.action t s := by
  rw [replay, List.foldlM_cons, hr, ht]
  exact bind_pure _

/-- Replaying a derivation tree acts as the meaning says, if the tokens at its leaves do. The
    tree may stand in the middle of the tokens. -/
theorem Forest.replay_means {M : Meaning σ} (hrhs : ∀ r ∈ g.rules, r.rhs ≠ [])
    (hg : g.Respects M) {ss : List Symbol} (f : Forest g ss) (pre ts post : List Token)
    (hleaves : f.leaves = ts.map Token.id) (hts : ∀ t ∈ ts, ∀ s, M (.terminal t.id) [t] s s)
    (s : σ) :
    ∃ s', g.replay (pre ++ (ts ++ post)).toArray (f.preorder pre.length).reverse s = .ok s' ∧
      M.All ss ts s s' := by
  induction f generalizing pre ts post s with
  | nil =>
    obtain rfl : ts = [] := List.map_eq_nil_iff.1 hleaves.symm
    exact ⟨s, rfl, .nil⟩
  | leaf id rest ih =>
    obtain ⟨t, ts, rfl, rfl, hrest⟩ := List.map_eq_cons_iff.1 hleaves.symm
    obtain ⟨ht, hts⟩ := List.forall_mem_cons.1 hts
    obtain ⟨s', hs', hall⟩ := ih (pre ++ [t]) ts post hrest.symm hts s
    refine ⟨s', ?_, .cons (ht s') hall⟩
    simpa [preorder] using hs'
  | @node i id r ss hi hid children rest ihc ih =>
    subst hid
    have hr := List.mem_of_getElem? hi
    obtain ⟨us, vs, rfl, hus, hvs⟩ := List.map_eq_append_iff.1 hleaves.symm
    obtain ⟨htus, htvs⟩ := List.forall_mem_append.1 hts
    have hlen : children.leaves.length = us.length := by rw [← hus, List.length_map]
    -- The children cover a token, and the first that they cover is given to the action.
    obtain ⟨t, us, rfl⟩ : ∃ t us', us = t :: us' := by
      have hpos := List.length_pos_iff.2 (hrhs r hr)
      have hle := children.length_le_leaves hrhs
      exact List.exists_cons_of_length_pos (by omega)
    obtain ⟨s₁, hs₁, hrest⟩ := ih (pre ++ t :: us) vs post hvs.symm htvs s
    obtain ⟨s₂, hs₂, hchildren⟩ := ihc pre (t :: us) (vs ++ post) hus.symm htus s₁
    obtain ⟨s₃, hs₃, hnode⟩ := hg r hr t us s₁ s₂ hchildren
    refine ⟨s₃, ?_, .cons hnode hrest⟩
    have htoken : (pre ++ (t :: us ++ vs ++ post)).toArray[pre.length]? = some t := by simp
    rw [List.append_assoc, ← List.append_assoc (t :: us)] at hs₁
    rw [← List.append_assoc (t :: us)] at hs₂
    rw [preorder, List.reverse_cons, List.reverse_append, hlen, ← List.length_append]
    rw [replay_append ((replay_append hs₁ _).trans hs₂), replay_singleton hi htoken, hs₃]

end Frontend.Grammar
