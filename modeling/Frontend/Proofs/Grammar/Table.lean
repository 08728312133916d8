import Frontend.Grammar.Table

/-!
# Alternatives

The slice of the table that `Grammar.alternatives` cuts out holds exactly the rules for a symbol
(`mem_alternatives`): the table is sorted, so the two boundaries that delimit the slice separate
these rules from those before and after them. A rule is added behind all rules for the same
symbol, so these stay in the order in which they were added (`filter_rules_ofRules`).
-/

namespace Frontend.Grammar

variable {ε σ : Type} {g : Grammar ε σ}

/-- A rule stands before the boundary of `n` exactly if its left-hand side is below `n`. -/
theorem lt_boundary_iff {i : Nat} {r : Rule ε σ} (h : g.rules[i]? = some r) (n : Nat) :
    i < boundary n g.rules ↔ r.lhs.id < n := by
  obtain ⟨hbelow, habove⟩ := boundary_parts n g.sorted
  constructor
  · intro hi
    refine hbelow r (List.mem_of_getElem? (i := i) ?_)
    rw [List.getElem?_take_of_lt hi, h]
  · intro hr
    refine Nat.lt_of_not_le fun hi => ?_
    refine absurd (habove r (List.mem_of_getElem? (i := i - boundary n g.rules) ?_))
      (Nat.not_le_of_lt hr)
    rw [List.getElem?_drop, Nat.add_sub_cancel' hi, h]

/-- The alternatives for a symbol are the rules with its number on their left-hand side. -/
theorem mem_alternatives {s : Symbol} {r : Rule ε σ} {i : Nat} :
    (r, i) ∈ g.alternatives s ↔ g.rules[i]? = some r ∧ r.lhs.id = s.id := by
  rw [alternatives, List.mk_mem_zipIdx_iff_le_and_getElem?_sub]
  constructor
  · rintro ⟨hle, h⟩
    obtain ⟨hlt, -⟩ := List.getElem?_eq_some_iff.1 h
    rw [List.length_take, List.length_drop] at hlt
    rw [List.getElem?_take_of_lt (by omega), List.getElem?_drop, Nat.add_sub_cancel' hle] at h
    have hlast : i < boundary (s.id + 1) g.rules := by omega
    have hupper := (lt_boundary_iff h _).1 hlast
    have hlower := mt (lt_boundary_iff h _).2 (Nat.not_lt_of_le hle)
    exact ⟨h, by omega⟩
  · rintro ⟨h, hs⟩
    have hle : boundary s.id g.rules ≤ i :=
      Nat.le_of_not_lt fun hi => absurd ((lt_boundary_iff h _).1 hi) (by omega)
    have hlt : i < boundary (s.id + 1) g.rules := (lt_boundary_iff h _).2 (by omega)
    refine ⟨hle, ?_⟩
    rw [List.getElem?_take_of_lt (by omega), List.getElem?_drop, Nat.add_sub_cancel' hle, h]

/-- The alternatives for a symbol are listed by increasing index. -/
theorem pairwise_alternatives (g : Grammar ε σ) (s : Symbol) :
    (g.alternatives s).Pairwise fun a b => a.2 < b.2 := by
  rw [← List.pairwise_map (f := Prod.snd) (R := (· < ·)), alternatives, List.zipIdx_map_snd]
  exact List.pairwise_lt_range'

/-! ## The order of the rules -/

theorem filter_rules_add (g : Grammar ε σ) (rule : Rule ε σ) (id : Nat) :
    (g.add rule).rules.filter (·.lhs.id == id) =
      g.rules.filter (·.lhs.id == id) ++ [rule].filter (·.lhs.id == id) := by
  obtain ⟨-, habove⟩ := boundary_parts (rule.lhs.id + 1) g.sorted
  generalize hk : boundary (rule.lhs.id + 1) g.rules = k at habove
  have hrules : (g.add rule).rules = g.rules.take k ++ ([rule] ++ g.rules.drop k) := by
    rw [List.singleton_append, ← hk]
    rfl
  have hparts := congrArg (List.filter (·.lhs.id == id)) (List.take_append_drop k g.rules)
  rw [List.filter_append] at hparts
  rw [hrules, ← hparts, List.filter_append, List.filter_append]
  by_cases hid : rule.lhs.id = id
  · -- No rule behind the new one is for the same symbol.
    have hnone : (g.rules.drop k).filter (·.lhs.id == id) = [] := by
      refine List.filter_eq_nil_iff.2 fun r hr => ?_
      have := habove r hr
      rw [beq_iff_eq]
      omega
    rw [hnone, List.append_nil, List.append_nil]
  · simp [hid]

/-- The rules for a symbol stand in the table in the order in which they were added. -/
theorem filter_rules_ofRules (start : Symbol) (added : List (Rule ε σ)) (id : Nat) :
    (ofRules start added).rules.filter (·.lhs.id == id) = added.filter (·.lhs.id == id) := by
  suffices h : ∀ g : Grammar ε σ, (added.foldl add g).rules.filter (·.lhs.id == id) =
      g.rules.filter (·.lhs.id == id) ++ added.filter (·.lhs.id == id) from h _
  induction added with
  | nil => simp
  | cons rule added ih =>
    intro g
    rw [List.foldl_cons, ih, filter_rules_add, List.append_assoc, ← List.filter_append,
      List.singleton_append]

/-- Of two rules for the same symbol, the one with the greater index was added later. -/
theorem sublist_added {start : Symbol} {added : List (Rule ε σ)} {i i' : Nat} {r r' : Rule ε σ}
    (hi : (ofRules start added).rules[i]? = some r)
    (hi' : (ofRules start added).rules[i']? = some r') (hlhs : r'.lhs.id = r.lhs.id)
    (hlt : i' < i) : [r', r].Sublist added := by
  have hpair : [r', r].Sublist (ofRules start added).rules := by
    obtain ⟨hlen, heq⟩ := List.getElem?_eq_some_iff.1 hi'
    refine .trans ?_ (List.drop_sublist i' _)
    rw [List.drop_eq_getElem_cons hlen, heq]
    refine (List.singleton_sublist.2 (List.mem_of_getElem? (i := i - (i' + 1)) ?_)).cons_cons _
    rw [List.getElem?_drop, Nat.add_sub_cancel' hlt, hi]
  have hsub := hpair.filter (·.lhs.id == r.lhs.id)
  rw [filter_rules_ofRules, List.filter_eq_self.2 (by simp [hlhs])] at hsub
  exact hsub.trans List.filter_sublist

end Frontend.Grammar
