import Frontend.Grammar.Rule

/-!
# Rule tables

A grammar is a start symbol and a table of rules. The table is kept sorted by the number of
the left-hand side, with rules for the same number in the order in which they were added, so
that the alternatives for a symbol are a slice of it (`Grammar.alternatives`). A rule is
known by its index in the table.
-/

namespace Frontend

/-- A start symbol and a table of rules. -/
structure Grammar (ε σ : Type) where
  start : Symbol
  rules : List (Rule ε σ)
  /-- The table is sorted by left-hand side. -/
  sorted : rules.Pairwise fun a b => a.lhs.id ≤ b.lhs.id

namespace Grammar

variable {ε σ : Type}

/-- The number of rules at the head of a table that have a left-hand side below `n`. -/
def boundary (n : Nat) : List (Rule ε σ) → Nat
  | [] => 0
  | r :: rs => if r.lhs.id < n then boundary n rs + 1 else 0

/-- The table with a rule added after all rules with the same left-hand side. -/
def insertRule (rule : Rule ε σ) (rules : List (Rule ε σ)) : List (Rule ε σ) :=
  let i := boundary (rule.lhs.id + 1) rules
  rules.take i ++ rule :: rules.drop i

/-- In a sorted table, the boundary of `n` parts the left-hand sides below `n` from the
    others. -/
theorem boundary_parts {rules : List (Rule ε σ)} (n : Nat)
    (h : rules.Pairwise fun a b => a.lhs.id ≤ b.lhs.id) :
    (∀ r ∈ rules.take (boundary n rules), r.lhs.id < n) ∧
      ∀ r ∈ rules.drop (boundary n rules), n ≤ r.lhs.id := by
  induction rules with
  | nil => simp
  | cons r rs ih =>
    obtain ⟨hr, hrs⟩ := List.pairwise_cons.1 h
    rw [boundary]
    split
    · next hlt =>
      rw [List.take_succ_cons, List.drop_succ_cons]
      refine ⟨fun x hx => ?_, (ih hrs).2⟩
      rcases List.mem_cons.1 hx with rfl | hx
      · exact hlt
      · exact (ih hrs).1 x hx
    · next hge =>
      refine ⟨fun x hx => absurd hx List.not_mem_nil, fun x hx => ?_⟩
      rcases List.mem_cons.1 hx with rfl | hx
      · exact Nat.le_of_not_lt hge
      · exact Nat.le_trans (Nat.le_of_not_lt hge) (hr x hx)

theorem pairwise_insertRule {rules : List (Rule ε σ)} (rule : Rule ε σ)
    (h : rules.Pairwise fun a b => a.lhs.id ≤ b.lhs.id) :
    (insertRule rule rules).Pairwise fun a b => a.lhs.id ≤ b.lhs.id := by
  obtain ⟨hbelow, habove⟩ := boundary_parts (rule.lhs.id + 1) h
  rw [insertRule, List.pairwise_append, List.pairwise_cons]
  refine ⟨h.take, ⟨fun b hb => ?_, h.drop⟩, fun a ha b hb => ?_⟩
  · exact Nat.le_of_succ_le (habove b hb)
  · have hle := Nat.le_of_lt_succ (hbelow a ha)
    rcases List.mem_cons.1 hb with rfl | hb
    · exact hle
    · exact Nat.le_trans hle (Nat.le_of_succ_le (habove b hb))

/-- The grammar with one more rule. -/
def add (g : Grammar ε σ) (rule : Rule ε σ) : Grammar ε σ :=
  ⟨g.start, insertRule rule g.rules, pairwise_insertRule rule g.sorted⟩

/-- The grammar with the given rules, added in order. -/
def ofRules (start : Symbol) (rules : List (Rule ε σ)) : Grammar ε σ :=
  rules.foldl add ⟨start, [], .nil⟩

/-- The rules that expand a symbol, with their indices in the table. They begin where the number of
    the symbol would be inserted, and end where the next number, `s.id + 1`, would be. That number
    is taken without a bound: with numbers of 32 bits it exists for every symbol but the one
    numbered `2 ^ 32 - 1`, for which the sum overflows. -/
def alternatives (g : Grammar ε σ) (s : Symbol) : List (Rule ε σ × Nat) :=
  let first := boundary s.id g.rules
  let last := boundary (s.id + 1) g.rules
  ((g.rules.drop first).take (last - first)).zipIdx first

end Grammar

end Frontend
