import Frontend.Proofs.Grammar.Table
import Mathlib

/-!
# The order of the table

Adding a rule behind all rules for the same symbol keeps the table sorted by left-hand side, and it
keeps the rules for one symbol in the order in which they were added. A sorted table is known from
the rules for each symbol (`eq_of_filter_eq`), so these two facts make the table of a grammar the
stable sort of the rules that were added.

In a sorted table there is one place only that has the left-hand sides below a number before it and
the others behind it (`parts_iff`), so any way to look for the ends of a slice finds the same ones.
The slice for a symbol then holds the rules added for it, in the order in which they were added
(`ofRules_stable`).
-/

namespace Frontend.Grammar

variable {ε σ : Type} {rules rules' : List (Rule ε σ)} {n i : Nat}

/-! ## Sorted tables -/

/-- The place `i` parts the left-hand sides below `n` from the others. -/
structure Parts (n i : Nat) (rules : List (Rule ε σ)) : Prop where
  le_length : i ≤ rules.length
  below : ∀ r ∈ rules.take i, r.lhs.id < n
  above : ∀ r ∈ rules.drop i, n ≤ r.lhs.id

theorem boundary_le_length (n : Nat) (rules : List (Rule ε σ)) :
    boundary n rules ≤ rules.length := by
  induction rules with
  | nil => exact Nat.le_refl _
  | cons r rules ih =>
    rw [boundary]
    split
    · exact Nat.succ_le_succ ih
    · exact Nat.zero_le _

/-- A place that parts the table is the number of left-hand sides below. -/
theorem Parts.eq_boundary (h : Parts n i rules) : i = boundary n rules := by
  induction rules generalizing i with
  | nil => exact Nat.le_zero.1 h.le_length
  | cons r rules ih =>
    rw [boundary]
    cases i with
    | zero => rw [if_neg (Nat.not_lt_of_le (h.above r List.mem_cons_self))]
    | succ i =>
      rw [if_pos (h.below r List.mem_cons_self)]
      congr 1
      refine ih ⟨Nat.le_of_succ_le_succ h.le_length, fun x hx => h.below x ?_, h.above⟩
      exact List.mem_cons_of_mem _ hx

/-- In a sorted table there is one place that parts it, and no other. -/
theorem parts_iff (h : rules.Pairwise fun a b => a.lhs.id ≤ b.lhs.id) :
    Parts n i rules ↔ i = boundary n rules := by
  constructor
  · exact Parts.eq_boundary
  · rintro rfl
    obtain ⟨hbelow, habove⟩ := boundary_parts n h
    exact ⟨boundary_le_length n rules, hbelow, habove⟩

theorem boundary_le_succ (n : Nat) (rules : List (Rule ε σ)) :
    boundary n rules ≤ boundary (n + 1) rules := by
  induction rules with
  | nil => exact Nat.le_refl _
  | cons r rules ih =>
    rw [boundary, boundary]
    split
    · next hlt =>
      rw [if_pos (Nat.lt_succ_of_lt hlt)]
      exact Nat.succ_le_succ ih
    · exact Nat.zero_le _

/-- The slice of a sorted table between the places of a number and of the next one holds the rules
    with this number. -/
theorem extract_boundary (h : rules.Pairwise fun a b => a.lhs.id ≤ b.lhs.id) (n : Nat) :
    rules.extract (boundary n rules) (boundary (n + 1) rules) =
      rules.filter (·.lhs.id == n) := by
  obtain ⟨hbelow, habove⟩ := boundary_parts n h
  obtain ⟨hbelow', habove'⟩ := boundary_parts (n + 1) h
  have hle := boundary_le_succ n rules
  generalize boundary n rules = first at *
  generalize boundary (n + 1) rules = last at *
  have hparts : rules.take first ++ (rules.extract first last ++ rules.drop last) = rules := by
    have hdrop := List.take_append_drop (last - first) (rules.drop first)
    rw [List.drop_drop, Nat.add_sub_cancel' hle] at hdrop
    rw [List.extract_eq_take_drop, hdrop, List.take_append_drop]
  have hbefore : (rules.take first).filter (·.lhs.id == n) = [] :=
    List.filter_eq_nil_iff.2 fun r hr => by simpa using Nat.ne_of_lt (hbelow r hr)
  have hafter : (rules.drop last).filter (·.lhs.id == n) = [] :=
    List.filter_eq_nil_iff.2 fun r hr => by simpa using Nat.ne_of_gt (habove' r hr)
  have hbetween : (rules.extract first last).filter (·.lhs.id == n) = rules.extract first last := by
    refine List.filter_eq_self.2 fun r hr => beq_iff_eq.2 (Nat.le_antisymm ?_ ?_)
    · rw [List.extract_eq_take_drop, ← List.drop_take] at hr
      exact Nat.le_of_lt_succ (hbelow' r (List.mem_of_mem_drop hr))
    · exact habove r (List.mem_of_mem_take hr)
  conv_rhs => rw [← hparts]
  rw [List.filter_append, List.filter_append, hbefore, hafter, hbetween, List.nil_append,
    List.append_nil]

/-- Tables with the same rules for each symbol have the same rules. -/
theorem mem_iff_of_filter_eq
    (h : ∀ id, rules.filter (·.lhs.id == id) = rules'.filter (·.lhs.id == id)) (r : Rule ε σ) :
    r ∈ rules ↔ r ∈ rules' := by
  have := congrArg (r ∈ ·) (h r.lhs.id)
  simpa [List.mem_filter] using this

/-- Two sorted tables with the same rules for each symbol are the same. -/
theorem eq_of_filter_eq (h : rules.Pairwise fun a b => a.lhs.id ≤ b.lhs.id)
    (h' : rules'.Pairwise fun a b => a.lhs.id ≤ b.lhs.id)
    (hfilter : ∀ id, rules.filter (·.lhs.id == id) = rules'.filter (·.lhs.id == id)) :
    rules = rules' := by
  induction rules generalizing rules' with
  | nil =>
    cases rules' with
    | nil => rfl
    | cons r' _ =>
      exact absurd ((mem_iff_of_filter_eq hfilter r').2 List.mem_cons_self) List.not_mem_nil
  | cons r rules ih =>
    cases rules' with
    | nil => exact absurd ((mem_iff_of_filter_eq hfilter r).1 List.mem_cons_self) List.not_mem_nil
    | cons r' rules' =>
      obtain ⟨hr, htail⟩ := List.pairwise_cons.1 h
      obtain ⟨hr', htail'⟩ := List.pairwise_cons.1 h'
      -- Each table begins with its least number, and the other table has a rule with this number.
      have hleast : ∀ x ∈ r :: rules, r.lhs.id ≤ x.lhs.id :=
        List.forall_mem_cons.2 ⟨Nat.le_refl _, hr⟩
      have hleast' : ∀ x ∈ r' :: rules', r'.lhs.id ≤ x.lhs.id :=
        List.forall_mem_cons.2 ⟨Nat.le_refl _, hr'⟩
      have hle := hleast r' ((mem_iff_of_filter_eq hfilter r').2 List.mem_cons_self)
      have hge := hleast' r ((mem_iff_of_filter_eq hfilter r).1 List.mem_cons_self)
      have hhead := hfilter r.lhs.id
      simp only [List.filter_cons, beq_self_eq_true, Nat.le_antisymm hge hle, if_true] at hhead
      obtain rfl : r = r' := (List.cons.inj hhead).1
      refine congrArg (r :: ·) (ih htail htail' fun id => ?_)
      have hid := hfilter id
      simp only [List.filter_cons] at hid
      split at hid
      · exact (List.cons.inj hid).2
      · exact hid

/-! ## Stable sorting -/

theorem decide_lhs_trans (a b c : Rule ε σ) (h : decide (a.lhs.id ≤ b.lhs.id))
    (h' : decide (b.lhs.id ≤ c.lhs.id)) : decide (a.lhs.id ≤ c.lhs.id) :=
  decide_eq_true (Nat.le_trans (of_decide_eq_true h) (of_decide_eq_true h'))

theorem decide_lhs_total (a b : Rule ε σ) :
    decide (a.lhs.id ≤ b.lhs.id) || decide (b.lhs.id ≤ a.lhs.id) := by
  simpa using Nat.le_total _ _

/-- Sorting keeps the rules for a symbol in their order. -/
theorem filter_mergeSort (added : List (Rule ε σ)) (id : Nat) :
    (added.mergeSort fun a b => a.lhs.id ≤ b.lhs.id).filter (·.lhs.id == id) =
      added.filter (·.lhs.id == id) := by
  have hequal : (added.filter (·.lhs.id == id)).Pairwise
      fun a b => decide (a.lhs.id ≤ b.lhs.id) = true := by
    refine List.pairwise_of_forall_mem_list fun a ha b hb => ?_
    have ha := beq_iff_eq.1 (List.mem_filter.1 ha).2
    have hb := beq_iff_eq.1 (List.mem_filter.1 hb).2
    exact decide_eq_true (Nat.le_of_eq (ha.trans hb.symm))
  have hsub := (List.sublist_mergeSort decide_lhs_trans decide_lhs_total hequal
    List.filter_sublist).filter (·.lhs.id == id)
  have hlength := ((List.mergeSort_perm added fun a b => a.lhs.id ≤ b.lhs.id).filter
    (·.lhs.id == id)).length_eq
  rw [List.filter_filter] at hsub
  simp only [Bool.and_self] at hsub
  exact (hsub.eq_of_length hlength.symm).symm

/-- The table of a grammar is the stable sort of the rules that were added. -/
theorem rules_ofRules (start : Symbol) (added : List (Rule ε σ)) :
    (ofRules start added).rules = added.mergeSort fun a b => a.lhs.id ≤ b.lhs.id := by
  have hsorted := List.pairwise_mergeSort decide_lhs_trans decide_lhs_total added
  refine eq_of_filter_eq (ofRules start added).sorted (hsorted.imp of_decide_eq_true) fun id => ?_
  rw [filter_rules_ofRules, filter_mergeSort]

/-- The rules that were added, in order, make a table that is their stable sort by left-hand side:
    those for the same symbol stand in the order in which they were added. Only one place in it
    parts the left-hand sides below a number from the others. Between the places for a symbol's
    number and for the next number, there are exactly the rules that were added for the symbol, in
    this order, and these are its alternatives with their indices. -/
theorem ofRules_stable (start : Symbol) (added : List (Rule ε σ)) :
    let g := ofRules start added
    g.rules = (added.mergeSort fun a b => a.lhs.id ≤ b.lhs.id) ∧
    (∀ id, g.rules.filter (·.lhs.id == id) = added.filter (·.lhs.id == id)) ∧
    (∀ n i, Parts n i g.rules ↔ i = boundary n g.rules) ∧
    ∀ s : Symbol,
      g.rules.extract (boundary s.id g.rules) (boundary (s.id + 1) g.rules) =
        added.filter (·.lhs.id == s.id) ∧
      g.alternatives s = (added.filter (·.lhs.id == s.id)).zipIdx (boundary s.id g.rules) := by
  intro g
  refine ⟨rules_ofRules start added, filter_rules_ofRules start added,
    fun n i => parts_iff g.sorted, fun s => ?_⟩
  have hslice := extract_boundary g.sorted s.id
  rw [filter_rules_ofRules] at hslice
  exact ⟨hslice, congrArg (List.zipIdx · (boundary s.id g.rules)) hslice⟩

end Frontend.Grammar
