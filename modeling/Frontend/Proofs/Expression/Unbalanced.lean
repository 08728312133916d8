import Frontend.Proofs.Expression.Blame
import Frontend.Proofs.Expression.SplitPoint

/-!
# Unbalanced parentheses

The construction counts parentheses in several places: where it looks for a split point, for the
end of a group, for the end of a call and for the commas between its arguments. Only the first of
these counts ever finds parentheses without partners. A run that passes it is balanced
(`balanced_of_splitPoint`), and so are the pieces that are cut out of it (`Piece.balanced`); so no
level but the outermost one has a run that is not balanced, and what this level finds is the first
parenthesis to be blamed, or an unknown operator before it (`exists_splitPoint_eq_error`).
-/

namespace Frontend.Expression

variable {table : OperatorTable} {ts us vs : List Token} {t f o : Token} {c : Complaint}
  {point : Option Nat} {i k : Nat}

/-! ## Balanced runs -/

/-- Cut where no group is open, a balanced run falls into balanced runs. -/
theorem Balanced.of_append (h : Balanced (us ++ vs)) (hus : depth 0 us = 0) :
    Balanced us ∧ Balanced vs := by
  refine ⟨⟨fun i hi => ?_, fun i hi => ?_⟩, ⟨fun i hi => ?_, fun i hi => ?_⟩⟩
  · exact h.not_stray i ((outside_append_left hi.lt_length).2 hi)
  · -- A group that stays open would be open at the cut.
    obtain ⟨t, ht, -, hdeeper⟩ := hi
    have hlt := hdeeper us.length (List.getElem?_eq_some_iff.1 ht).1 (Nat.le_refl _)
    rw [List.take_length, hus] at hlt
    exact Nat.not_lt_zero _ hlt
  · refine h.not_stray (us.length + i) (outside_append_right.2 ?_)
    rwa [hus]
  · obtain ⟨t, ht, ho, hdeeper⟩ := hi
    refine h.not_unclosed (us.length + i) ⟨t, ?_, ho, fun j hj hle => ?_⟩
    · rwa [List.getElem?_append_right (Nat.le_add_right _ _), Nat.add_sub_cancel_left]
    · obtain ⟨k, rfl⟩ := Nat.exists_eq_add_of_le (Nat.le_of_lt (Nat.lt_of_le_of_lt
        (Nat.le_add_right _ _) hj))
      rw [List.length_append] at hle
      rw [List.take_length_add_append, List.take_length_add_append, depth_append, depth_append,
        hus]
      exact hdeeper k (by omega) (by omega)

/-- A run in which the search for a split point succeeds is balanced. -/
theorem balanced_of_splitPoint (h : table.splitPoint ts = .ok point) : Balanced ts := by
  cases splits_of_eq h with
  | operand hnone hclosed _ => exact ⟨fun j hj => hnone j (.inl hj), hclosed⟩
  | operator hnone hclosed _ => exact ⟨fun j hj => hnone j (.inl hj), hclosed⟩

/-- At the split point of a run, no group is open. -/
theorem balanced_of_cutAt (h : table.splitPoint ts = .ok (some i))
    (hcut : cutAt ts i = some (us, t, vs)) : Balanced us ∧ Balanced vs := by
  have hts := balanced_of_splitPoint h
  cases splits_of_eq h with
  | operator _ _ hi =>
    obtain rfl := eq_of_cutAt hcut
    obtain rfl := length_of_cutAt hcut
    obtain ⟨ht, hdepth⟩ := outside_length_iff.1 hi.outside
    have ho : ¬t.is .openParen := not_is_of_isBinaryOperator ht (by decide)
    have hc : ¬t.is .closeParen := not_is_of_isBinaryOperator ht (by decide)
    obtain ⟨hus, hrest⟩ := hts.of_append hdepth
    have hrest : Balanced ([t] ++ vs) := hrest
    exact ⟨hus, (hrest.of_append (depthAfter_other ho hc 0)).2⟩

/-- Only balanced pieces are built any further. -/
theorem Piece.balanced (h : Piece table ts us) : Balanced us := by
  cases h with
  | left hpoint hcut => exact (balanced_of_cutAt hpoint hcut).1
  | right hpoint hcut => exact (balanced_of_cutAt hpoint hcut).2
  | inside _ hinside =>
    obtain ⟨o, -, -, hcut⟩ := groupInside?_eq_some hinside
    exact (cutAtClose_eq_some_iff.1 hcut).2.2.balanced
  | argument _ _ hcut hpart =>
    have hinner := (cutAtClose_eq_some_iff.1 hcut).2.2
    exact (nested_of_mem_cutAtCommas hinner _ hpart).balanced

/-- What would be the parenthesis of a call is closed in a balanced run. -/
theorem Balanced.cutAtClose_ne_none (h : Balanced (f :: o :: us)) (ho : o.is .openParen) :
    cutAtClose 0 us ≠ none := by
  intro hus
  have hunclosed : Unclosed ([f] ++ o :: us) 1 := unclosed_length ho hus
  exact h.not_unclosed 1 hunclosed

/-- A level does not complain of unbalanced parentheses in a balanced run. -/
theorem Complains.problem_ne (h : Complains table ts c) (hts : Balanced ts) :
    c.problem ≠ .unbalancedParentheses := by
  cases h with
  | split hpoint =>
    cases splits_of_eq hpoint with
    | refused hi ht =>
      obtain ⟨t', ht', ⟨hop, -⟩, -⟩ := hi.1.resolve_left (hts.not_stray _)
      obtain rfl := Option.some.inj (ht.symm.trans ht')
      rw [refusal, if_neg (not_is_of_isBinaryOperator hop (by decide))]
      exact Problem.noConfusion
    | unclosed _ hi _ => exact absurd hi.1 (hts.not_unclosed _)
  | unclosed _ heq ho hcut =>
    subst heq
    exact absurd hcut (hts.cutAtClose_ne_none ho)
  | operator _ _ _ _ => exact Problem.noConfusion
  | quoted _ hp _ =>
    rintro rfl
    exact Option.some_ne_none _ hp.symm
  | between _ _ => exact Problem.noConfusion
  | empty => exact Problem.noConfusion

/-- The construction does not complain of unbalanced parentheses in a balanced run. -/
theorem Balanced.problem_ne (hts : Balanced ts) (h : build table ts = .error c) :
    c.problem ≠ .unbalancedParentheses := by
  induction hn : ts.length using Nat.strongRecOn generalizing ts with
  | ind n ih =>
    rw [build_eq] at h
    rcases error_of_buildStep h with hlevel | ⟨us, hus, h⟩
    · exact hlevel.problem_ne hts
    · exact ih us.length (hn ▸ hus.length_lt) hus.balanced h rfl

/-! ## Runs that are not balanced -/

/-- An unknown operator that is refused stands before the parenthesis to be blamed: behind that,
    there are no operators outside parentheses. -/
theorem FirstUnmatched.lt_of_unknown (hk : FirstUnmatched ts k)
    (hi : IsLeast {i | Refused table ts i} i) (hunknown : Unknown table ts i) : i < k := by
  have hle : i ≤ k := by
    rcases hk with ⟨hstray, -⟩ | ⟨-, hunclosed, -⟩
    · exact hi.2 (.inl hstray)
    · exact hunclosed.le_of_outside hunknown
  refine Nat.lt_of_le_of_ne hle ?_
  rintro rfl
  obtain ⟨t, ht, hparen⟩ := hk.exists_paren
  obtain ⟨op, hop, ⟨hbinary, -⟩, -⟩ := hunknown
  obtain rfl := Option.some.inj (ht.symm.trans hop)
  rcases hparen with ho | hc
  · exact not_is_of_isBinaryOperator hbinary (by decide) ho
  · exact not_is_of_isBinaryOperator hbinary (by decide) hc

/-- In a run that is not balanced, the first parenthesis to be blamed is found or, before it, the
    first unknown operator. -/
theorem exists_splitPoint_eq_error (h : ¬Balanced ts) :
    ∃ i t c, FirstUnmatched ts i ∧ ts[i]? = some t ∧ table.splitPoint ts = .error c ∧
      ((∀ j < i, ¬Unknown table ts j) → c = t.unbalanced) ∧
      ((∃ j < i, Unknown table ts j) → ∃ j op, IsLeast {j | Unknown table ts j} j ∧
        ts[j]? = some op ∧ c = ⟨.unknownOperator op.lexeme, op.span⟩) := by
  have hsplits := splits_splitPoint table ts
  generalize table.splitPoint ts = r at hsplits
  cases hsplits with
  | operand hnone hclosed _ => exact absurd ⟨fun j hj => hnone j (.inl hj), hclosed⟩ h
  | operator hnone hclosed _ => exact absurd ⟨fun j hj => hnone j (.inl hj), hclosed⟩ h
  | @unclosed i t hnone hi ht =>
    refine ⟨i, t, _, .inr ⟨fun j hj => hnone j (.inl hj), hi⟩, ht, rfl, fun _ => rfl, ?_⟩
    rintro ⟨j, -, hj⟩
    exact absurd (.inr hj) (hnone j)
  | @refused i t hi ht =>
    rcases hi.1 with hstray | hunknown
    · obtain ⟨t', ht', hc, -⟩ := id hstray
      obtain rfl := Option.some.inj (ht.symm.trans ht')
      refine ⟨i, t, _, .inl ⟨hstray, fun j hj => hi.2 (.inl hj)⟩, ht, rfl, fun _ => ?_, ?_⟩
      · rw [refusal, if_pos hc]
      · rintro ⟨j, hlt, hj⟩
        exact absurd (hi.2 (.inr hj)) (Nat.not_le.2 hlt)
    · obtain ⟨t', ht', ⟨hop, -⟩, -⟩ := id hunknown
      obtain rfl := Option.some.inj (ht.symm.trans ht')
      obtain ⟨k, hk⟩ := exists_firstUnmatched_iff.2 h
      obtain ⟨u, hu, -⟩ := hk.exists_paren
      have hlt := hk.lt_of_unknown hi hunknown
      refine ⟨k, u, _, hk, hu, rfl, fun hnone => absurd hunknown (hnone i hlt), fun _ => ?_⟩
      refine ⟨i, t, ⟨hunknown, fun j hj => hi.2 (.inr hj)⟩, ht, ?_⟩
      rw [refusal, if_neg (not_is_of_isBinaryOperator hop (by decide))]

theorem build_of_splitPoint_eq_error (h : table.splitPoint ts = .error c) :
    build table ts = .error c := by
  cases ts with
  | nil => exact nomatch h
  | cons t ts =>
    rw [build_eq, buildStep, h]
    rfl

/-- Unbalanced parentheses are found at the outermost level or not at all. The construction fails
    for a run that is not balanced, and blames the first stray `)` or else the first `(` that is not
    closed, unless there is an unknown operator before it. All the runs that it cuts out are
    balanced, and so are those in which it looks for an operand: in a call, there is a `)`. So it
    is of no consequence how runs would be built that are not balanced. -/
theorem build_unbalanced (table : OperatorTable) (ts : List Token) :
    (∀ c, build table ts = .error c → c.problem = .unbalancedParentheses →
      ¬Balanced ts ∧ ∃ i t, FirstUnmatched ts i ∧ ts[i]? = some t ∧ c = t.unbalanced) ∧
    (¬Balanced ts →
      ∃ i t c, FirstUnmatched ts i ∧ ts[i]? = some t ∧ build table ts = .error c ∧
        ((∀ j < i, ¬Unknown table ts j) → c = t.unbalanced) ∧
        ((∃ j < i, Unknown table ts j) → ∃ j op, IsLeast {j | Unknown table ts j} j ∧
          ts[j]? = some op ∧ c = ⟨.unknownOperator op.lexeme, op.span⟩)) ∧
    (∀ us, Relation.TransGen (Piece table) ts us → Balanced us) ∧
    (∀ us point, Relation.ReflTransGen (Piece table) ts us → table.splitPoint us = .ok point →
      Balanced us ∧ ∀ f o vs, us = f :: o :: vs → o.is .openParen → cutAtClose 0 vs ≠ none) ∧
    ∀ build', (∀ us, Balanced us → build' us = build table us) →
      buildStep table build' ts = build table ts := by
  refine ⟨fun c h hc => ?_, fun hts => ?_, fun us hus => ?_, fun us point _ hpoint => ?_,
    fun build' hbuild => ?_⟩
  · have hts : ¬Balanced ts := fun hts => hts.problem_ne h hc
    refine ⟨hts, ?_⟩
    obtain ⟨i, t, c', hi, ht, hpoint, hnone, hsome⟩ := exists_splitPoint_eq_error hts
    obtain rfl := Except.error.inj (h.symm.trans (build_of_splitPoint_eq_error hpoint))
    refine ⟨i, t, hi, ht, hnone fun j hlt hj => ?_⟩
    obtain ⟨_, _, -, -, rfl⟩ := hsome ⟨j, hlt, hj⟩
    exact nomatch hc
  · obtain ⟨i, t, c, hi, ht, hpoint, hc⟩ := exists_splitPoint_eq_error hts
    exact ⟨i, t, c, hi, ht, build_of_splitPoint_eq_error hpoint, hc⟩
  · cases hus with
    | single h => exact h.balanced
    | tail _ h => exact h.balanced
  · have hus := balanced_of_splitPoint hpoint
    refine ⟨hus, ?_⟩
    rintro f o vs rfl ho
    exact hus.cutAtClose_ne_none ho
  · rw [build_eq]
    exact buildStep_congr rfl fun us hus => hbuild us hus.balanced

/-- In `f((a)` the first `(` is blamed, and the argument of `f((a))` is balanced. -/
theorem build_unbalanced_call :
    let token (k : Kind) (lexeme : String) (i : Nat) : Token :=
      ⟨k.id, lexeme, ⟨i, i + 1⟩, .nowhere⟩
    let argument := [token .openParen "(" 2, token .identifier "a" 3, token .closeParen ")" 4]
    let tokens := token .identifier "f" 0 :: token .openParen "(" 1 :: argument
    let call := tokens ++ [token .closeParen ")" 5]
    build .standard tokens = .error ⟨.unbalancedParentheses, ⟨1, 2⟩⟩ ∧
      (∃ i t, FirstUnmatched tokens i ∧ tokens[i]? = some t ∧ t.span = ⟨1, 2⟩) ∧
      (∃ c, build .empty tokens = .error c) ∧ Balanced argument ∧ Balanced call := by
  intro token argument tokens call
  have hbuild : build .standard tokens = .error ⟨.unbalancedParentheses, ⟨1, 2⟩⟩ := rfl
  obtain ⟨hts, i, t, hi, ht, hc⟩ := (build_unbalanced .standard tokens).1 _ hbuild rfl
  have hspan : t.span = ⟨1, 2⟩ := congrArg Complaint.span hc.symm
  obtain ⟨_, _, c, -, -, hempty, -⟩ := (build_unbalanced .empty tokens).2.1 hts
  have hpart : (argument, none) ∈ cutAtCommas 0 argument := List.mem_singleton_self _
  have hpiece : Piece .standard call argument := .argument rfl rfl rfl hpart
  obtain ⟨-, -, hpieces, hlevels, -⟩ := build_unbalanced .standard call
  exact ⟨hbuild, ⟨i, t, hi, ht, hspan⟩, ⟨c, hempty⟩, hpieces _ (.single hpiece),
    (hlevels call none .refl rfl).1⟩

end Frontend.Expression
