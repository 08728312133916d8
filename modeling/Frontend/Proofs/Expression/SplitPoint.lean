import Frontend.Proofs.Expression.Balance
import Frontend.Proofs.Expression.Chain

/-!
# The split point

The search for a split point goes over a run once and keeps no more than the open parentheses, the
best operator so far and its precedence. What it answers can be said of the run as a whole
(`Splits`): the first token that is a stray `)`, or an operator outside parentheses that is not in
the table, is reported (`Refused`), or else the first `(` that is not closed. Without such tokens,
the answer is among the operators outside parentheses that bind least (`weakest`), if there are
any: the right-most of them that groups to the left, or the left-most one if all group to the
right (`IsSplitPoint`).

A run that is nested up to its first refused token, or its first unclosed `(`, is a chain up to
there, so the scan passes over it (`Chain.scanSplit`); and if all of the run is a chain, the
operators that bind least are those found by the fold over its operators.
-/

namespace Frontend.Expression

/-- An operator that is not in the table stands at the index `i`, outside parentheses. -/
def Unknown (table : OperatorTable) (ts : List Token) (i : Nat) : Prop :=
  Outside (fun t => isBinaryOperator t.id ∧ table.get? t.id = none) 0 ts i

/-- The token at the index `i` is a stray `)` or an unknown operator. -/
def Refused (table : OperatorTable) (ts : List Token) (i : Nat) : Prop :=
  Stray ts i ∨ Unknown table ts i

/-- The complaint about a refused token. -/
def refusal (t : Token) : Complaint :=
  if t.is .closeParen then t.unbalanced else ⟨.unknownOperator t.lexeme, t.span⟩

/-- The operators outside parentheses, each with its index and binding. -/
def operators (table : OperatorTable) (ts : List Token) : Set (Nat × Binding) :=
  {op | Outside (fun t => isBinaryOperator t.id ∧ table.get? t.id = some op.2) 0 ts op.1}

/-- The operators outside parentheses that bind least. -/
def weakest (table : OperatorTable) (ts : List Token) : Set (Nat × Binding) :=
  {op ∈ operators table ts | ∀ op' ∈ operators table ts, op.2.precedence ≤ op'.2.precedence}

/-- Of the operators outside parentheses that bind least, the right-most one that groups to the
    left stands at the index `i` or, if all of them group to the right, the left-most one. -/
def IsSplitPoint (table : OperatorTable) (ts : List Token) (i : Nat) : Prop :=
  IsGreatest {j | ∃ b, (j, b) ∈ weakest table ts ∧ b.associativity = .left} i ∨
    (∀ op ∈ weakest table ts, op.2.associativity = .right) ∧
      IsLeast {j | ∃ b, (j, b) ∈ weakest table ts} i

/-- What is to be answered to the question where to split a run of tokens. -/
inductive Splits (table : OperatorTable) (ts : List Token) :
    Except Complaint (Option Nat) → Prop
  | refused {i : Nat} {t : Token} : IsLeast {i | Refused table ts i} i → ts[i]? = some t →
      Splits table ts (.error (refusal t))
  | unclosed {i : Nat} {t : Token} : (∀ j, ¬Refused table ts j) →
      IsLeast {i | Unclosed ts i} i → ts[i]? = some t → Splits table ts (.error t.unbalanced)
  | operand : (∀ j, ¬Refused table ts j) → (∀ j, ¬Unclosed ts j) →
      (∀ j, ¬Outside (isBinaryOperator ·.id) 0 ts j) → Splits table ts (.ok none)
  | operator {i : Nat} : (∀ j, ¬Refused table ts j) → (∀ j, ¬Unclosed ts j) →
      IsSplitPoint table ts i → Splits table ts (.ok (some i))

variable {P : Token → Prop} {table : OperatorTable} {ops : List (Nat × Binding)}
  {op : Nat × Binding}
  {opened : List Token} {best : Option (Nat × Int)} {ts us vs : List Token} {t o : Token}
  {i j d : Nat} {b : Binding} {r r' : Except Complaint (Option Nat)}

/-! ## Only one answer -/

/-- There is at most one split point. -/
theorem IsSplitPoint.unique (hi : IsSplitPoint table ts i) (hj : IsSplitPoint table ts j) :
    i = j := by
  have hmixed {i j : Nat}
      (hi : IsGreatest {j | ∃ b, (j, b) ∈ weakest table ts ∧ b.associativity = .left} i)
      (hj : ∀ op ∈ weakest table ts, op.2.associativity = .right) : i = j := by
    obtain ⟨⟨b, hb, hleft⟩, -⟩ := hi
    exact nomatch hleft.symm.trans (hj _ hb)
  rcases hi with hi | ⟨hright, hi⟩ <;> rcases hj with hj | ⟨hright', hj⟩
  · exact hi.unique hj
  · exact hmixed hi hright'
  · exact (hmixed hj hright).symm
  · exact hi.unique hj

theorem IsSplitPoint.outside (h : IsSplitPoint table ts i) :
    Outside (isBinaryOperator ·.id) 0 ts i := by
  have hweakest : ∃ b, (i, b) ∈ weakest table ts := by
    rcases h with ⟨⟨b, hb, -⟩, -⟩ | ⟨-, hb, -⟩
    · exact ⟨b, hb⟩
    · exact hb
  obtain ⟨b, hb, -⟩ := hweakest
  exact Outside.mono hb fun _ ht => ht.1

/-- There is one answer only. -/
theorem Splits.unique (h : Splits table ts r) (h' : Splits table ts r') : r = r' := by
  have hsame {i j : Nat} {t t' : Token} {s : Set Nat} (hi : IsLeast s i) (ht : ts[i]? = some t)
      (hj : IsLeast s j) (ht' : ts[j]? = some t') : t = t' := by
    obtain rfl := hi.unique hj
    exact Option.some.inj (ht.symm.trans ht')
  cases h with
  | refused hi ht =>
    cases h' with
    | refused hj ht' => rw [hsame hi ht hj ht']
    | unclosed hnone _ _ => exact absurd hi.1 (hnone _)
    | operand hnone _ _ => exact absurd hi.1 (hnone _)
    | operator hnone _ _ => exact absurd hi.1 (hnone _)
  | unclosed hnone hi ht =>
    cases h' with
    | refused hj _ => exact absurd hj.1 (hnone _)
    | unclosed _ hj ht' => rw [hsame hi ht hj ht']
    | operand _ hclosed _ => exact absurd hi.1 (hclosed _)
    | operator _ hclosed _ => exact absurd hi.1 (hclosed _)
  | operand hnone hclosed hi =>
    cases h' with
    | refused hj _ => exact absurd hj.1 (hnone _)
    | unclosed _ hj _ => exact absurd hj.1 (hclosed _)
    | operand _ _ _ => rfl
    | operator _ _ hj => exact absurd hj.outside (hi _)
  | operator hnone hclosed hi =>
    cases h' with
    | refused hj _ => exact absurd hj.1 (hnone _)
    | unclosed _ hj _ => exact absurd hj.1 (hclosed _)
    | operand _ _ hj => exact absurd hi.outside (hj _)
    | operator _ _ hj => rw [hi.unique hj]

/-! ## Runs without refused tokens -/

/-- The operators of a chain are those outside parentheses. -/
theorem Chain.mem_iff (h : Chain table i ops ts) :
    (i + j, b) ∈ ops ↔
      Outside (fun t => isBinaryOperator t.id ∧ table.get? t.id = some b) 0 ts j := by
  have hoperand {us : List Token} {j : Nat} (hus : Nested (fun t => ¬isBinaryOperator t.id) us) :
      ¬Outside (fun t => isBinaryOperator t.id ∧ table.get? t.id = some b) 0 us j := by
    intro hj
    obtain ⟨t, ⟨hop, -⟩, ho | ⟨-, -, hnot⟩⟩ := hus.of_outside hj
    · exact not_is_of_isBinaryOperator hop (by decide) ho
    · exact hnot hop
  induction h generalizing j with
  | operand hts => exact iff_of_false List.not_mem_nil (hoperand hts)
  | @operator i ops b' t ts us hts ht hb hus ih =>
    -- The operators behind the first one have greater indices.
    have hlater {k : Nat} (hk : (i + k, b) ∈ ops) : ts.length < k := by
      have := hus.index_mem _ hk
      omega
    rw [List.mem_cons, Prod.mk.injEq, Nat.add_left_cancel_iff]
    rcases Nat.lt_or_ge j ts.length with hlt | hge
    · rw [outside_append_left hlt]
      refine iff_of_false ?_ (hoperand hts)
      rintro (⟨rfl, -⟩ | hmem)
      · exact Nat.lt_irrefl _ hlt
      · exact Nat.lt_asymm hlt (hlater hmem)
    · obtain ⟨k, rfl⟩ := Nat.exists_eq_add_of_le hge
      rw [outside_append_right, hts.depth_eq]
      cases k with
      | zero =>
        rw [outside_zero_iff]
        constructor
        · rintro (⟨-, rfl⟩ | hmem)
          · exact ⟨⟨ht, hb⟩, rfl⟩
          · exact absurd (hlater hmem) (Nat.lt_irrefl _)
        · rintro ⟨⟨-, hb'⟩, -⟩
          exact .inl ⟨rfl, Option.some.inj (hb'.symm.trans hb)⟩
      | succ k =>
        have ho : ¬t.is .openParen := not_is_of_isBinaryOperator ht (by decide)
        have hc : ¬t.is .closeParen := not_is_of_isBinaryOperator ht (by decide)
        have hindex : i + (ts.length + (k + 1)) = i + ts.length + 1 + k := by omega
        rw [outside_succ_iff, depthAfter_other ho hc, or_iff_right (by omega), hindex]
        exact ih

/-- The operator left by the fold over a chain binds least. Another one that binds as little stands
    before it and it groups to the left, or stands behind it and groups to the right itself. -/
theorem Chain.mem_weakest (h : Chain table 0 ops ts)
    (hi : (ops.foldl better none).map Prod.fst = some i) :
    ∃ b, (i, b) ∈ weakest table ts ∧ ∀ j c, (j, c) ∈ weakest table ts →
      j < i ∧ b.associativity = .left ∨ (j, c) = (i, b) ∨ i < j ∧ c.associativity = .right := by
  obtain ⟨op, hop, rfl⟩ := (index_of_foldl_better hi).resolve_left nofun
  have hpoint := h.splitPoint.trans (congrArg Except.ok hi)
  obtain ⟨us, t, vs, ls, rs, hts, hops, hindex, ht, hb, hls, hrs⟩ := h.exists_split hop
  rw [Nat.zero_add] at hindex hrs
  rw [hts, hindex] at hpoint
  obtain ⟨hbefore, hafter⟩ := bindings_of_splitPoint hls ht hb hrs hpoint
  have hmem {j : Nat} {c : Binding} :
      (j, c) ∈ operators table ts ↔ (j, c) ∈ ls ∨ (j, c) = op ∨ (j, c) ∈ rs := by
    rw [← List.mem_cons, ← List.mem_append, ← hops, ← Nat.zero_add j, h.mem_iff, Nat.zero_add]
    rfl
  have hoperator : op ∈ operators table ts := hmem.2 (.inr (.inl rfl))
  refine ⟨op.2, ⟨hoperator, ?_⟩, fun j c hj => ?_⟩
  · rintro ⟨j, c⟩ hj
    rcases hmem.1 hj with hl | rfl | hr
    · have := hbefore _ hl
      dsimp only at this ⊢
      omega
    · exact Int.le_refl _
    · have := hafter _ hr
      dsimp only at this ⊢
      omega
  · have hle : c.precedence ≤ op.2.precedence := hj.2 _ hoperator
    rcases hmem.1 hj.1 with hl | heq | hr
    · have := hls.index_mem _ hl
      exact .inl ⟨by omega, ((hbefore _ hl).resolve_left (Int.not_lt.2 hle)).2⟩
    · exact .inr (.inl heq)
    · have := hrs.index_mem _ hr
      exact .inr (.inr ⟨by omega, ((hafter _ hr).resolve_left (Int.not_lt.2 hle)).2⟩)

/-- What the fold over the operators of a chain leaves is where the run is to be split. -/
theorem Chain.isSplitPoint (h : Chain table 0 ops ts)
    (hi : (ops.foldl better none).map Prod.fst = some i) : IsSplitPoint table ts i := by
  obtain ⟨b, hb, hothers⟩ := h.mem_weakest hi
  cases hside : b.associativity with
  | left =>
    refine .inl ⟨⟨b, hb, hside⟩, ?_⟩
    rintro j ⟨c, hj, hleft⟩
    rcases hothers j c hj with ⟨hlt, -⟩ | heq | ⟨-, hright⟩
    · exact Nat.le_of_lt hlt
    · exact Nat.le_of_eq (congrArg Prod.fst heq)
    · exact nomatch hleft.symm.trans hright
  | right =>
    refine .inr ⟨?_, ⟨b, hb⟩, ?_⟩
    · rintro ⟨j, c⟩ hj
      rcases hothers j c hj with ⟨-, hleft⟩ | heq | ⟨-, hright⟩
      · exact nomatch hside.symm.trans hleft
      · exact (congrArg (fun op => op.2.associativity) heq).trans hside
      · exact hright
    · rintro j ⟨c, hj⟩
      rcases hothers j c hj with ⟨-, hleft⟩ | heq | ⟨hlt, -⟩
      · exact nomatch hside.symm.trans hleft
      · exact Nat.le_of_eq (congrArg Prod.fst heq.symm)
      · exact Nat.le_of_lt hlt

/-- Nothing is refused in a nested run whose operators are all in the table. -/
theorem not_refused_of_nested
    (h : Nested (fun t => isBinaryOperator t.id → ∃ b, table.get? t.id = some b) ts) (i : Nat) :
    ¬Refused table ts i := by
  rintro (hi | hi)
  · exact h.balanced.not_stray i hi
  · obtain ⟨t, ⟨ht, hnone⟩, ho | ⟨-, -, hknown⟩⟩ := h.of_outside hi
    · exact not_is_of_isBinaryOperator ht (by decide) ho
    · obtain ⟨b, hb⟩ := hknown ht
      exact nomatch hnone.symm.trans hb

/-- A nested run whose operators are all in the table is split at the split point, if there is
    one. -/
theorem splits_of_nested
    (h : Nested (fun t => isBinaryOperator t.id → ∃ b, table.get? t.id = some b) ts) :
    Splits table ts (table.splitPoint ts) := by
  obtain ⟨ops, hops⟩ := exists_chain_of_nested h 0
  rw [hops.splitPoint]
  cases hi : (ops.foldl better none).map Prod.fst with
  | none =>
    refine .operand (not_refused_of_nested h) h.balanced.not_unclosed fun j hj => ?_
    obtain ⟨t, ht, hop, hdepth⟩ := hj
    cases hget : table.get? t.id with
    | none => exact not_refused_of_nested h j (.inr ⟨t, ht, ⟨hop, hget⟩, hdepth⟩)
    | some b =>
      have hmem := hops.mem_iff.2 ⟨t, ht, ⟨hop, hget⟩, hdepth⟩
      obtain ⟨found, hfound, -⟩ := (foldl_better_le ops none).2 _ hmem
      rw [Option.map_eq_none_iff.1 hi] at hfound
      exact Option.not_mem_none found hfound
  | some k =>
    exact .operator (not_refused_of_nested h) h.balanced.not_unclosed (hops.isSplitPoint hi)

/-! ## Runs with a refused token or an unclosed group -/

theorem refused_append_left (hi : i < ts.length) :
    Refused table (ts ++ us) i ↔ Refused table ts i :=
  or_congr (outside_append_left hi) (outside_append_left hi)

/-- Behind a nested run, a `)` and an unknown operator are refused. -/
theorem refused_length_iff (hts : Nested P ts) :
    Refused table (ts ++ t :: us) ts.length ↔
      t.is .closeParen ∨ isBinaryOperator t.id ∧ table.get? t.id = none := by
  rw [Refused, Stray, Unknown, outside_length_iff, outside_length_iff, hts.depth_eq]
  simp only [and_true]

/-- The first token that is refused is answered with. -/
theorem splits_of_refused
    (hus : Nested (fun t => isBinaryOperator t.id → ∃ b, table.get? t.id = some b) us)
    (ht : t.is .closeParen ∨ isBinaryOperator t.id ∧ table.get? t.id = none) :
    Splits table (us ++ t :: vs) (table.splitPoint (us ++ t :: vs)) := by
  obtain ⟨ops, hops⟩ := exists_chain_of_nested hus 0
  have hscan (best : Option (Nat × Int)) :
      table.scanSplit (0 + us.length) [] best (t :: vs) = .error (refusal t) := by
    rw [refusal]
    rcases ht with hc | ⟨hop, hnone⟩
    · rw [OperatorTable.scanSplit, if_neg (Token.not_is hc (by decide)), if_pos hc, if_pos hc]
    · have ho : ¬t.is .openParen := not_is_of_isBinaryOperator hop (by decide)
      have hc : ¬t.is .closeParen := not_is_of_isBinaryOperator hop (by decide)
      rw [OperatorTable.scanSplit, if_neg ho, if_neg hc, if_neg hc, if_neg (by simpa using hop),
        hnone]
  rw [OperatorTable.splitPoint, hops.scanSplit, hscan]
  refine .refused ⟨(refused_length_iff hus).2 ht, fun j hj => ?_⟩ (by simp)
  refine Nat.le_of_not_lt fun hlt => ?_
  exact not_refused_of_nested hus j ((refused_append_left hlt).1 hj)

/-- A `(` that is not closed is what is left in the end. -/
theorem scanSplit_unclosed (opened : List Token) (h : cutAtClose opened.length ts = none) :
    table.scanSplit i (opened ++ [o]) best ts = .error o.unbalanced := by
  induction ts generalizing i opened with
  | nil => simp [OperatorTable.scanSplit]
  | cons t ts ih =>
    have hd : t.is .closeParen → opened.length ≠ 0 := by
      intro hc hzero
      simp [cutAtClose, hc, hzero] at h
    rw [cutAtClose_cons hd, Option.map_eq_none_iff] at h
    by_cases ho : t.is .openParen
    · rw [depthAfter_open ho] at h
      rw [scanSplit_open ho]
      exact ih (t :: opened) h
    · by_cases hc : t.is .closeParen
      · obtain ⟨o', opened, rfl⟩ := List.exists_cons_of_length_pos (Nat.pos_of_ne_zero (hd hc))
        rw [List.length_cons, depthAfter_close hc] at h
        rw [List.cons_append, scanSplit_close hc]
        exact ih opened h
      · rw [depthAfter_other ho hc] at h
        rw [scanSplit_skip ho hc fun _ => by simp]
        exact ih opened h

/-- If nothing is refused, an unclosed `(` is answered with. -/
theorem splits_of_unclosed
    (hus : Nested (fun t => isBinaryOperator t.id → ∃ b, table.get? t.id = some b) us)
    (ho : t.is .openParen) (hvs : cutAtClose 0 vs = none) :
    Splits table (us ++ t :: vs) (table.splitPoint (us ++ t :: vs)) := by
  obtain ⟨ops, hops⟩ := exists_chain_of_nested hus 0
  have hunclosed : Unclosed (us ++ t :: vs) us.length := unclosed_length ho hvs
  have hscan (best : Option (Nat × Int)) :
      table.scanSplit (0 + us.length) [] best (t :: vs) = .error t.unbalanced := by
    rw [scanSplit_open ho]
    exact scanSplit_unclosed [] hvs
  rw [OperatorTable.splitPoint, hops.scanSplit, hscan]
  refine .unclosed (fun j hj => ?_) ⟨hunclosed, fun j => le_of_unclosed hus⟩ (by simp)
  have hle : j ≤ us.length := hj.elim hunclosed.le_of_outside hunclosed.le_of_outside
  rcases Nat.lt_or_eq_of_le hle with hlt | rfl
  · exact not_refused_of_nested hus j ((refused_append_left hlt).1 hj)
  · rcases (refused_length_iff hus).1 hj with hc | ⟨hop, -⟩
    · exact Token.not_is ho (by decide) hc
    · exact not_is_of_isBinaryOperator hop (by decide) ho

/-- The scan answers as it should. -/
theorem splits_splitPoint (table : OperatorTable) (ts : List Token) :
    Splits table ts (table.splitPoint ts) := by
  rcases nested_or_breaks (fun t => isBinaryOperator t.id → ∃ b, table.get? t.id = some b) ts with
    hts | ⟨us, t, vs, rfl, hus, hbreaks⟩
  · exact splits_of_nested hts
  · cases hbreaks with
    | close hc => exact splits_of_refused hus (.inl hc)
    | token _ _ hnot =>
      rw [Classical.not_imp, ← Option.isSome_iff_exists, Option.not_isSome_iff_eq_none] at hnot
      exact splits_of_refused hus (.inr hnot)
    | opening ho hvs => exact splits_of_unclosed hus ho hvs

theorem splits_of_eq (h : table.splitPoint ts = r) : Splits table ts r :=
  h ▸ splits_splitPoint table ts

/-- Which runs are operands does not depend on the table. -/
theorem splitPoint_eq_none_iff : table.splitPoint ts = .ok none ↔
    (∀ j, ¬Stray ts j) ∧ (∀ j, ¬Unclosed ts j) ∧ ∀ j, ¬Outside (isBinaryOperator ·.id) 0 ts j := by
  constructor
  · intro h
    cases splits_of_eq h with
    | operand hnone hclosed hop => exact ⟨fun j hj => hnone j (.inl hj), hclosed, hop⟩
  · rintro ⟨hstray, hclosed, hop⟩
    refine (splits_splitPoint table ts).unique (.operand (fun j hj => ?_) hclosed hop)
    rcases hj with hj | hj
    · exact hstray j hj
    · exact hop j (Outside.mono hj fun _ ht => ht.1)

/-- The answer of the search is the one that is asked for, and no other: the first `)` that is stray
    or operator outside parentheses that is not in the table is reported, or else the first `(` that
    is not closed; otherwise there is a split point exactly if there is an operator outside
    parentheses, and it is, among those that bind least, the right-most one that groups to the left
    or, if there is none, the left-most one. -/
theorem splitPoint_eq_iff (table : OperatorTable) (ts : List Token)
    (r : Except Complaint (Option Nat)) : table.splitPoint ts = r ↔ Splits table ts r := by
  constructor
  · exact splits_of_eq
  · exact (splits_splitPoint table ts).unique

/-- In `a - b + c - d` with operators that bind alike, `+` is split at if it alone groups to the
    left. -/
example :
    let table : OperatorTable :=
      .ofList [(Kind.add.id, ⟨5, .left⟩), (Kind.sub.id, ⟨5, .right⟩)]
    let token (k : Kind) (lexeme : String) : Token := ⟨k.id, lexeme, .zero, .nowhere⟩
    table.splitPoint [token .identifier "a", token .sub "-", token .identifier "b",
      token .add "+", token .identifier "c", token .sub "-", token .identifier "d"] =
        .ok (some 3) := by
  rfl

end Frontend.Expression
