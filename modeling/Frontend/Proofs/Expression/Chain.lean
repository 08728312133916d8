import Frontend.Proofs.Expression.Canonical

/-!
# Chains

The operators outside the parentheses of a run of tokens cut it into operands (`Chain`). Whatever
the operands are, the scan for a split point passes over them, so it comes down to a fold over
the operators (`Chain.splitPoint`): each of them either becomes the best split point so far or is
dropped.

The operator that is left in the end binds no tighter than any other, and of those that bind as
tight, those before it are met by an operator that groups to the left, and those after it group
to the right themselves (`bindings_of_splitPoint`).
-/

namespace Frontend.Expression

/-- The best split point after one more operator, given by its index and binding. -/
def better (best : Option (Nat × Int)) (op : Nat × Binding) : Option (Nat × Int) :=
  if OperatorTable.prefers op.2 best then some (op.1, op.2.precedence) else best

/-- A run of tokens that begins at the index `i` has these operators outside parentheses, each
    with its index and binding. -/
inductive Chain (table : OperatorTable) : Nat → List (Nat × Binding) → List Token → Prop
  | operand {i : Nat} {ts : List Token} :
      Nested (fun t => ¬isBinaryOperator t.id) ts → Chain table i [] ts
  | operator {i : Nat} {ops : List (Nat × Binding)} {b : Binding} {t : Token}
      {ts us : List Token} : Nested (fun t => ¬isBinaryOperator t.id) ts →
      isBinaryOperator t.id → table.get? t.id = some b → Chain table (i + ts.length + 1) ops us →
      Chain table i ((i + ts.length, b) :: ops) (ts ++ t :: us)

variable {table : OperatorTable} {ops ops' : List (Nat × Binding)} {op : Nat × Binding}
  {best : Option (Nat × Int)} {b : Binding} {t : Token} {ts us : List Token} {i k : Nat} {p : Int}

namespace Chain

theorem scanSplit (h : Chain table i ops ts) (best : Option (Nat × Int)) (us : List Token) :
    table.scanSplit i [] best (ts ++ us) =
      table.scanSplit (i + ts.length) [] (ops.foldl better best) us := by
  induction h generalizing best with
  | operand hts => rw [scanSplit_append hts fun _ ht ht' => absurd ht' ht, List.foldl_nil]
  | @operator i ops b t ts vs hts ht hb _ ih =>
    have hlen : i + (ts ++ t :: vs).length = i + ts.length + 1 + vs.length := by
      rw [List.length_append, List.length_cons]
      omega
    rw [List.append_assoc, scanSplit_append hts fun _ ht ht' => absurd ht' ht, List.cons_append,
      scanSplit_operator ht hb, ih, hlen]
    rfl

/-- The split point is the best operator of the chain. -/
theorem splitPoint (h : Chain table 0 ops ts) :
    table.splitPoint ts = .ok ((ops.foldl better none).map Prod.fst) := by
  have hscan := h.scanSplit none []
  rwa [List.append_nil] at hscan

/-- Tokens without operators outside parentheses belong to the first operand. -/
theorem prepend (hts : Nested (fun t => ¬isBinaryOperator t.id) ts)
    (h : Chain table (i + ts.length) ops us) : Chain table i ops (ts ++ us) := by
  cases h with
  | operand hus => exact .operand (hts.append hus)
  | @operator _ ops b t us vs hus ht hb hvs =>
    have hlen : i + ts.length + us.length = i + (ts ++ us).length := by
      rw [List.length_append, Nat.add_assoc]
    rw [hlen] at hvs ⊢
    rw [← List.append_assoc]
    exact .operator (hts.append hus) ht hb hvs

/-- Two chains with an operator between them are one chain. -/
theorem append (h : Chain table i ops ts) (ht : isBinaryOperator t.id)
    (hb : table.get? t.id = some b) (h' : Chain table (i + ts.length + 1) ops' us) :
    Chain table i (ops ++ (i + ts.length, b) :: ops') (ts ++ t :: us) := by
  induction h with
  | operand hts => exact .operator hts ht hb h'
  | @operator i ops b' t' ts us' hts ht' hb' _ ih =>
    have hlen : i + (ts ++ t' :: us').length = i + ts.length + 1 + us'.length := by
      rw [List.length_append, List.length_cons]
      omega
    rw [hlen] at h' ⊢
    rw [List.append_assoc]
    exact .operator hts ht' hb' (ih h')

/-- The operators stand in the run. -/
theorem index_mem (h : Chain table i ops ts) :
    ∀ op ∈ ops, i ≤ op.1 ∧ op.1 < i + ts.length := by
  induction h with
  | operand => exact fun op hop => absurd hop List.not_mem_nil
  | operator _ _ _ _ ih =>
    intro op hop
    rw [List.length_append, List.length_cons]
    rcases List.mem_cons.1 hop with rfl | hop
    · dsimp only
      omega
    · have := ih op hop
      omega

/-- A run is cut at each of its operators into two runs with the operators to both sides. -/
theorem exists_split (h : Chain table i ops ts) (hop : op ∈ ops) :
    ∃ us t vs ls rs, ts = us ++ t :: vs ∧ ops = ls ++ op :: rs ∧ op.1 = i + us.length ∧
      isBinaryOperator t.id ∧ table.get? t.id = some op.2 ∧ Chain table i ls us ∧
      Chain table (i + us.length + 1) rs vs := by
  induction h with
  | operand => exact absurd hop List.not_mem_nil
  | @operator i ops b t ts vs hts ht hb hvs ih =>
    rcases List.mem_cons.1 hop with rfl | hop
    · exact ⟨ts, t, vs, [], ops, rfl, rfl, rfl, ht, hb, .operand hts, hvs⟩
    · obtain ⟨us, t', vs, ls, rs, rfl, rfl, hi, ht', hb', hls, hrs⟩ := ih hop
      have hlen : i + (ts ++ t :: us).length = i + ts.length + 1 + us.length := by
        rw [List.length_append, List.length_cons]
        omega
      refine ⟨ts ++ t :: us, t', vs, (i + ts.length, b) :: ls, rs, ?_, rfl, ?_, ht', hb',
        .operator hts ht hb hls, ?_⟩
      · rw [List.append_assoc, List.cons_append]
      · rw [hi, hlen]
      · rwa [hlen]

end Chain

/-- A run is a chain if the table has entries for its operators outside parentheses. -/
theorem exists_chain_of_nested
    (h : Nested (fun t => isBinaryOperator t.id → ∃ b, table.get? t.id = some b) ts) (i : Nat) :
    ∃ ops, Chain table i ops ts := by
  generalize hP : (fun t : Token => isBinaryOperator t.id → ∃ b, table.get? t.id = some b) = P at h
  induction h generalizing i with
  | nil => exact ⟨[], .operand .nil⟩
  | @token P t ts ho hc ht _ ih =>
    subst hP
    obtain ⟨ops, hops⟩ := ih (i + 1) rfl
    by_cases hop : isBinaryOperator t.id
    · obtain ⟨b, hb⟩ := ht hop
      exact ⟨_, .operator .nil hop hb hops⟩
    · exact ⟨ops, .prepend (.token ho hc hop .nil) hops⟩
  | @group P o c ts us ho hts hc _ _ ih =>
    obtain ⟨ops, hops⟩ := ih (i + (o :: (ts ++ [c])).length) hP
    have hchain := hops.prepend (.group ho hts hc .nil)
    exact ⟨ops, by simpa using hchain⟩

/-! ## The best split point -/

/-- The best split point is one of the operators, or the one there was before. -/
theorem index_of_foldl_better (h : (ops.foldl better best).map Prod.fst = some k) :
    best.map Prod.fst = some k ∨ ∃ op ∈ ops, op.1 = k := by
  induction ops generalizing best with
  | nil => exact .inl h
  | cons op ops ih =>
    rw [List.foldl_cons] at h
    rcases ih h with hk | ⟨op', hop', hk⟩
    · rw [better] at hk
      split at hk
      · exact .inr ⟨op, List.mem_cons_self, Option.some.inj hk⟩
      · exact .inl hk
    · exact .inr ⟨op', List.mem_cons_of_mem _ hop', hk⟩

theorem better_le (best : Option (Nat × Int)) (op : Nat × Binding) :
    ∃ found ∈ better best op, found.2 ≤ op.2.precedence ∧ ∀ f ∈ best, found.2 ≤ f.2 := by
  rw [better]
  cases best with
  | none => exact ⟨_, rfl, Int.le_refl _, fun f hf => absurd hf (Option.not_mem_none f)⟩
  | some best =>
    split
    · next h =>
      rw [prefers_some_iff] at h
      refine ⟨_, rfl, Int.le_refl _, fun f hf => ?_⟩
      obtain rfl := Option.some.inj hf
      dsimp only
      omega
    · next h =>
      rw [prefers_some_iff] at h
      refine ⟨best, rfl, by omega, fun f hf => ?_⟩
      obtain rfl := Option.some.inj hf
      exact Int.le_refl _

/-- No operator binds less than the best split point, nor does the one there was before. -/
theorem foldl_better_le (ops : List (Nat × Binding)) (best : Option (Nat × Int)) :
    (∀ f ∈ best, ∃ found ∈ ops.foldl better best, found.2 ≤ f.2) ∧
      ∀ op ∈ ops, ∃ found ∈ ops.foldl better best, found.2 ≤ op.2.precedence := by
  induction ops generalizing best with
  | nil => exact ⟨fun f hf => ⟨f, hf, Int.le_refl _⟩, fun op hop => absurd hop List.not_mem_nil⟩
  | cons op ops ih =>
    obtain ⟨found, hfound, hop, hbest⟩ := better_le best op
    obtain ⟨ihbest, ihops⟩ := ih (better best op)
    obtain ⟨found', hfound', hle⟩ := ihbest found hfound
    refine ⟨fun f hf => ⟨found', hfound', ?_⟩, fun op' hop' => ?_⟩
    · exact Int.le_trans hle (hbest f hf)
    · rcases List.mem_cons.1 hop' with rfl | hop'
      · exact ⟨found', hfound', Int.le_trans hle hop⟩
      · exact ihops op' hop'

/-- A split point that stays the best is preferred to all operators after it. -/
theorem not_prefers_of_foldl_better (hk : ∀ op ∈ ops, op.1 ≠ k)
    (h : (ops.foldl better (some (k, p))).map Prod.fst = some k) :
    ∀ op ∈ ops, ¬OperatorTable.prefers op.2 (some (k, p)) := by
  induction ops with
  | nil => exact fun op hop => absurd hop List.not_mem_nil
  | cons op ops ih =>
    obtain ⟨hop, hops⟩ := List.forall_mem_cons.1 hk
    rw [List.foldl_cons, better] at h
    split at h
    · -- The operator would have replaced it for good.
      rcases index_of_foldl_better h with heq | ⟨op', hop', heq⟩
      · exact absurd (Option.some.inj heq) hop
      · exact absurd heq (hops op' hop')
    · next hnot => exact List.forall_mem_cons.2 ⟨hnot, ih hops h⟩

/-- At the split point of a run, no operator binds less, and one that binds as tight stands to
    the left of an operator that groups to the left, or to the right and groups to the right
    itself. -/
theorem bindings_of_splitPoint (hts : Chain table 0 ops ts) (ht : isBinaryOperator t.id)
    (hb : table.get? t.id = some b) (hus : Chain table (ts.length + 1) ops' us)
    (h : table.splitPoint (ts ++ t :: us) = .ok (some ts.length)) :
    (∀ op ∈ ops, b.precedence < op.2.precedence ∨
      op.2.precedence = b.precedence ∧ b.associativity = .left) ∧
    ∀ op ∈ ops', b.precedence < op.2.precedence ∨
      op.2.precedence = b.precedence ∧ op.2.associativity = .right := by
  have hlength : 0 + ts.length = ts.length := Nat.zero_add _
  have hbefore : ∀ op ∈ ops, op.1 ≠ ts.length := fun op hop => by
    have := hts.index_mem op hop
    omega
  have hafter : ∀ op ∈ ops', op.1 ≠ ts.length := fun op hop => by
    have := hus.index_mem op hop
    omega
  have hchain := hts.append ht hb (hlength.symm ▸ hus)
  rw [hchain.splitPoint, Except.ok.injEq, hlength, List.foldl_append, List.foldl_cons, better]
    at h
  split at h
  · next hprefers =>
    refine ⟨fun op hop => ?_, fun op hop => ?_⟩
    · obtain ⟨⟨j, q⟩, hfound, hle⟩ := (foldl_better_le ops none).2 op hop
      rw [Option.mem_def.1 hfound, prefers_some_iff] at hprefers
      rcases hprefers with hlt | ⟨rfl, hleft⟩
      · exact .inl (Int.lt_of_lt_of_le hlt hle)
      · rcases Int.lt_or_eq_of_le hle with hlt | heq
        · exact .inl hlt
        · exact .inr ⟨heq.symm, hleft⟩
    · have hnot := not_prefers_of_foldl_better hafter h op hop
      rw [prefers_some_iff, not_or, not_and, Int.not_lt] at hnot
      rcases Int.lt_or_eq_of_le hnot.1 with hlt | heq
      · exact .inl hlt
      · refine .inr ⟨heq.symm, ?_⟩
        cases hside : op.2.associativity with
        | left => exact absurd hside (hnot.2 heq.symm)
        | right => rfl
  · -- The operator itself would not have become the best split point.
    rcases index_of_foldl_better h with heq | ⟨op, hop, heq⟩
    · rcases index_of_foldl_better heq with heq | ⟨op, hop, heq⟩
      · exact nomatch heq
      · exact absurd heq (hbefore op hop)
    · exact absurd heq (hafter op hop)

end Frontend.Expression
