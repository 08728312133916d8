import Frontend.Proofs.Expression.Nesting

/-!
# The construction as a recursion

One level of the construction cuts pieces out of a run of tokens and builds these (`Piece`): it
needs nothing else of the construction than what becomes of its pieces, and nothing else of the
table than the split point (`buildStep_congr`).

The construction of an expression is bounded by the number of tokens. The bound is never met,
since every piece is shorter than the run it is cut from; so `build` satisfies the equation
`build_eq`, which does not mention the bound.
-/

namespace Frontend.Expression

variable {table table' : OperatorTable} {ts us inner rest : List Token} {t c : Token} {d : Nat}

/-! ## Cutting -/

/-- The parts between commas are made of tokens of the run. -/
theorem sublist_of_mem_cutAtCommas {part : List Token × Option Token}
    (h : part ∈ cutAtCommas d ts) : part.1.Sublist ts := by
  induction ts generalizing d part with
  | nil =>
    obtain rfl := List.mem_singleton.1 h
    exact List.Sublist.refl []
  | cons t ts ih =>
    rw [cutAtCommas] at h
    split at h
    · rcases List.mem_cons.1 h with rfl | h
      · exact List.nil_sublist _
      · exact (ih h).cons t
    · split at h
      · next first comma parts heq =>
        have hfirst : (first, comma) ∈ cutAtCommas (depthAfter d t) ts := by simp [heq]
        rcases List.mem_cons.1 h with rfl | h
        · exact (ih hfirst).cons_cons t
        · exact (ih (heq ▸ List.mem_cons_of_mem _ h)).cons t
      · obtain rfl := List.mem_singleton.1 h
        exact (List.nil_sublist ts).cons_cons t

/-- A run is what it is cut into. -/
theorem eq_of_cutAt {i : Nat} (h : cutAt ts i = some (inner, t, rest)) :
    ts = inner ++ t :: rest := by
  unfold cutAt at h
  split at h
  · next heq =>
    simp only [Option.some.injEq, Prod.mk.injEq] at h
    obtain ⟨rfl, rfl, rfl⟩ := h
    rw [← heq, List.take_append_drop]
  · exact nomatch h

/-- A run that is one group begins with `(` and ends with the `)` that closes it. -/
theorem groupInside?_eq_some (h : groupInside? ts = some (inner, c)) :
    ∃ o, ts = o :: (inner ++ [c]) ∧ o.is .openParen ∧
      cutAtClose 0 (inner ++ [c]) = some (inner, c, []) := by
  unfold groupInside? at h
  split at h
  · next o us =>
    split at h
    · next ho =>
      split at h
      · next heq =>
        simp only [Option.some.injEq, Prod.mk.injEq] at h
        obtain ⟨rfl, rfl⟩ := h
        have hus := (cutAtClose_eq_some_iff.1 heq).1
        exact ⟨o, by rw [hus], ho, hus ▸ heq⟩
      · exact nomatch h
    · exact nomatch h
  · exact nomatch h

/-! ## Pieces -/

/-- The runs that one level of the construction cuts out of a run to be built: both sides of the
    split point, the inside of a group, and the arguments of a call. -/
inductive Piece (table : OperatorTable) (ts : List Token) : List Token → Prop
  | left {i : Nat} {t : Token} {us vs : List Token} : table.splitPoint ts = .ok (some i) →
      cutAt ts i = some (us, t, vs) → Piece table ts us
  | right {i : Nat} {t : Token} {us vs : List Token} : table.splitPoint ts = .ok (some i) →
      cutAt ts i = some (us, t, vs) → Piece table ts vs
  | inside {point : Option Nat} {c : Token} {inner : List Token} :
      table.splitPoint ts = .ok point → groupInside? ts = some (inner, c) → Piece table ts inner
  | argument {point : Option Nat} {f o c : Token} {us inner : List Token}
      {part : List Token × Option Token} : table.splitPoint ts = .ok point → ts = f :: o :: us →
      cutAtClose 0 us = some (inner, c, []) → part ∈ cutAtCommas 0 inner → Piece table ts part.1

namespace Piece

/-- A piece is made of tokens of the run. -/
theorem sublist (h : Piece table ts us) : us.Sublist ts := by
  cases h with
  | left _ hcut =>
    rw [eq_of_cutAt hcut]
    exact List.sublist_append_left us _
  | right _ hcut =>
    rw [eq_of_cutAt hcut]
    exact (List.sublist_cons_self _ us).trans (List.sublist_append_right _ _)
  | inside _ hinside =>
    obtain ⟨o, rfl, -⟩ := groupInside?_eq_some hinside
    exact (List.sublist_append_left us _).cons o
  | argument _ hts hcut hpart =>
    rw [hts, (cutAtClose_eq_some_iff.1 hcut).1]
    exact (((sublist_of_mem_cutAtCommas hpart).trans (List.sublist_append_left _ _)).cons _).cons _

/-- A piece is shorter than the run, which is why the construction ends. -/
theorem length_lt (h : Piece table ts us) : us.length < ts.length := by
  cases h with
  | left _ hcut | right _ hcut =>
    rw [eq_of_cutAt hcut, List.length_append, List.length_cons]
    omega
  | inside _ hinside =>
    obtain ⟨o, rfl, -⟩ := groupInside?_eq_some hinside
    rw [List.length_cons, List.length_append]
    omega
  | argument _ hts hcut hpart =>
    have hle := (sublist_of_mem_cutAtCommas hpart).length_le
    rw [hts, (cutAtClose_eq_some_iff.1 hcut).1, List.length_cons, List.length_cons,
      List.length_append]
    omega

end Piece

/-! ## One level -/

section

variable {build build' : List Token → Except Complaint Expr} {point : Option Nat}

/-- Arguments are built from the parts between their commas. -/
theorem buildArguments_congr {parts : List (List Token × Option Token)} (last : Token)
    (h : ∀ part ∈ parts, build part.1 = build' part.1) :
    buildArguments build last parts = buildArguments build' last parts := by
  induction parts with
  | nil => rfl
  | cons part parts ih =>
    obtain ⟨hpart, hparts⟩ := List.forall_mem_cons.1 h
    obtain ⟨_ | ⟨t, ts⟩, comma⟩ := part
    · rfl
    · rw [buildArguments, buildArguments, hpart, ih hparts]

/-- A call is built from the parts of its argument list, which are pieces of the run. -/
theorem buildCall_congr (f o : Token) (hpoint : table.splitPoint ts = .ok point)
    (hts : ts = f :: o :: us) (h : ∀ vs, Piece table ts vs → build vs = build' vs) :
    buildCall build f o us = buildCall build' f o us := by
  unfold buildCall
  split
  · rfl
  · rfl
  · next inner closing heq =>
    cases inner.getLast? with
    | none => rfl
    | some last =>
      dsimp only
      rw [buildArguments_congr last fun part hpart => h _ (.argument hpoint hts heq hpart)]

theorem buildPrimary_congr (hpoint : table.splitPoint ts = .ok point)
    (h : ∀ vs, Piece table ts vs → build vs = build' vs) :
    buildPrimary build ts = buildPrimary build' ts := by
  match ts with
  | [] => rfl
  | [t] => rfl
  | f :: o :: us => rw [buildPrimary, buildPrimary, buildCall_congr f o hpoint rfl h]

theorem buildOperand_congr (hpoint : table.splitPoint ts = .ok point)
    (h : ∀ vs, Piece table ts vs → build vs = build' vs) :
    buildOperand build ts = buildOperand build' ts := by
  unfold buildOperand
  split
  · next hinside => rw [h _ (.inside hpoint hinside)]
  · exact buildPrimary_congr hpoint h

/-- One level of the construction depends on the split point and on what becomes of the pieces. -/
theorem buildStep_congr (hsplit : table.splitPoint ts = table'.splitPoint ts)
    (h : ∀ us, Piece table ts us → build us = build' us) :
    buildStep table build ts = buildStep table' build' ts := by
  unfold buildStep
  rw [← hsplit]
  split
  · rfl
  · cases hpoint : table.splitPoint ts with
    | error c => rfl
    | ok point =>
      dsimp only [bind, Except.bind]
      split
      · exact buildOperand_congr hpoint h
      · next hcut =>
        obtain ⟨i, rfl, hcut⟩ := Option.bind_eq_some_iff.1 hcut
        rw [h _ (.left hpoint hcut), h _ (.right hpoint hcut)]

end

/-! ## All levels -/

variable (table : OperatorTable)

theorem buildWithin_nil (n : Nat) :
    buildWithin table n [] = .error Problem.emptyExpression.unplaced := by
  cases n with
  | zero => rfl
  | succ n => rfl

/-- Any bound that is not below the length of a run leads to the same tree. -/
theorem buildWithin_eq {n m : Nat} (hn : ts.length ≤ n) (hm : ts.length ≤ m) :
    buildWithin table n ts = buildWithin table m ts := by
  induction n generalizing m ts with
  | zero =>
    obtain rfl := List.length_eq_zero_iff.1 (Nat.le_zero.1 hn)
    rw [buildWithin_nil, buildWithin_nil]
  | succ n ih =>
    cases m with
    | zero =>
      obtain rfl := List.length_eq_zero_iff.1 (Nat.le_zero.1 hm)
      rw [buildWithin_nil, buildWithin_nil]
    | succ m =>
      rw [buildWithin, buildWithin]
      refine buildStep_congr rfl fun us hus => ?_
      have hlt := hus.length_lt
      exact ih (by omega) (by omega)

/-- The construction of a run of tokens is one level of it, with the construction itself for the
    pieces. -/
theorem build_eq (ts : List Token) : build table ts = buildStep table (build table) ts := by
  rw [build, buildWithin_eq table (Nat.le_refl _) (Nat.le_succ _), buildWithin]
  exact buildStep_congr rfl fun us hus =>
    buildWithin_eq table (Nat.le_of_lt hus.length_lt) (Nat.le_refl _)

end Frontend.Expression
