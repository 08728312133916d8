import Frontend.Override
import Frontend.Proofs.Expression.Blame
import Frontend.Proofs.Expression.SplitPoint
import Frontend.Proofs.List

/-!
# Overrides applied one after the other

An override is for the binary operator that it spells (`Override.Names`). What some overrides leave
an operator with depends on those of them that are for it (`Override.rebind`): it has the precedence
of the last one, and the side stated by the last one that states a side. If none does, the operator
keeps the side that it has, and groups to the left if it has none.

One override is a step from table to table, and changes the binding of every operator as `rebind`
says (`get?_of_apply`). Two lists of overrides, one after the other, leave an operator with the same
binding as both together (`rebind_append`), so this is what a list of overrides does, too
(`get?_of_applyAll`). A table is known from its bindings (`OperatorTable.eq_of_get?_eq`), so all
that can be said of overrides is said by `rebind` (`adjust_last_wins`).
-/

namespace Frontend

/-! ## Tables with the same bindings -/

namespace OperatorTable

/-- No operator is listed twice. -/
theorem nodup_ids (t : OperatorTable) : (t.entries.map Prod.fst).Nodup :=
  List.pairwise_map.2 (t.sorted.imp Nat.ne_of_lt)

/-- A table is known from the bindings of the operators. -/
theorem eq_of_get?_eq {t t' : OperatorTable} (h : ∀ id, t.get? id = t'.get? id) : t = t' := by
  have hmem : ∀ e, e ∈ t.entries ↔ e ∈ t'.entries := by
    rintro ⟨id, b⟩
    rw [← lookup_eq_some_iff_mem t.nodup_ids, ← lookup_eq_some_iff_mem t'.nodup_ids]
    exact Eq.congr_left (h id)
  have hperm := (List.perm_ext_iff_of_nodup t.nodup_ids.of_map t'.nodup_ids.of_map).2 hmem
  have hentries : t.entries = t'.entries := hperm.eq_of_pairwise
    (fun a b _ _ hlt hgt => absurd hgt (Nat.lt_asymm hlt)) t.sorted t'.sorted
  cases t
  congr

end OperatorTable

/-- Only the spelling of a binary operator is read as an operator. -/
theorem Kind.operator?_eq_some_iff {s : String} {k : Kind} :
    Kind.operator? s = some k ↔ isBinaryOperator k.id ∧ k.spelling? = some s := by
  constructor
  · intro h
    simpa using List.find?_some h
  · rintro ⟨hop, hs⟩
    cases k <;> cases hs <;> first | rfl | exact absurd hop (by decide)

namespace Override

/-- The override is for the binary operator with the number `id`, which it spells. -/
def Names (o : Override) (id : Nat) : Prop :=
  ∃ k : Kind, k.id = id ∧ isBinaryOperator id ∧ k.spelling? = some o.operator

/-- What overrides for an operator leave it with, if it had the binding `current` before. -/
def rebind (os : List Override) (current : Option Binding) : Option Binding :=
  match os.getLast? with
  | none => current
  | some last =>
    let stated := (os.filterMap Override.associativity).getLast?
    some ⟨last.precedence, (stated.or (current.map Binding.associativity)).getD .left⟩

variable {o : Override} {os os' : List Override} {table table' : OperatorTable} {c : Complaint}
  {d : Diagnostic} {id : Nat} {k : Kind}

theorem names_iff : o.Names id ↔ ∃ k, Kind.operator? o.operator = some k ∧ k.id = id := by
  simp only [Names, Kind.operator?_eq_some_iff]
  constructor
  · rintro ⟨k, rfl, h⟩
    exact ⟨k, h, rfl⟩
  · rintro ⟨k, h, rfl⟩
    exact ⟨k, rfl, h⟩

instance (o : Override) (id : Nat) : Decidable (o.Names id) :=
  decidable_of_iff ((Kind.operator? o.operator).map Kind.id = some id)
    (by rw [names_iff, Option.map_eq_some_iff])

/-- An override that spells an operator is for no other one. -/
theorem names_iff_of_operator? (h : Kind.operator? o.operator = some k) :
    o.Names id ↔ k.id = id := by
  rw [names_iff, h]
  constructor
  · rintro ⟨_, ⟨⟩, hid⟩
    exact hid
  · exact fun hid => ⟨k, rfl, hid⟩

/-- An override that spells no binary operator is for none. -/
theorem operator?_eq_none_iff : Kind.operator? o.operator = none ↔ ∀ id, ¬o.Names id := by
  cases h : Kind.operator? o.operator with
  | none =>
    refine iff_of_true rfl fun id => ?_
    rw [names_iff, h]
    exact nofun
  | some k => exact iff_of_false nofun fun hnot => hnot k.id ((names_iff_of_operator? h).2 rfl)

/-! ## What overrides leave an operator with -/

theorem rebind_singleton (o : Override) (current : Option Binding) :
    rebind [o] current = some ⟨o.precedence,
      (o.associativity.or (current.map Binding.associativity)).getD .left⟩ := by
  cases h : o.associativity <;> simp [rebind, h]

/-- Two lists of overrides, one after the other, do what both do together. -/
theorem rebind_append (os os' : List Override) (current : Option Binding) :
    rebind (os ++ os') current = rebind os' (rebind os current) := by
  unfold rebind
  rw [List.getLast?_append, List.filterMap_append, List.getLast?_append]
  cases hlast' : os'.getLast? with
  | none =>
    obtain rfl := List.getLast?_eq_none_iff.1 hlast'
    simp
  | some last' =>
    cases hlast : os.getLast? with
    | none =>
      obtain rfl := List.getLast?_eq_none_iff.1 hlast
      simp
    | some last =>
      -- The side that the first list leaves is the one for the second list to keep.
      cases (os'.filterMap Override.associativity).getLast? <;>
        cases (os.filterMap Override.associativity).getLast? <;> simp

/-- Overrides that have been applied change nothing any more. -/
theorem rebind_rebind (os : List Override) (current : Option Binding) :
    rebind os (rebind os current) = rebind os current := by
  unfold rebind
  cases os.getLast? with
  | none => rfl
  | some last => cases (os.filterMap Override.associativity).getLast? <;> simp

/-! ## One override -/

/-- An override that can be applied sets the binding of the operator that it spells. -/
theorem exists_of_apply (h : apply table o = .ok table') :
    ∃ k, Kind.operator? o.operator = some k ∧
      table' = table.set k.id ⟨o.precedence,
        (o.associativity.or ((table.get? k.id).map Binding.associativity)).getD .left⟩ := by
  unfold apply at h
  split at h
  · cases h
  · next k hk =>
    obtain rfl := Except.ok.inj h
    exact ⟨k, hk, rfl⟩

theorem exists_names_of_apply (h : apply table o = .ok table') : ∃ id, o.Names id := by
  obtain ⟨k, hk, -⟩ := exists_of_apply h
  exact ⟨k.id, (names_iff_of_operator? hk).2 rfl⟩

/-- An override rebinds the operator that it is for, and no other one. -/
theorem get?_of_apply (h : apply table o = .ok table') (id : Nat) :
    table'.get? id = rebind ([o].filter (·.Names id)) (table.get? id) := by
  obtain ⟨k, hk, rfl⟩ := exists_of_apply h
  rw [OperatorTable.get?_set]
  by_cases hid : id = k.id
  · have hnames : o.Names id := (names_iff_of_operator? hk).2 hid.symm
    have hself : [o].filter (·.Names id) = [o] := by simp [hnames]
    rw [if_pos hid, hself, rebind_singleton, hid]
  · have hnames : ¬o.Names id := fun h => hid ((names_iff_of_operator? hk).1 h).symm
    have hnone : [o].filter (·.Names id) = [] := by simp [hnames]
    rw [if_neg hid, hnone]
    rfl

/-- An override is refused exactly if it is for no operator. -/
theorem apply_eq_error_iff :
    apply table o = .error c ↔ (∀ id, ¬o.Names id) ∧ c = refusal o.operator := by
  rw [← operator?_eq_none_iff, apply]
  split
  · next hnone => simp [hnone, eq_comm]
  · next k hk => exact iff_of_false nofun fun h => nomatch hk.symm.trans h.1

/-! ## Some overrides -/

theorem applyAll_cons (o : Override) (os : List Override) (table : OperatorTable) :
    applyAll (o :: os) table = apply table o >>= applyAll os :=
  List.foldlM_cons

theorem applyAll_append (os os' : List Override) (table : OperatorTable) :
    applyAll (os ++ os') table = applyAll os table >>= applyAll os' :=
  List.foldlM_append

/-- Overrides can be applied only if each of them names an operator, and then every operator has the
    binding that those for it leave it with. -/
theorem get?_of_applyAll (h : applyAll os table = .ok table') :
    (∀ o ∈ os, ∃ id, o.Names id) ∧
      ∀ id, table'.get? id = rebind (os.filter (·.Names id)) (table.get? id) := by
  induction os generalizing table with
  | nil =>
    obtain rfl := Except.ok.inj h
    exact ⟨nofun, fun _ => rfl⟩
  | cons o os ih =>
    rw [applyAll_cons] at h
    obtain ⟨mid, hstep, h⟩ := bind_eq_ok_iff.1 h
    obtain ⟨hnames, hget⟩ := ih h
    refine ⟨List.forall_mem_cons.2 ⟨exists_names_of_apply hstep, hnames⟩, fun id => ?_⟩
    rw [hget id, get?_of_apply hstep id, ← rebind_append, ← List.filter_append]
    rfl

/-- The first override that names no operator is refused. -/
theorem applyAll_eq_error_iff :
    applyAll os table = .error c ↔ ∃ before o after, os = before ++ o :: after ∧
      (∀ o' ∈ before, ∃ id, o'.Names id) ∧ (∀ id, ¬o.Names id) ∧ c = refusal o.operator := by
  constructor
  · intro h
    induction os generalizing table with
    | nil => cases h
    | cons o os ih =>
      rw [applyAll_cons] at h
      rcases bind_eq_error_iff.1 h with hstep | ⟨mid, hstep, h⟩
      · exact ⟨[], o, os, rfl, nofun, apply_eq_error_iff.1 hstep⟩
      · obtain ⟨before, o', after, rfl, hbefore, ho'⟩ := ih h
        have hnames : ∀ o' ∈ o :: before, ∃ id, o'.Names id :=
          List.forall_mem_cons.2 ⟨exists_names_of_apply hstep, hbefore⟩
        exact ⟨o :: before, o', after, rfl, hnames, ho'⟩
  · rintro ⟨before, o, after, rfl, hbefore, hnot, rfl⟩
    induction before generalizing table with
    | nil =>
      rw [List.nil_append, applyAll_cons, apply_eq_error_iff.2 ⟨hnot, rfl⟩]
      rfl
    | cons o' before ih =>
      obtain ⟨⟨id, ho'⟩, hbefore⟩ := List.forall_mem_cons.1 hbefore
      rw [List.cons_append, applyAll_cons]
      cases hstep : apply table o' with
      | error c => exact absurd ho' ((apply_eq_error_iff.1 hstep).1 id)
      | ok mid => exact ih hbefore

/-- Overrides can be applied if each of them is for an operator. -/
theorem exists_applyAll (h : ∀ o ∈ os, ∃ id, o.Names id) (table : OperatorTable) :
    ∃ table', applyAll os table = .ok table' := by
  cases hall : applyAll os table with
  | ok table' => exact ⟨table', rfl⟩
  | error c =>
    obtain ⟨before, o, after, rfl, -, hnot, -⟩ := applyAll_eq_error_iff.1 hall
    obtain ⟨id, hid⟩ := h o (by simp)
    exact absurd hid (hnot id)

/-- The table that overrides lead to is the one with the bindings that they leave. -/
theorem applyAll_eq_ok_iff :
    applyAll os table = .ok table' ↔ (∀ o ∈ os, ∃ id, o.Names id) ∧
      ∀ id, table'.get? id = rebind (os.filter (·.Names id)) (table.get? id) := by
  constructor
  · exact get?_of_applyAll
  · rintro ⟨hnames, hget⟩
    obtain ⟨found, hfound⟩ := exists_applyAll hnames table
    have heq := OperatorTable.eq_of_get?_eq fun id =>
      ((get?_of_applyAll hfound).2 id).trans (hget id).symm
    rw [hfound, heq]

/-- Overrides that have been applied can be applied again, and change nothing any more. -/
theorem applyAll_of_applyAll (h : applyAll os table = .ok table') :
    applyAll os table' = .ok table' := by
  obtain ⟨hnames, hget⟩ := get?_of_applyAll h
  refine applyAll_eq_ok_iff.2 ⟨hnames, fun id => ?_⟩
  rw [hget id, rebind_rebind]

theorem adjust_eq_ok_iff : adjust os table = .ok table' ↔ applyAll os table = .ok table' := by
  rw [adjust, mapError_eq_ok_iff]

theorem adjust_eq_error_iff :
    adjust os table = .error d ↔ ∃ before o after, os = before ++ o :: after ∧
      (∀ o' ∈ before, ∃ id, o'.Names id) ∧ (∀ id, ¬o.Names id) ∧
      d = origin.report (refusal o.operator) := by
  rw [adjust, mapError_eq_error_iff]
  constructor
  · rintro ⟨c, hc, rfl⟩
    obtain ⟨before, o, after, hos, hbefore, hnot, rfl⟩ := applyAll_eq_error_iff.1 hc
    exact ⟨before, o, after, hos, hbefore, hnot, rfl⟩
  · rintro ⟨before, o, after, hos, hbefore, hnot, rfl⟩
    exact ⟨_, applyAll_eq_error_iff.2 ⟨before, o, after, hos, hbefore, hnot, rfl⟩, rfl⟩

theorem exists_adjust_eq_error_iff :
    (∃ d, adjust os table = .error d) ↔ ∃ o ∈ os, ∀ id, ¬o.Names id := by
  constructor
  · rintro ⟨d, hd⟩
    obtain ⟨before, o, after, rfl, -, hnot, -⟩ := adjust_eq_error_iff.1 hd
    exact ⟨o, by simp, hnot⟩
  · rintro ⟨o, ho, hnot⟩
    cases h : adjust os table with
    | error d => exact ⟨d, rfl⟩
    | ok table' =>
      obtain ⟨id, hid⟩ := (get?_of_applyAll (adjust_eq_ok_iff.1 h)).1 o ho
      exact absurd hid (hnot id)

theorem adjust_append (os os' : List Override) (table : OperatorTable) :
    adjust (os ++ os') table = adjust os table >>= adjust os' := by
  unfold adjust
  rw [applyAll_append]
  cases applyAll os table <;> rfl

/-- Overrides can be applied unless one of them names no binary operator, and the diagnostic is
    about the first such one. They leave every operator with the precedence of the last override
    for it, and with the side of the last one for it that states a side, or else with the side it
    had, or else with the left one; what has no override for it keeps its binding, or has none. The
    tokens that open and close a group stay the same, so the same runs are operands. What two lists
    of overrides do one after the other, both do together, and what has been applied once changes
    nothing any more. -/
theorem adjust_last_wins (os : List Override) (table : OperatorTable) :
    ((∃ d, adjust os table = .error d) ↔ ∃ o ∈ os, ∀ id, ¬o.Names id) ∧
    (∀ d, adjust os table = .error d ↔ ∃ before o after, os = before ++ o :: after ∧
      (∀ o' ∈ before, ∃ id, o'.Names id) ∧ (∀ id, ¬o.Names id) ∧
      d = origin.report
        ⟨.invalidConfig ("'" ++ o.operator ++ "' is not a binary operator"), .zero⟩) ∧
    (∀ table', adjust os table = .ok table' ↔ (∀ o ∈ os, ∃ id, o.Names id) ∧
      ∀ id, table'.get? id = rebind (os.filter (·.Names id)) (table.get? id)) ∧
    (∀ table', adjust os table = .ok table' →
      ∀ ts, table'.splitPoint ts = .ok none ↔ table.splitPoint ts = .ok none) ∧
    (∀ os', adjust (os ++ os') table = adjust os table >>= adjust os') ∧
    adjust os table >>= adjust os = adjust os table := by
  refine ⟨exists_adjust_eq_error_iff, fun d => adjust_eq_error_iff,
    fun table' => adjust_eq_ok_iff.trans applyAll_eq_ok_iff, fun table' _ ts => ?_,
    fun os' => adjust_append os os' table, ?_⟩
  · rw [Expression.splitPoint_eq_none_iff, Expression.splitPoint_eq_none_iff]
  · cases h : adjust os table with
    | error d => rfl
    | ok table' => exact adjust_eq_ok_iff.2 (applyAll_of_applyAll (adjust_eq_ok_iff.1 h))

/-- The side of `<<` is the one that its first override states, and that of `+` the one that it had.
    Of two overrides for no operator, the first one is refused. -/
theorem adjust_last_wins_repeated :
    let table : OperatorTable := .ofList [(Kind.add.id, ⟨7, .right⟩), (Kind.mul.id, ⟨8, .left⟩)]
    let os : List Override := [⟨"<<", 9, some .right⟩, ⟨"+", 3, none⟩, ⟨"<<", 2, none⟩]
    let refused : List Override := [⟨"/", 8, none⟩, ⟨"(", 1, none⟩]
    (∃ table', adjust os table = .ok table' ∧
      table'.get? Kind.shiftLeft.id = some ⟨2, .right⟩ ∧
      table'.get? Kind.add.id = some ⟨3, .right⟩ ∧
      table'.get? Kind.mul.id = some ⟨8, .left⟩ ∧ table'.get? Kind.sub.id = none ∧
      (∀ ts, table'.splitPoint ts = .ok none ↔ table.splitPoint ts = .ok none) ∧
      adjust (os ++ os) table = .ok table') ∧
    adjust (os ++ refused) table =
      .error (origin.report ⟨.invalidConfig "'/' is not a binary operator", .zero⟩) := by
  intro table os refused
  have hadjust : ∃ table', adjust os table = .ok table' := ⟨_, rfl⟩
  obtain ⟨table', h⟩ := hadjust
  obtain ⟨-, -, hok, hgroups, happend, htwice⟩ := adjust_last_wins os table
  obtain ⟨hnames, hget⟩ := (hok table').1 h
  have hrepeated : adjust (os ++ os) table = .ok table' := by rw [happend, htwice, h]
  have hnot : ∀ id, ¬Names ⟨"/", 8, none⟩ id := operator?_eq_none_iff.1 rfl
  refine ⟨⟨table', h, ?_, ?_, ?_, ?_, hgroups table' h, hrepeated⟩, ?_⟩
  · rw [hget]
    rfl
  · rw [hget]
    rfl
  · rw [hget]
    rfl
  · rw [hget]
    rfl
  · exact ((adjust_last_wins (os ++ refused) table).2.1 _).2 ⟨os, _, _, rfl, hnames, hnot, rfl⟩

end Override

end Frontend
