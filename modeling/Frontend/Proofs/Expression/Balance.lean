import Frontend.Proofs.Expression.Nesting
import Mathlib.Order.Bounds.Basic
import Mathlib.Order.WellFounded

/-!
# Balance

How many groups are open at a place of a run is a matter of counting (`depth`). A `)` is *stray* if
no group is open before it, and a `(` is *unclosed* if the depth stays above the one before it up
to the end of the run. A run is *balanced* if it has no such parentheses; this is to say that it is
nested (`balanced_iff_nested`).

Otherwise there is a first one to be blamed: the first stray `)`, or, if there is none, the first
unclosed `(` (`FirstUnmatched`).
-/

namespace Frontend.Expression

/-- How many groups are open behind some tokens, if `d` are open before them. -/
def depth (d : Nat) (ts : List Token) : Nat := ts.foldl depthAfter d

/-- A token with the property `P` stands at the index `i`, and no group is open there; `d` groups
    are open before the run. -/
def Outside (P : Token → Prop) (d : Nat) (ts : List Token) (i : Nat) : Prop :=
  ∃ t, ts[i]? = some t ∧ P t ∧ depth d (ts.take i) = 0

/-- The `)` at the index `i` closes a group that was not opened. -/
def Stray (ts : List Token) (i : Nat) : Prop := Outside (·.is .closeParen) 0 ts i

/-- The `(` at the index `i` opens a group that is not closed. -/
def Unclosed (ts : List Token) (i : Nat) : Prop :=
  ∃ t, ts[i]? = some t ∧ t.is .openParen ∧
    ∀ j, i < j → j ≤ ts.length → depth 0 (ts.take i) < depth 0 (ts.take j)

/-- Every parenthesis has its partner. -/
structure Balanced (ts : List Token) : Prop where
  not_stray : ∀ i, ¬Stray ts i
  not_unclosed : ∀ i, ¬Unclosed ts i

/-- The first stray `)` stands at the index `i` or, if there is none, the first unclosed `(`. -/
def FirstUnmatched (ts : List Token) (i : Nat) : Prop :=
  IsLeast {i | Stray ts i} i ∨ (∀ j, ¬Stray ts j) ∧ IsLeast {i | Unclosed ts i} i

variable {P Q : Token → Prop} {ts us vs : List Token} {t : Token} {d i j : Nat}

/-! ## Depth -/

theorem depth_cons (d : Nat) (t : Token) (ts : List Token) :
    depth d (t :: ts) = depth (depthAfter d t) ts := rfl

theorem depth_append (d : Nat) (ts us : List Token) :
    depth d (ts ++ us) = depth (depth d ts) us :=
  List.foldl_append

/-- A nested run leaves as many groups open as it finds. -/
theorem Nested.depth_eq (h : Nested P ts) (d : Nat) : depth d ts = d := by
  induction h generalizing d with
  | nil => rfl
  | token ho hc _ _ ih => rw [depth_cons, depthAfter_other ho hc, ih]
  | group ho _ hc _ ihts ihus =>
    rw [depth_cons, depthAfter_open ho, depth_append, ihts, depth_cons, depthAfter_close hc, ihus]

/-- Where no group of `d` more is closed too often, the depth stays above those open before. -/
theorem lt_depth_take (h : cutAtClose d ts = none) (e j : Nat) :
    e < depth (e + d + 1) (ts.take j) := by
  induction ts generalizing d j with
  | nil =>
    rw [List.take_nil, depth, List.foldl_nil]
    omega
  | cons t ts ih =>
    have hd : t.is .closeParen → d ≠ 0 := by
      rintro hc rfl
      simp [cutAtClose, hc] at h
    rw [cutAtClose_cons hd, Option.map_eq_none_iff] at h
    cases j with
    | zero =>
      rw [List.take_zero, depth, List.foldl_nil]
      omega
    | succ j =>
      rw [List.take_succ_cons, depth_cons]
      by_cases ho : t.is .openParen
      · rw [depthAfter_open ho] at h ⊢
        exact ih h j
      · by_cases hc : t.is .closeParen
        · obtain ⟨d, rfl⟩ := Nat.exists_eq_succ_of_ne_zero (hd hc)
          rw [depthAfter_close hc] at h ⊢
          exact ih h j
        · rw [depthAfter_other ho hc] at h ⊢
          exact ih h j

/-! ## Tokens outside parentheses -/

theorem outside_zero_iff : Outside P d (t :: ts) 0 ↔ P t ∧ d = 0 := by
  simp [Outside, depth]

theorem outside_succ_iff : Outside P d (t :: ts) (i + 1) ↔ Outside P (depthAfter d t) ts i := by
  simp [Outside, depth_cons]

theorem Outside.lt_length (h : Outside P d ts i) : i < ts.length := by
  obtain ⟨t, ht, -⟩ := h
  exact (List.getElem?_eq_some_iff.1 ht).1

theorem Outside.mono (h : Outside P d ts i) (hPQ : ∀ t, P t → Q t) : Outside Q d ts i := by
  obtain ⟨t, ht, hP, hdepth⟩ := h
  exact ⟨t, ht, hPQ t hP, hdepth⟩

theorem outside_append_left (hi : i < ts.length) :
    Outside P d (ts ++ us) i ↔ Outside P d ts i := by
  rw [Outside, Outside, List.getElem?_append_left hi, List.take_append_of_le_length (by omega)]

/-- Behind some tokens, what stands outside is told from the groups that they leave open. -/
theorem outside_append_right :
    Outside P d (ts ++ us) (ts.length + i) ↔ Outside P (depth d ts) us i := by
  rw [Outside, Outside, List.getElem?_append_right (Nat.le_add_right _ _), Nat.add_sub_cancel_left,
    List.take_length_add_append, depth_append]

/-- The token behind a run stands outside if the run leaves no group open. -/
theorem outside_length_iff :
    Outside P d (ts ++ t :: us) ts.length ↔ P t ∧ depth d ts = 0 := by
  rw [← outside_zero_iff, ← outside_append_right, Nat.add_zero]

/-- There is no stray `)` exactly if nothing is cut off at one. -/
theorem cutAtClose_eq_none_iff :
    cutAtClose d ts = none ↔ ∀ i, ¬Outside (·.is .closeParen) d ts i := by
  induction ts generalizing d with
  | nil => simp [cutAtClose, Outside]
  | cons t ts ih =>
    by_cases hd : t.is .closeParen → d ≠ 0
    · rw [cutAtClose_cons hd, Option.map_eq_none_iff, ih]
      constructor
      · rintro h (_ | i)
        · rw [outside_zero_iff]
          rintro ⟨hc, hzero⟩
          exact hd hc hzero
        · rw [outside_succ_iff]
          exact h i
      · exact fun h i => outside_succ_iff.not.1 (h (i + 1))
    · obtain ⟨hc, rfl⟩ : t.is .closeParen ∧ d = 0 := by simpa using hd
      refine iff_of_false (by simp [cutAtClose, hc]) fun h => ?_
      exact h 0 (outside_zero_iff.2 ⟨hc, rfl⟩)

/-- The tokens outside parentheses are those that a nested run says something of. -/
theorem Nested.of_outside (h : Nested P ts) (hi : Outside Q 0 ts i) :
    ∃ t, Q t ∧ (t.is .openParen ∨ ¬t.is .openParen ∧ ¬t.is .closeParen ∧ P t) := by
  induction h generalizing i with
  | nil => exact absurd hi.lt_length (Nat.not_lt_zero i)
  | @token P t ts ho hc ht _ ih =>
    cases i with
    | zero => exact ⟨t, (outside_zero_iff.1 hi).1, .inr ⟨ho, hc, ht⟩⟩
    | succ i =>
      rw [outside_succ_iff, depthAfter_other ho hc] at hi
      exact ih hi
  | @group P o c ts us ho hts hc _ _ ih =>
    cases i with
    | zero => exact ⟨o, (outside_zero_iff.1 hi).1, .inl ho⟩
    | succ i =>
      rw [outside_succ_iff, depthAfter_open ho] at hi
      -- A group is open until the `)` has been passed.
      rcases Nat.lt_or_ge i ts.length with hlt | hge
      · obtain ⟨_, -, -, hzero⟩ := (outside_append_left hlt).1 hi
        have hpos := lt_depth_take (cutAtClose_eq_none_of_nested hts 0) 0 i
        exact absurd hzero (Nat.ne_of_gt hpos)
      · obtain ⟨j, rfl⟩ := Nat.exists_eq_add_of_le hge
        rw [outside_append_right, hts.depth_eq] at hi
        cases j with
        | zero => exact nomatch (outside_zero_iff.1 hi).2
        | succ j =>
          rw [outside_succ_iff, depthAfter_close hc] at hi
          exact ih hi

/-! ## Unmatched parentheses -/

/-- Behind an unclosed `(` everything is inside parentheses. -/
theorem Unclosed.le_of_outside (h : Unclosed ts i) (hj : Outside P 0 ts j) : j ≤ i := by
  obtain ⟨_, -, -, hdeeper⟩ := h
  obtain ⟨_, -, -, hzero⟩ := id hj
  refine Nat.le_of_not_lt fun hlt => ?_
  have := hdeeper j hlt (Nat.le_of_lt hj.lt_length)
  omega

/-- A `(` is unclosed if the tokens behind it do not close it. -/
theorem unclosed_length (ho : t.is .openParen) (hvs : cutAtClose 0 vs = none) :
    Unclosed (us ++ t :: vs) us.length := by
  refine ⟨t, by simp, ho, fun j hj _ => ?_⟩
  obtain ⟨k, rfl⟩ := Nat.exists_eq_add_of_lt hj
  rw [List.take_left, Nat.add_assoc, List.take_length_add_append, List.take_succ_cons,
    depth_append, depth_cons, depthAfter_open ho]
  exact lt_depth_take hvs (depth 0 us) k

/-- A `(` in a nested run is closed in it. -/
theorem le_of_unclosed (hus : Nested P us) (h : Unclosed (us ++ vs) i) : us.length ≤ i := by
  obtain ⟨_, -, -, hdeeper⟩ := h
  refine Nat.le_of_not_lt fun hlt => ?_
  have := hdeeper us.length hlt (by simp)
  rw [List.take_left, hus.depth_eq] at this
  omega

/-- What has no stray `)` can be made nested by closing its groups. -/
theorem exists_nested_append (hc : t.is .closeParen) (h : ∀ i, ¬Stray ts i) :
    ∃ n, Nested (fun _ => True) (ts ++ List.replicate n t) := by
  induction hn : ts.length using Nat.strongRecOn generalizing ts with
  | ind n ih =>
    rcases nested_or_breaks (fun _ => True) ts with hts | ⟨us, o, vs, rfl, hus, hbreaks⟩
    · exact ⟨0, by simpa using hts⟩
    · cases hbreaks with
      | close hclose => exact absurd (outside_length_iff.2 ⟨hclose, hus.depth_eq 0⟩) (h us.length)
      | token _ _ hfalse => exact absurd trivial hfalse
      | opening ho hvs =>
        have hlen : vs.length < n := by
          rw [← hn, List.length_append, List.length_cons]
          omega
        obtain ⟨n, hvs⟩ := ih _ hlen (cutAtClose_eq_none_iff.1 hvs) rfl
        refine ⟨n + 1, ?_⟩
        have hgroup := hus.append (.group ho hvs hc .nil)
        simpa [List.replicate_succ'] using hgroup

/-- In a nested run every parenthesis has its partner. -/
theorem Nested.balanced (h : Nested P ts) : Balanced ts where
  not_stray := cutAtClose_eq_none_iff.1 (cutAtClose_eq_none_of_nested h 0)
  not_unclosed i hi := by
    have hle := le_of_unclosed h ((List.append_nil ts).symm ▸ hi)
    obtain ⟨t, ht, -⟩ := hi
    have hlt := (List.getElem?_eq_some_iff.1 ht).1
    omega

/-- Counting parentheses and nesting them come to the same. -/
theorem balanced_iff_nested : Balanced ts ↔ Nested (fun _ => True) ts := by
  refine ⟨fun h => ?_, Nested.balanced⟩
  rcases nested_or_breaks (fun _ => True) ts with hts | ⟨us, t, vs, rfl, hus, hbreaks⟩
  · exact hts
  · cases hbreaks with
    | close hc => exact absurd (outside_length_iff.2 ⟨hc, hus.depth_eq 0⟩) (h.not_stray us.length)
    | token _ _ hfalse => exact absurd trivial hfalse
    | opening ho hvs => exact absurd (unclosed_length ho hvs) (h.not_unclosed us.length)

/-- It is a parenthesis that is blamed. -/
theorem FirstUnmatched.exists_paren (h : FirstUnmatched ts i) :
    ∃ t, ts[i]? = some t ∧ (t.is .openParen ∨ t.is .closeParen) := by
  rcases h with ⟨⟨t, ht, hc, -⟩, -⟩ | ⟨-, ⟨t, ht, ho, -⟩, -⟩
  · exact ⟨t, ht, .inr hc⟩
  · exact ⟨t, ht, .inl ho⟩

/-- In a run that is not balanced, and only there, a parenthesis is to be blamed. -/
theorem exists_firstUnmatched_iff : (∃ i, FirstUnmatched ts i) ↔ ¬Balanced ts := by
  constructor
  · rintro ⟨i, ⟨hi, -⟩ | ⟨-, hi, -⟩⟩ hts
    · exact hts.not_stray i hi
    · exact hts.not_unclosed i hi
  · intro h
    have hleast {s : Set Nat} (hs : s.Nonempty) : ∃ i, IsLeast s i :=
      ⟨wellFounded_lt.min s hs, WellFounded.min_mem _ s hs, fun _ => WellFounded.min_le _⟩
    by_cases hstray : ∃ i, Stray ts i
    · exact (hleast hstray).imp fun i => .inl
    · rw [not_exists] at hstray
      have hunclosed : ∃ i, Unclosed ts i := by
        by_contra hnone
        exact h ⟨hstray, not_exists.1 hnone⟩
      exact (hleast hunclosed).imp fun i hi => .inr ⟨hstray, hi⟩

end Frontend.Expression
