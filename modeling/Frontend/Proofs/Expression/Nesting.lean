import Frontend.Expression

/-!
# Nesting

The construction of an expression looks for operators, for commas and for the end of a group by
three scans of a run of tokens, each with its own count of the parentheses that are open. All of
them pass over a run whose parentheses are balanced (`Nested`): it does not end a group that was
opened before it, and the tokens inside its parentheses are of no concern, only those outside.

What the scans cut off at a `)` or at commas is nested again (`cutAtClose_eq_some_iff`,
`nested_of_mem_cutAtCommas`), and a run that is not nested is so up to a token that breaks it
(`nested_or_breaks`).
-/

namespace Frontend.Expression

/-- The parentheses of a run of tokens are balanced, and `P` holds of the tokens outside them. -/
inductive Nested : (Token → Prop) → List Token → Prop
  | nil {P : Token → Prop} : Nested P []
  | token {P : Token → Prop} {t : Token} {ts : List Token} :
      ¬t.is .openParen → ¬t.is .closeParen → P t → Nested P ts → Nested P (t :: ts)
  | group {P : Token → Prop} {o c : Token} {ts us : List Token} :
      o.is .openParen → Nested (fun _ => True) ts → c.is .closeParen → Nested P us →
      Nested P (o :: (ts ++ c :: us))

variable {P Q : Token → Prop} {ts us rest : List Token}

namespace Nested

/-- A weaker property holds of the tokens outside parentheses, too. -/
theorem mono (h : Nested P ts) (hPQ : ∀ t, P t → Q t) : Nested Q ts := by
  induction h with
  | nil => exact .nil
  | token ho hc ht _ ih => exact .token ho hc (hPQ _ ht) (ih hPQ)
  | group ho hts hc _ _ ih => exact .group ho hts hc (ih hPQ)

/-- A token of a kind that is no parenthesis. -/
theorem kind {k : Kind} {t : Token} (ht : t.is k) (ho : k ≠ .openParen) (hc : k ≠ .closeParen)
    (hP : P t) (h : Nested P ts) : Nested P (t :: ts) :=
  .token (Token.not_is ht ho) (Token.not_is ht hc) hP h

/-- Nested runs one after the other are nested. -/
theorem append (h : Nested P ts) (h' : Nested P us) : Nested P (ts ++ us) := by
  induction h with
  | nil => exact h'
  | token ho hc ht _ ih => exact .token ho hc ht (ih h')
  | group ho hts hc _ _ ih =>
    rw [List.cons_append, List.append_assoc]
    exact .group ho hts hc (ih h')

end Nested

/-! ## The depth of parentheses -/

theorem depthAfter_open {t : Token} (h : t.is .openParen) (d : Nat) : depthAfter d t = d + 1 := by
  rw [depthAfter, if_pos h]

theorem depthAfter_close {t : Token} (h : t.is .closeParen) (d : Nat) :
    depthAfter (d + 1) t = d := by
  rw [depthAfter, if_neg (Token.not_is h (by decide)), if_pos h, Nat.add_sub_cancel]

theorem depthAfter_other {t : Token} (ho : ¬t.is .openParen) (hc : ¬t.is .closeParen) (d : Nat) :
    depthAfter d t = d := by
  rw [depthAfter, if_neg ho, if_neg hc]

/-! ## The end of a group -/

variable {d : Nat} {t c : Token} {inner tail : List Token}

/-- A token that does not end the scan only changes the depth. -/
theorem cutAtClose_cons (hd : t.is .closeParen → d ≠ 0) :
    cutAtClose d (t :: ts) =
      (cutAtClose (depthAfter d t) ts).map
        fun (inner, close, tail) => (t :: inner, close, tail) := by
  rw [cutAtClose, if_neg (by simpa using hd)]

/-- No group that was opened before a nested run is closed in it. -/
theorem cutAtClose_append (hts : Nested P ts) (d : Nat) (us : List Token) :
    cutAtClose d (ts ++ us) =
      (cutAtClose d us).map fun (inner, close, tail) => (ts ++ inner, close, tail) := by
  induction hts generalizing d us with
  | nil => exact Option.map_id'.symm
  | token ho hc _ _ ih =>
    rw [List.cons_append, cutAtClose_cons fun hc' => absurd hc' hc, depthAfter_other ho hc, ih,
      Option.map_map]
    rfl
  | @group P o c ts vs ho _ hc _ ihts ihvs =>
    rw [List.cons_append, List.append_assoc,
      cutAtClose_cons fun hc' => absurd hc' (Token.not_is ho (by decide)), depthAfter_open ho,
      ihts, List.cons_append, cutAtClose_cons fun _ => Nat.succ_ne_zero d, depthAfter_close hc,
      ihvs, Option.map_map, Option.map_map, Option.map_map]
    congr 1
    funext x
    simp

/-- The first `)` after the inside of a group is its own. -/
theorem cutAtClose_of_nested (h : Nested P ts) (hc : c.is .closeParen) (us : List Token) :
    cutAtClose 0 (ts ++ c :: us) = some (ts, c, us) := by
  have hnil : cutAtClose 0 (c :: us) = some ([], c, us) := by
    rw [cutAtClose, hc]
    rfl
  simp [cutAtClose_append h, hnil]

/-- A nested run closes no group that was opened before it. -/
theorem cutAtClose_eq_none_of_nested (h : Nested P ts) (d : Nat) : cutAtClose d ts = none := by
  simpa [cutAtClose] using cutAtClose_append h d []

/-- The tokens close `d` groups that were opened before them, and all that they open. -/
inductive Closes : Nat → List Token → Prop
  | nested {ts : List Token} : Nested (fun _ => True) ts → Closes 0 ts
  | close {d : Nat} {c : Token} {ts us : List Token} : Nested (fun _ => True) ts →
      c.is .closeParen → Closes d us → Closes (d + 1) (ts ++ c :: us)

/-- A nested run in front closes none of the groups. -/
theorem Closes.append (hts : Nested (fun _ => True) ts) (h : Closes d us) :
    Closes d (ts ++ us) := by
  cases h with
  | nested hus => exact .nested (hts.append hus)
  | close hus hc hvs =>
    rw [← List.append_assoc]
    exact .close (hts.append hus) hc hvs

/-- With a group opened in front, one group less remains to be closed. -/
theorem Closes.opened (ho : t.is .openParen) (h : Closes (d + 1) ts) : Closes d (t :: ts) := by
  cases h with
  | close hts hc hus =>
    have hgroup := hus.append (.group ho hts hc .nil)
    simpa using hgroup

/-- The cut is made at a `)`, and what stands before it closes all groups that are to be closed
    first. -/
theorem closes_of_cutAtClose (h : cutAtClose d ts = some (inner, c, tail)) :
    ts = inner ++ c :: tail ∧ c.is .closeParen ∧ Closes d inner := by
  induction ts generalizing d inner with
  | nil => exact nomatch h
  | cons t ts ih =>
    by_cases hd : t.is .closeParen → d ≠ 0
    · rw [cutAtClose_cons hd] at h
      obtain ⟨⟨inner', c', tail'⟩, h', heq⟩ := Option.map_eq_some_iff.1 h
      simp only [Prod.mk.injEq] at heq
      obtain ⟨rfl, rfl, rfl⟩ := heq
      obtain ⟨hts, hclose, hcloses⟩ := ih h'
      refine ⟨congrArg (t :: ·) hts, hclose, ?_⟩
      by_cases ho : t.is .openParen
      · rw [depthAfter_open ho] at hcloses
        exact hcloses.opened ho
      · by_cases hc : t.is .closeParen
        · obtain ⟨d, rfl⟩ := Nat.exists_eq_succ_of_ne_zero (hd hc)
          rw [depthAfter_close hc] at hcloses
          exact .close .nil hc hcloses
        · rw [depthAfter_other ho hc] at hcloses
          exact hcloses.append (.token ho hc trivial .nil)
    · obtain ⟨hc, rfl⟩ : t.is .closeParen ∧ d = 0 := by simpa using hd
      obtain ⟨rfl, rfl, rfl⟩ : [] = inner ∧ t = c ∧ ts = tail := by
        simpa [cutAtClose, hc] using h
      exact ⟨rfl, hc, .nested .nil⟩

/-- What is cut off at a `)` is the inside of the group that it closes. -/
theorem cutAtClose_eq_some_iff :
    cutAtClose 0 ts = some (inner, c, tail) ↔
      ts = inner ++ c :: tail ∧ c.is .closeParen ∧ Nested (fun _ => True) inner := by
  constructor
  · intro h
    obtain ⟨hts, hc, hinner⟩ := closes_of_cutAtClose h
    cases hinner with
    | nested hinner => exact ⟨hts, hc, hinner⟩
  · rintro ⟨rfl, hc, hinner⟩
    exact cutAtClose_of_nested hinner hc tail

/-! ## Commas -/

variable {part : List Token} {comma : Option Token} {parts : List (List Token × Option Token)}

/-- A token that is not cut at belongs to the first part. -/
theorem cutAtCommas_cons (hd : t.is .comma → d ≠ 0)
    (h : cutAtCommas (depthAfter d t) ts = (part, comma) :: parts) :
    cutAtCommas d (t :: ts) = (t :: part, comma) :: parts := by
  rw [cutAtCommas, if_neg (by simpa using hd), h]

/-- A nested run belongs to the first part, unless there is a comma outside its parentheses. -/
theorem cutAtCommas_append (hts : Nested P ts) (hP : ∀ t, P t → t.is .comma → d ≠ 0)
    (h : cutAtCommas d us = (part, comma) :: parts) :
    cutAtCommas d (ts ++ us) = (ts ++ part, comma) :: parts := by
  induction hts generalizing d us part with
  | nil => exact h
  | token ho hc ht _ ih =>
    refine cutAtCommas_cons (hP _ ht) (ih ?_ ?_)
    · rwa [depthAfter_other ho hc]
    · rwa [depthAfter_other ho hc]
  | @group P o c' ts vs ho _ hc _ ihts ihvs =>
    have hvs := cutAtCommas_cons (t := c') (d := d + 1) (fun _ => Nat.succ_ne_zero d)
      ((depthAfter_close hc d).symm ▸ ihvs hP h)
    have hgroup := cutAtCommas_cons (d := d) (fun ho' => absurd ho' (Token.not_is ho (by decide)))
      ((depthAfter_open ho d).symm ▸ ihts (d := d + 1) (fun _ _ _ => Nat.succ_ne_zero d) hvs)
    simpa using hgroup

/-- A run without commas outside parentheses is one part. -/
theorem cutAtCommas_of_nested (h : Nested P ts) (hP : ∀ t, P t → ¬t.is .comma) :
    cutAtCommas 0 ts = [(ts, none)] := by
  have hnil : cutAtCommas 0 [] = [([], none)] := rfl
  simpa using cutAtCommas_append h (fun t ht hcomma => absurd hcomma (hP t ht)) hnil

/-- A run up to its first comma outside parentheses is the first part. -/
theorem cutAtCommas_of_nested_comma (h : Nested P ts) (hP : ∀ t, P t → ¬t.is .comma)
    (ht : t.is .comma) (us : List Token) :
    cutAtCommas 0 (ts ++ t :: us) = (ts, some t) :: cutAtCommas 0 us := by
  have hcomma : cutAtCommas 0 (t :: us) = ([], some t) :: cutAtCommas 0 us := by
    rw [cutAtCommas, ht]
    rfl
  simpa using cutAtCommas_append h (fun t ht hcomma => absurd hcomma (hP t ht)) hcomma

theorem exists_cutAtCommas_eq_cons (d : Nat) (ts : List Token) :
    ∃ part comma parts, cutAtCommas d ts = (part, comma) :: parts := by
  cases ts with
  | nil => exact ⟨_, _, _, rfl⟩
  | cons t ts =>
    rw [cutAtCommas]
    split
    · exact ⟨_, _, _, rfl⟩
    · split <;> exact ⟨_, _, _, rfl⟩

/-- The parts between the commas of a nested run are nested. -/
theorem nested_of_mem_cutAtCommas (h : Nested P ts) :
    ∀ part ∈ cutAtCommas 0 ts, Nested P part.1 := by
  induction h with
  | nil => exact List.forall_mem_singleton.2 .nil
  | token ho hc ht _ ih =>
    rw [cutAtCommas]
    split
    · exact List.forall_mem_cons.2 ⟨.nil, ih⟩
    · rw [depthAfter_other ho hc]
      split
      · next heq =>
        obtain ⟨hpart, hparts⟩ := List.forall_mem_cons.1 (heq ▸ ih)
        exact List.forall_mem_cons.2 ⟨.token ho hc ht hpart, hparts⟩
      · exact List.forall_mem_singleton.2 (.token ho hc ht .nil)
  | @group P o c ts us ho hts hc _ _ ih =>
    obtain ⟨part, comma, parts, heq⟩ := exists_cutAtCommas_eq_cons 0 us
    have hgroup : Nested (fun _ => False) (o :: (ts ++ [c])) := .group ho hts hc .nil
    have happend := cutAtCommas_append hgroup (fun _ hfalse => hfalse.elim) heq
    rw [List.cons_append, List.append_assoc, List.singleton_append] at happend
    obtain ⟨hpart, hparts⟩ := List.forall_mem_cons.1 (heq ▸ ih)
    rw [happend]
    refine List.forall_mem_cons.2 ⟨?_, hparts⟩
    simpa using Nested.group ho hts hc hpart

/-! ## Operators -/

variable {table : OperatorTable} {opened : List Token} {best : Option (Nat × Int)} {i : Nat}

theorem scanSplit_open (ht : t.is .openParen) :
    table.scanSplit i opened best (t :: ts) = table.scanSplit (i + 1) (t :: opened) best ts := by
  cases opened <;> rw [OperatorTable.scanSplit, if_pos ht]

theorem scanSplit_close (ht : t.is .closeParen) (o : Token) :
    table.scanSplit i (o :: opened) best (t :: ts) = table.scanSplit (i + 1) opened best ts := by
  rw [OperatorTable.scanSplit, if_neg (Token.not_is ht (by decide)), if_pos ht]

/-- The scan passes over what is no parenthesis and no operator outside parentheses. -/
theorem scanSplit_skip (ho : ¬t.is .openParen) (hc : ¬t.is .closeParen)
    (ht : isBinaryOperator t.id → opened ≠ []) :
    table.scanSplit i opened best (t :: ts) = table.scanSplit (i + 1) opened best ts := by
  cases opened with
  | nil =>
    have hid : ¬isBinaryOperator t.id := fun h => ht h rfl
    rw [OperatorTable.scanSplit, if_neg ho, if_neg hc, if_pos (by simpa using hid)]
  | cons o opened =>
    rw [OperatorTable.scanSplit, if_neg ho, if_neg hc]
    exact if_pos rfl

/-- Only an operator outside parentheses can be split at. -/
theorem scanSplit_append (hts : Nested P ts)
    (hP : ∀ t, P t → isBinaryOperator t.id → opened ≠ []) (us : List Token) :
    table.scanSplit i opened best (ts ++ us) =
      table.scanSplit (i + ts.length) opened best us := by
  induction hts generalizing i opened us with
  | nil => rfl
  | @token P t ts ho hc ht _ ih =>
    rw [List.cons_append, scanSplit_skip ho hc (hP t ht), ih hP, List.length_cons,
      Nat.add_right_comm, Nat.add_assoc]
  | @group P o c ts vs ho _ hc _ ihts ihvs =>
    -- Inside the group a parenthesis is open, whatever was open before it.
    rw [List.cons_append, List.append_assoc, scanSplit_open ho,
      ihts fun _ _ _ => List.cons_ne_nil o opened, List.cons_append, scanSplit_close hc, ihvs hP]
    congr 1
    simp only [List.length_cons, List.length_append]
    omega

/-! ## Where nesting ends -/

/-- The token `t`, with the tokens `us` behind it, keeps a run from being nested: it closes a group
    that was not opened, it should not stand outside parentheses, or it opens a group that is not
    closed. -/
inductive Breaks (P : Token → Prop) (t : Token) (us : List Token) : Prop
  | close : t.is .closeParen → Breaks P t us
  | token : ¬t.is .openParen → ¬t.is .closeParen → ¬P t → Breaks P t us
  | opening : t.is .openParen → cutAtClose 0 us = none → Breaks P t us

/-- A run is nested or begins with a nested run and a token that breaks it. -/
theorem nested_or_breaks (P : Token → Prop) (ts : List Token) :
    Nested P ts ∨ ∃ us t vs, ts = us ++ t :: vs ∧ Nested P us ∧ Breaks P t vs := by
  induction hn : ts.length using Nat.strongRecOn generalizing ts with
  | ind n ih =>
    subst hn
    -- A nested run in front changes nothing.
    have hprepend {us vs : List Token} (hus : Nested P us) (hne : us ≠ []) (hts : ts = us ++ vs) :
        Nested P ts ∨ ∃ us t vs, ts = us ++ t :: vs ∧ Nested P us ∧ Breaks P t vs := by
      subst hts
      have hlen : vs.length < (us ++ vs).length := by
        rw [List.length_append]
        exact Nat.lt_add_of_pos_left (List.length_pos_iff.2 hne)
      rcases ih vs.length hlen vs rfl with hvs | ⟨us', t, vs, rfl, hus', hbreaks⟩
      · exact .inl (hus.append hvs)
      · exact .inr ⟨us ++ us', t, vs, by rw [List.append_assoc], hus.append hus', hbreaks⟩
    cases ts with
    | nil => exact .inl .nil
    | cons t ts =>
      by_cases ho : t.is .openParen
      · cases hcut : cutAtClose 0 ts with
        | none => exact .inr ⟨[], t, ts, rfl, .nil, .opening ho hcut⟩
        | some cut =>
          obtain ⟨inner, c, tail⟩ := cut
          obtain ⟨rfl, hc, hinner⟩ := cutAtClose_eq_some_iff.1 hcut
          have heq : t :: (inner ++ c :: tail) = t :: (inner ++ [c]) ++ tail := by simp
          exact hprepend (.group ho hinner hc .nil) (List.cons_ne_nil _ _) heq
      · by_cases hc : t.is .closeParen
        · exact .inr ⟨[], t, ts, rfl, .nil, .close hc⟩
        · by_cases ht : P t
          · exact hprepend (.token ho hc ht .nil) (List.cons_ne_nil _ _) rfl
          · exact .inr ⟨[], t, ts, rfl, .nil, .token ho hc ht⟩

end Frontend.Expression
