import Frontend.Proofs.Expression.Built

/-!
# What the construction complains about

A complaint of the construction is made by one of its levels, about the run that it has there
(`Complains`), and passed on by the levels above (`error_of_buildStep`).

It is about tokens of this run: it quotes one of them, for instance the one behind what is taken for
the first operand (`TakenBefore`), or marks a parenthesis, or reaches from one token to another
between which there is nothing to build (`Blames`). The pieces of a run are cut
from it, so these are tokens of the run that could not be built (`blames_of_build`).
-/

namespace Frontend

/-- The lexeme that a problem quotes. -/
def Problem.quoted? : Problem → Option String
  | unknownToken q | invalidLiteral q | unexpectedToken _ q | expectedEnd q | missingOperand q _
  | unknownOperator q => some q
  | _ => none

namespace Expression

/-- The complaint is about some of the tokens, or about there being none. -/
inductive Blames (ts : List Token) : Complaint → Prop
  | quoted {t : Token} {p : Problem} : t ∈ ts → p.quoted? = some t.lexeme → Blames ts ⟨p, t.span⟩
  | unbalanced {t : Token} : t ∈ ts → t.is .openParen ∨ t.is .closeParen → Blames ts t.unbalanced
  | between {t u : Token} : t ∈ ts → u ∈ ts → Blames ts ⟨.emptyExpression, t.span.join u.span⟩
  | empty : Blames ts Problem.emptyExpression.unplaced

variable {table : OperatorTable} {build : List Token → Except Complaint Expr} {c : Complaint}
  {ts us vs : List Token} {t : Token}

/-- A complaint about some of the tokens is one about more of them. -/
theorem Blames.mono (h : Blames us c) (hus : us ⊆ ts) : Blames ts c := by
  cases h with
  | quoted ht hp => exact .quoted (hus ht) hp
  | unbalanced ht hp => exact .unbalanced (hus ht) hp
  | between ht hu => exact .between (hus ht) (hus hu)
  | empty => exact .empty

/-! ## The split point -/

/-- A scan complains about the tokens that it passes, or about a parenthesis opened before. -/
theorem blames_of_scanSplit {i : Nat} {opened : List Token} {best : Option (Nat × Int)}
    (hopened : ∀ t ∈ opened, t ∈ us ∧ t.is .openParen) (hts : ts ⊆ us)
    (h : table.scanSplit i opened best ts = .error c) : Blames us c := by
  induction ts generalizing i opened best with
  | nil =>
    rw [OperatorTable.scanSplit] at h
    split at h
    · next t hlast =>
      obtain rfl := Except.error.inj h
      obtain ⟨ht, ho⟩ := hopened t (List.mem_of_getLast? hlast)
      exact .unbalanced ht (.inl ho)
    · cases h
  | cons t ts ih =>
    obtain ⟨ht, hts⟩ := List.cons_subset.1 hts
    rw [OperatorTable.scanSplit.eq_def] at h
    dsimp only at h
    split at h
    · next ho => exact ih (List.forall_mem_cons.2 ⟨⟨ht, ho⟩, hopened⟩) hts h
    · split at h
      · next hc =>
        split at h
        · obtain rfl := Except.error.inj h
          exact .unbalanced ht (.inr hc)
        · exact ih (List.forall_mem_cons.1 hopened).2 hts h
      · split at h
        · exact ih hopened hts h
        · split at h
          · obtain rfl := Except.error.inj h
            exact .quoted ht rfl
          · exact ih hopened hts h

/-- The search for a split point complains about a token of the run. -/
theorem blames_of_splitPoint (h : table.splitPoint ts = .error c) : Blames ts c :=
  blames_of_scanSplit (fun _ ht => absurd ht List.not_mem_nil) (List.Subset.refl ts) h

/-! ## One level -/

/-- What the parser of primaries takes for the first operand, if `t` and `vs` are left behind it. -/
inductive TakenBefore (t : Token) (vs : List Token) : List Token → Prop
  | token {f : Token} : ¬(f.is .identifier ∧ t.is .openParen) → TakenBefore t vs [f]
  | call {f o c : Token} {inner : List Token} : f.is .identifier → o.is .openParen →
      cutAtClose 0 (inner ++ c :: t :: vs) = some (inner, c, t :: vs) →
      TakenBefore t vs (f :: o :: (inner ++ [c]))

/-- One level of the construction complains about its run of tokens, whatever becomes of the
    pieces. -/
inductive Complains (table : OperatorTable) (ts : List Token) : Complaint → Prop
  | split {c : Complaint} : table.splitPoint ts = .error c → Complains table ts c
  | unclosed {point : Option Nat} {f o : Token} {us : List Token} :
      table.splitPoint ts = .ok point → ts = f :: o :: us → o.is .openParen →
      cutAtClose 0 us = none → Complains table ts o.unbalanced
  | operator {t : Token} {us vs : List Token} : table.splitPoint ts = .ok none →
      groupInside? ts = none → ts = us ++ t :: vs → TakenBefore t vs us →
      Complains table ts (unexpected t "an operator")
  | quoted {t : Token} {p : Problem} : t ∈ ts → p.quoted? = some t.lexeme →
      (∀ found, p ≠ .unexpectedToken "an operator" found) → Complains table ts ⟨p, t.span⟩
  | between {t u : Token} : t ∈ ts → u ∈ ts →
      Complains table ts ⟨.emptyExpression, t.span.join u.span⟩
  | empty : Complains table ts Problem.emptyExpression.unplaced

theorem Complains.emptyAt (ht : t ∈ ts) : Complains table ts ⟨.emptyExpression, t.span⟩ := by
  have hjoin : t.span.join t.span = t.span := by simp [Span.join]
  exact hjoin ▸ .between ht ht

/-- What a level complains of is in its run. -/
theorem Complains.blames (h : Complains table ts c) : Blames ts c := by
  cases h with
  | split h => exact blames_of_splitPoint h
  | unclosed _ hts ho _ => exact .unbalanced (by simp [hts]) (.inl ho)
  | operator _ _ hts _ => exact .quoted (by simp [hts]) rfl
  | quoted ht hp _ => exact .quoted ht hp
  | between ht hu => exact .between ht hu
  | empty => exact .empty

/-- The commas that a run is cut at are tokens of it. -/
theorem Cut.comma_mem {parts : List (List Token × Option Token)} (h : Cut us parts) :
    ∀ part ∈ parts, ∀ t ∈ part.2, t ∈ us := by
  induction h with
  | last us => exact List.forall_mem_singleton.2 fun t ht => absurd ht (Option.not_mem_none t)
  | @comma t us vs parts _ _ ih =>
    refine List.forall_mem_cons.2 ⟨?_, fun part hpart t ht => by simp [ih part hpart t ht]⟩
    rintro _ ⟨⟩
    simp

/-- Arguments fail where one of them is missing, or as one of them does. -/
theorem error_of_buildArguments {last : Token} {parts : List (List Token × Option Token)}
    (h : buildArguments build last parts = .error c) :
    (∃ t, (t = last ∨ ∃ part ∈ parts, t ∈ part.2) ∧ c = ⟨.emptyExpression, t.span⟩) ∨
      ∃ part ∈ parts, build part.1 = .error c := by
  induction parts with
  | nil => cases h
  | cons part parts ih =>
    obtain ⟨_ | ⟨t, us⟩, comma⟩ := part
    · obtain rfl := Except.error.inj h
      cases comma with
      | none => exact .inl ⟨last, .inl rfl, rfl⟩
      | some t => exact .inl ⟨t, .inr ⟨_, List.mem_cons_self, rfl⟩, rfl⟩
    · rcases bind_eq_error_iff.1 h with h | ⟨e, -, h⟩
      · exact .inr ⟨_, List.mem_cons_self, h⟩
      · rcases bind_eq_error_iff.1 h with h | ⟨es, -, h⟩
        · rcases ih h with ⟨t, rfl | ⟨part, hpart, ht⟩, rfl⟩ | ⟨part, hpart, h⟩
          · exact .inl ⟨t, .inl rfl, rfl⟩
          · exact .inl ⟨t, .inr ⟨part, List.mem_cons_of_mem _ hpart, ht⟩, rfl⟩
          · exact .inr ⟨part, List.mem_cons_of_mem _ hpart, h⟩
        · cases h

theorem eq_none_of_bind_cutAt {point : Option Nat} (hpoint : table.splitPoint ts = .ok point)
    (h : point.bind (cutAt ts) = none) : point = none := by
  cases point with
  | none => rfl
  | some i =>
    rcases operator_of_scanSplit hpoint with hi | ⟨us, t, vs, b, rfl, rfl, -⟩
    · cases hi
    · simp [cutAt] at h

section

variable (hpoint : table.splitPoint ts = .ok none) (hgroup : groupInside? ts = none)
include hpoint hgroup

/-- A call fails by a complaint of its level, or as one of its arguments does. -/
theorem error_of_buildCall {f o : Token} (hts : ts = f :: o :: us) (hf : f.is .identifier)
    (ho : o.is .openParen) (h : buildCall build f o us = .error c) :
    Complains table ts c ∨ ∃ vs, Piece table ts vs ∧ build vs = .error c := by
  have hmem {t : Token} (ht : t ∈ us) : t ∈ ts := by simp [hts, ht]
  unfold buildCall at h
  split at h
  · next hcut =>
    obtain rfl := Except.error.inj h
    exact .inl (.unclosed hpoint hts ho hcut)
  · next inner closing next rest hcut =>
    obtain rfl := Except.error.inj h
    obtain ⟨hus, -, -⟩ := cutAtClose_eq_some_iff.1 hcut
    have htaken : TakenBefore next rest (f :: o :: (inner ++ [closing])) :=
      .call hf ho (hus ▸ hcut)
    exact .inl (.operator hpoint hgroup (by simp [hts, hus]) htaken)
  · next inner closing hcut =>
    have hinner {t : Token} (ht : t ∈ inner) : t ∈ ts :=
      hmem (by simp [(cutAtClose_eq_some_iff.1 hcut).1, ht])
    cases hlast : inner.getLast? with
    | none =>
      rw [hlast] at h
      cases h
    | some last =>
      rw [hlast] at h
      rcases bind_eq_error_iff.1 h with hargs | ⟨es, -, hcall⟩
      · rcases error_of_buildArguments hargs with ⟨t, ht, rfl⟩ | ⟨part, hpart, h⟩
        · refine .inl (.emptyAt (hinner ?_))
          rcases ht with rfl | ⟨part, hpart, ht⟩
          · exact List.mem_of_getLast? hlast
          · exact (cut_cutAtCommas 0 inner).comma_mem part hpart t ht
        · exact .inr ⟨_, .argument hpoint hts hcut hpart, h⟩
      · cases hcall

/-- A primary fails by a complaint of its level, or as one of its pieces does. -/
theorem error_of_buildPrimary (h : buildPrimary build ts = .error c) :
    Complains table ts c ∨ ∃ us, Piece table ts us ∧ build us = .error c := by
  unfold buildPrimary at h
  split at h
  · obtain rfl := Except.error.inj h
    exact .inl .empty
  · next t =>
    have ht : t ∈ [t] := List.mem_singleton_self t
    split at h
    · cases h
    · split at h
      · split at h
        · cases h
        · obtain rfl := Except.error.inj h
          exact .inl (.quoted ht rfl fun _ => Problem.noConfusion)
      · obtain rfl := Except.error.inj h
        refine .inl (.quoted ht rfl fun found heq => ?_)
        exact absurd (Problem.unexpectedToken.inj heq).1 (by decide)
  · next t next us =>
    split at h
    · next hcall =>
      obtain ⟨hf, ho⟩ := Bool.and_eq_true_iff.1 hcall
      exact error_of_buildCall hpoint hgroup rfl hf ho h
    · next hcall =>
      obtain rfl := Except.error.inj h
      have htaken : TakenBefore next us [t] := .token (by simpa using hcall)
      exact .inl (.operator hpoint hgroup rfl htaken)

end

/-- An operand fails by a complaint of its level, or as one of its pieces does. -/
theorem error_of_buildOperand (hpoint : table.splitPoint ts = .ok none)
    (h : buildOperand build ts = .error c) :
    Complains table ts c ∨ ∃ us, Piece table ts us ∧ build us = .error c := by
  cases hgroup : groupInside? ts with
  | none =>
    refine error_of_buildPrimary hpoint hgroup ?_
    rw [buildOperand, hgroup] at h
    cases hhead : ts.head? <;> rwa [hhead] at h
  | some group =>
    obtain ⟨inner, closing⟩ := group
    obtain ⟨o, rfl, -⟩ := groupInside?_eq_some hgroup
    rw [buildOperand, hgroup] at h
    dsimp only [List.head?_cons] at h
    split at h
    · obtain rfl := Except.error.inj h
      exact .inl (.between List.mem_cons_self (by simp))
    · rcases bind_eq_error_iff.1 h with h | ⟨e, -, h⟩
      · exact .inr ⟨inner, .inside hpoint hgroup, h⟩
      · cases h

/-- A level that fails complains itself or passes on the complaint about a piece. -/
theorem error_of_buildStep (h : buildStep table build ts = .error c) :
    Complains table ts c ∨ ∃ us, Piece table ts us ∧ build us = .error c := by
  unfold buildStep at h
  split at h
  · obtain rfl := Except.error.inj h
    exact .inl .empty
  · rcases bind_eq_error_iff.1 h with hpoint | ⟨point, hpoint, hsplit⟩
    · exact .inl (.split hpoint)
    · split at hsplit
      · next hnone =>
        obtain rfl := eq_none_of_bind_cutAt hpoint hnone
        exact error_of_buildOperand hpoint hsplit
      · next lhs operator rhs hcut =>
        obtain ⟨i, rfl, hcut⟩ := Option.bind_eq_some_iff.1 hcut
        have hoperator : operator ∈ ts := by simp [eq_of_cutAt hcut]
        split at hsplit
        · obtain rfl := Except.error.inj hsplit
          exact .inl (.quoted hoperator rfl fun _ => Problem.noConfusion)
        · split at hsplit
          · obtain rfl := Except.error.inj hsplit
            exact .inl (.quoted hoperator rfl fun _ => Problem.noConfusion)
          · rcases bind_eq_error_iff.1 hsplit with hl | ⟨l, -, hrest⟩
            · exact .inr ⟨lhs, .left hpoint hcut, hl⟩
            · rcases bind_eq_error_iff.1 hrest with hr | ⟨r, -, hok⟩
              · exact .inr ⟨rhs, .right hpoint hcut, hr⟩
              · cases hok

/-- What the construction complains about is among its tokens. -/
theorem blames_of_build (h : Expression.build table ts = .error c) : Blames ts c := by
  induction hn : ts.length using Nat.strongRecOn generalizing ts with
  | ind n ih =>
    rw [build_eq] at h
    rcases error_of_buildStep h with hlevel | ⟨us, hus, h⟩
    · exact hlevel.blames
    · exact (ih us.length (hn ▸ hus.length_lt) h rfl).mono hus.sublist.subset

end Expression

end Frontend
