import Frontend.Proofs.Except
import Frontend.Proofs.Expression.Canonical

/-!
# What is built

`Built table es ts` says how the expressions `es` come about from the tokens `ts`, with commas
between them: an operator is what the run around it is split at, a group and a call are what
their parentheses enclose. It is all that the construction can do (`built_of_build`), so what
holds of built expressions is proved by induction on it, and the scans of the construction need
not be looked at again.

First of all, an expression is spelled by the tokens it is built from (`Built.spells`). So the
scans find the parts that it is built from, and the construction does all of this
(`build_eq_ok_iff`).
-/

namespace Frontend.Expression

variable {table : OperatorTable} {build : List Token → Except Complaint Expr} {es : List Expr}
  {e : Expr} {ts us inner rest : List Token} {t c : Token} {d i : Nat}

/-- The expressions are built from the tokens between the commas. -/
inductive Built (table : OperatorTable) : List Expr → List Token → Prop
  | name {t : Token} : t.is .identifier → Built table [.name t.lexeme t.span] [t]
  | number {t : Token} {v : Int} : t.is .number → Number.read? t.lexeme = some v →
      Built table [.number v t.span] [t]
  | binary {l r : Expr} {t : Token} {ts us : List Token} :
      table.splitPoint (ts ++ t :: us) = .ok (some ts.length) → Built table [l] ts →
      Built table [r] us →
      Built table [.binary t.id t.lexeme l r (l.span.join r.span)] (ts ++ t :: us)
  | group {e : Expr} {o c : Token} {ts : List Token} :
      o.is .openParen → Built table [e] ts → c.is .closeParen →
      Built table [.group e (o.span.join c.span)] (o :: (ts ++ [c]))
  | emptyCall {f o c : Token} : f.is .identifier → o.is .openParen → c.is .closeParen →
      Built table [.call f.lexeme [] (f.span.join c.span)] [f, o, c]
  | call {es : List Expr} {f o c : Token} {ts : List Token} :
      f.is .identifier → o.is .openParen → Built table es ts → c.is .closeParen →
      Built table [.call f.lexeme es (f.span.join c.span)] (f :: o :: (ts ++ [c]))
  | comma {e : Expr} {es : List Expr} {t : Token} {ts us : List Token} :
      Built table [e] ts → t.is .comma → Built table es us →
      Built table (e :: es) (ts ++ t :: us)

/-! ## Where a run is cut -/

theorem length_of_cutAt (h : cutAt ts i = some (inner, t, rest)) : inner.length = i := by
  unfold cutAt at h
  split at h
  · next heq =>
    simp only [Option.some.injEq, Prod.mk.injEq] at h
    obtain ⟨rfl, rfl, rfl⟩ := h
    have hlen := congrArg List.length heq
    rw [List.length_drop, List.length_cons] at hlen
    rw [List.length_take]
    omega
  · exact nomatch h

/-- A run is cut into parts: each part but the last is followed by its comma. -/
inductive Cut : List Token → List (List Token × Option Token) → Prop
  | last (ts : List Token) : Cut ts [(ts, none)]
  | comma {t : Token} {ts us : List Token} {parts : List (List Token × Option Token)} :
      t.is .comma → Cut us parts → Cut (ts ++ t :: us) ((ts, some t) :: parts)

/-- The parts between commas are a cut of the run. -/
theorem cut_cutAtCommas (d : Nat) (ts : List Token) : Cut ts (cutAtCommas d ts) := by
  induction ts generalizing d with
  | nil => exact .last []
  | cons t ts ih =>
    rw [cutAtCommas]
    split
    · next hcomma =>
      exact (.comma (Bool.and_eq_true_iff.1 hcomma).1 (ih 0) : Cut ([] ++ t :: ts) _)
    · -- The token goes to the first part, whatever its depth.
      have hcut := ih (depthAfter d t)
      generalize cutAtCommas (depthAfter d t) ts = parts at hcut
      cases hcut with
      | last => exact .last (t :: ts)
      | @comma t' part us parts hcomma hparts =>
        exact (.comma hcomma hparts : Cut ((t :: part) ++ t' :: us) _)

/-! ## One level -/

/-- Arguments are built if no part is empty and each of them is built. -/
theorem buildArguments_eq_ok_iff {last : Token} {parts : List (List Token × Option Token)} :
    buildArguments build last parts = .ok es ↔
      List.Forall₂ (fun part e => part.1 ≠ [] ∧ build part.1 = .ok e) parts es := by
  induction parts generalizing es with
  | nil => cases es <;> simp [buildArguments]
  | cons part parts ih =>
    obtain ⟨_ | ⟨t, ts⟩, comma⟩ := part
    · cases es <;> simp [buildArguments]
    · rw [buildArguments]
      cases hb : build (t :: ts) with
      | error c => cases es <;> simp [hb, bind, Except.bind]
      | ok e =>
        cases ha : buildArguments build last parts with
        | error c => cases es <;> simp [hb, ← ih, ha, bind, Except.bind]
        | ok es' => cases es <;> simp [hb, ← ih, ha, bind, Except.bind, pure, Except.pure]

/-- If each part is built from its tokens, the arguments are built from the run. -/
theorem built_of_buildArguments {parts : List (List Token × Option Token)} (hcut : Cut us parts)
    (hbuild : ∀ part ∈ parts, ∀ e, build part.1 = .ok e → Built table [e] part.1)
    (h : List.Forall₂ (fun part e => part.1 ≠ [] ∧ build part.1 = .ok e) parts es) :
    Built table es us := by
  induction hcut generalizing es with
  | last us =>
    obtain ⟨e, _, ⟨-, he⟩, hnil, rfl⟩ := List.forall₂_cons_left_iff.1 h
    obtain rfl := List.forall₂_nil_left_iff.1 hnil
    exact hbuild _ List.mem_cons_self e he
  | comma ht _ ih =>
    obtain ⟨e, es, ⟨-, he⟩, hes, rfl⟩ := List.forall₂_cons_left_iff.1 h
    obtain ⟨hfirst, hrest⟩ := List.forall_mem_cons.1 hbuild
    exact .comma (hfirst e he) ht (ih hrest hes)

section

variable {point : Option Nat}
  (hbuild : ∀ us e, Piece table ts us → build us = .ok e → Built table [e] us)
include hbuild

/-- A call that the parser of primaries finds is built from its tokens. -/
theorem built_of_buildCall {f o : Token} (hpoint : table.splitPoint ts = .ok point)
    (hf : f.is .identifier) (ho : o.is .openParen) (hts : ts = f :: o :: us)
    (h : buildCall build f o us = .ok e) : Built table [e] ts := by
  unfold buildCall at h
  split at h
  · exact nomatch h
  · exact nomatch h
  · next inner c heq =>
    obtain ⟨hus, hc, -⟩ := cutAtClose_eq_some_iff.1 heq
    cases hlast : inner.getLast? with
    | none =>
      obtain rfl := List.getLast?_eq_none_iff.1 hlast
      obtain rfl := Except.ok.inj h
      rw [hts, hus]
      exact .emptyCall hf ho hc
    | some last =>
      rw [hlast] at h
      obtain ⟨es, hes, h⟩ := bind_eq_ok_iff.1 h
      obtain rfl := Except.ok.inj h
      have hargs : Built table es inner :=
        built_of_buildArguments (cut_cutAtCommas 0 inner)
          (fun _ hpart e => hbuild _ e (.argument hpoint hts heq hpart))
          (buildArguments_eq_ok_iff.1 hes)
      rw [hts, hus]
      exact .call hf ho hargs hc

theorem built_of_buildPrimary (hpoint : table.splitPoint ts = .ok point)
    (h : buildPrimary build ts = .ok e) : Built table [e] ts := by
  unfold buildPrimary at h
  split at h
  · exact nomatch h
  · next t =>
    split at h
    · next ht =>
      obtain rfl := Except.ok.inj h
      exact .name ht
    · split at h
      · next ht =>
        split at h
        · next v hv =>
          obtain rfl := Except.ok.inj h
          exact .number ht hv
        · exact nomatch h
      · exact nomatch h
  · split at h
    · next hcall =>
      obtain ⟨hf, ho⟩ := Bool.and_eq_true_iff.1 hcall
      exact built_of_buildCall hbuild hpoint hf ho rfl h
    · exact nomatch h

theorem built_of_buildOperand (hpoint : table.splitPoint ts = .ok point)
    (h : buildOperand build ts = .ok e) : Built table [e] ts := by
  unfold buildOperand at h
  split at h
  · next opening inner c hhead hinside =>
    obtain ⟨o, rfl, ho, hcut⟩ := groupInside?_eq_some hinside
    obtain ⟨-, hc, -⟩ := cutAtClose_eq_some_iff.1 hcut
    obtain rfl := Option.some.inj hhead
    split at h
    · exact nomatch h
    · obtain ⟨e, he, h⟩ := bind_eq_ok_iff.1 h
      obtain rfl := Except.ok.inj h
      exact .group ho (hbuild _ _ (.inside hpoint hinside) he) hc
  · exact built_of_buildPrimary hbuild hpoint h

theorem built_of_buildStep (h : buildStep table build ts = .ok e) : Built table [e] ts := by
  unfold buildStep at h
  split at h
  · exact nomatch h
  · obtain ⟨point, hpoint, hsplit⟩ := bind_eq_ok_iff.1 h
    split at hsplit
    · exact built_of_buildOperand hbuild hpoint hsplit
    · next lhs operator rhs hcut =>
      obtain ⟨i, rfl, hcut⟩ := Option.bind_eq_some_iff.1 hcut
      split at hsplit
      · exact nomatch hsplit
      · split at hsplit
        · exact nomatch hsplit
        · obtain ⟨l, hl, hsplit⟩ := bind_eq_ok_iff.1 hsplit
          obtain ⟨r, hr, hsplit⟩ := bind_eq_ok_iff.1 hsplit
          obtain rfl := Except.ok.inj hsplit
          have hlhs := hbuild _ _ (.left hpoint hcut) hl
          have hrhs := hbuild _ _ (.right hpoint hcut) hr
          obtain rfl := eq_of_cutAt hcut
          obtain rfl := length_of_cutAt hcut
          exact .binary hpoint hlhs hrhs

end

/-- What the construction makes of some tokens is built from them. -/
theorem built_of_build (h : Expression.build table ts = .ok e) : Built table [e] ts := by
  induction hn : ts.length using Nat.strongRecOn generalizing ts e with
  | ind n ih =>
    rw [build_eq] at h
    exact built_of_buildStep
      (fun us e hus he => ih us.length (hn ▸ hus.length_lt) he rfl) h

/-! ## The tokens of what is built -/

section

variable {opened : List Token} {best : Option (Nat × Int)} {k : Nat}

/-- One step of a scan that succeeds: the token is passed over, or it is an operator in the table
    and the best split point so far. -/
theorem scanSplit_step (h : table.scanSplit i opened best (t :: ts) = .ok (some k)) :
    ∃ opened' best', table.scanSplit (i + 1) opened' best' ts = .ok (some k) ∧
      (best' = best ∨ isBinaryOperator t.id ∧
        ∃ b, table.get? t.id = some b ∧ best' = some (i, b.precedence)) := by
  rw [OperatorTable.scanSplit.eq_def] at h
  dsimp only at h
  split at h
  · exact ⟨_, _, h, .inl rfl⟩
  · split at h
    · split at h
      · cases h
      · exact ⟨_, _, h, .inl rfl⟩
    · split at h
      · exact ⟨_, _, h, .inl rfl⟩
      · next hskip =>
        split at h
        · cases h
        · next b hb =>
          rw [Bool.or_eq_true, not_or] at hskip
          have ht : isBinaryOperator t.id := by simpa using hskip.2
          refine ⟨_, _, h, ?_⟩
          split
          · exact .inr ⟨ht, b, hb, rfl⟩
          · exact .inl rfl

/-- The split point is an operator in the table. -/
theorem operator_of_scanSplit (h : table.scanSplit i opened best ts = .ok (some k)) :
    best.map Prod.fst = some k ∨ ∃ us t vs b, ts = us ++ t :: vs ∧ k = i + us.length ∧
      isBinaryOperator t.id ∧ table.get? t.id = some b := by
  induction ts generalizing i opened best with
  | nil =>
    rw [OperatorTable.scanSplit] at h
    split at h
    · cases h
    · exact .inl (Except.ok.inj h)
  | cons t ts ih =>
    obtain ⟨opened', best', h, hbest⟩ := scanSplit_step h
    rcases ih h with hk | ⟨us, t', vs, b, rfl, rfl, ht, hb⟩
    · rcases hbest with rfl | ⟨ht, b, hb, rfl⟩
      · exact .inl hk
      · obtain rfl := Option.some.inj hk
        exact .inr ⟨[], t, ts, b, rfl, rfl, ht, hb⟩
    · refine .inr ⟨t :: us, t', vs, b, rfl, ?_, ht, hb⟩
      rw [List.length_cons]
      omega

/-- A run is split at a binary operator of the table. -/
theorem operator_of_splitPoint (h : table.splitPoint (ts ++ t :: us) = .ok (some ts.length)) :
    isBinaryOperator t.id ∧ ∃ b, table.get? t.id = some b := by
  rcases operator_of_scanSplit h with hk | ⟨us', t', vs, b, heq, hlen, ht, hb⟩
  · exact nomatch hk
  · rw [Nat.zero_add] at hlen
    obtain ⟨-, heq⟩ := List.append_inj heq hlen
    obtain ⟨rfl, -⟩ := List.cons.inj heq
    exact ⟨ht, b, hb⟩

end

theorem Built.exprs_ne_nil (h : Built table es ts) : es ≠ [] := by
  cases h <;> exact List.cons_ne_nil _ _

/-- What is built is spelled by the tokens that it is built from. -/
theorem Built.spells (h : Built table es ts) : Spells es ts := by
  induction h with
  | name ht => exact .name ht
  | number ht hv => exact .number ht hv
  | binary hsplit _ _ ihl ihr => exact .binary ihl (operator_of_splitPoint hsplit).1 ihr
  | group ho _ hc ih => exact .group ho ih hc
  | emptyCall hf ho hc => exact .emptyCall hf ho hc
  | call hf ho _ hc ih => exact .call hf ho ih hc
  | comma _ ht _ ih ihes => exact .comma ih ht ihes

/-! ## Everything of this form is built -/

/-- The tokens of one expression are one part. -/
theorem forall₂_cutAtCommas_iff (h : Spells [e] ts) :
    List.Forall₂ (fun part e => part.1 ≠ [] ∧ Expression.build table part.1 = .ok e)
      (cutAtCommas 0 ts) [e] ↔ Expression.build table ts = .ok e := by
  rw [cutAtCommas_of_nested h.nested_comma fun _ ht => ht, List.forall₂_cons]
  simp [h.tokens_ne_nil]

/-- The parts between the commas are built one by one. -/
theorem Built.forall₂_build (h : Built table es ts) :
    List.Forall₂ (fun part e => part.1 ≠ [] ∧ Expression.build table part.1 = .ok e)
      (cutAtCommas 0 ts) es := by
  induction h with
  | @name t ht =>
    have hspells : Spells [.name t.lexeme t.span] [t] := .name ht
    rw [forall₂_cutAtCommas_iff hspells, build_operand hspells rfl,
      buildOperand_primary (Token.not_is ht (by decide)), buildPrimary, if_pos ht, Expr.ofName]
  | @number t v ht hv =>
    have hspells : Spells [.number v t.span] [t] := .number ht hv
    rw [forall₂_cutAtCommas_iff hspells, build_operand hspells rfl,
      buildOperand_primary (Token.not_is ht (by decide)), buildPrimary,
      if_neg (Token.not_is ht (by decide)), if_pos ht, hv]
  | @binary l r t ts us hsplit hl hr ihl ihr =>
    rw [forall₂_cutAtCommas_iff hl.spells] at ihl
    rw [forall₂_cutAtCommas_iff hr.spells] at ihr
    rw [forall₂_cutAtCommas_iff (Built.binary hsplit hl hr).spells]
    exact build_of_split hsplit hl.spells.tokens_ne_nil hr.spells.tokens_ne_nil ihl ihr
  | group ho he hc ih =>
    rw [forall₂_cutAtCommas_iff he.spells] at ih
    have hspells := (Built.group ho he hc).spells
    rw [forall₂_cutAtCommas_iff hspells, build_operand hspells rfl]
    exact buildOperand_group ho he.spells.nested he.spells.tokens_ne_nil hc ih
  | @emptyCall f o c hf ho hc =>
    have hspells : Spells [.call f.lexeme [] (f.span.join c.span)] [f, o, c] :=
      .emptyCall hf ho hc
    have hnil : Nested (fun _ => True) [] := .nil
    rw [forall₂_cutAtCommas_iff hspells, build_operand hspells rfl,
      buildOperand_primary (Token.not_is hf (by decide))]
    refine buildPrimary_call hf ho hnil hc (fun _ => rfl) fun last hlast => ?_
    exact absurd hlast (Option.not_mem_none last)
  | call hf ho hes hc ih =>
    have hspells := (Built.call hf ho hes hc).spells
    rw [forall₂_cutAtCommas_iff hspells, build_operand hspells rfl,
      buildOperand_primary (Token.not_is hf (by decide))]
    refine buildPrimary_call hf ho hes.spells.nested hc ?_ fun last _ =>
      buildArguments_eq_ok_iff.2 ih
    exact fun hnil => absurd hnil hes.spells.tokens_ne_nil
  | comma he ht _ ih ihes =>
    rw [forall₂_cutAtCommas_iff he.spells] at ih
    rw [cutAtCommas_of_nested_comma he.spells.nested_comma (fun _ ht => ht) ht]
    exact .cons ⟨he.spells.tokens_ne_nil, ih⟩ ihes

/-- An expression is built from a run of tokens exactly if it comes about from it. -/
theorem build_eq_ok_iff : Expression.build table ts = .ok e ↔ Built table [e] ts := by
  refine ⟨built_of_build, fun h => ?_⟩
  exact (forall₂_cutAtCommas_iff h.spells).1 h.forall₂_build

end Frontend.Expression
