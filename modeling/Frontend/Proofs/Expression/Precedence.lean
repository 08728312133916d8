import Frontend.Proofs.Expression.Built
import Frontend.Proofs.Expression.Chain

/-!
# Precedence and associativity

What is built is canonical (`Built.canonical`): the operator that a run is split at is one that
binds least, so the operators of both sides may stand where they are. This holds of every
expression inside another one, in groups and arguments, too (`Expr.Within`).

So a chain of operators of one precedence that all group to the left makes a tree that goes down
on the left only, and one of operators that group to the right a tree that goes down on the
right only (`Canonical.leftDeep`, `Canonical.rightDeep`).
-/

namespace Frontend

namespace Expr

/-- The first expression is the second one or stands somewhere in it. -/
inductive Within (d : Expr) : Expr → Prop
  | refl : Within d d
  | left {o : Nat} {x : String} {l r : Expr} {s : Span} :
      Within d l → Within d (.binary o x l r s)
  | right {o : Nat} {x : String} {l r : Expr} {s : Span} :
      Within d r → Within d (.binary o x l r s)
  | inner {e : Expr} {s : Span} : Within d e → Within d (.group e s)
  | argument {f : String} {e : Expr} {es : List Expr} {s : Span} :
      e ∈ es → Within d e → Within d (.call f es s)
  | element {x : String} {e : Expr} {es : List Expr} {s : Span} :
      e ∈ es → Within d e → Within d (.sequence x es s)

/-- The operators of an expression outside parentheses, from left to right. -/
def chain : Expr → List Nat
  | binary o _ l r _ => l.chain ++ o :: r.chain
  | _ => []

/-- No right operand outside parentheses is an operator with its operands. -/
def LeftDeep : Expr → Prop
  | binary _ _ l r _ => l.LeftDeep ∧ r.operator? = none
  | _ => True

/-- No left operand outside parentheses is an operator with its operands. -/
def RightDeep : Expr → Prop
  | binary _ _ l r _ => l.operator? = none ∧ r.RightDeep
  | _ => True

theorem mem_chain {e : Expr} {o : Nat} (h : o ∈ e.operator?) : o ∈ e.chain := by
  cases e with
  | binary o' x l r s =>
    obtain rfl := Option.some.inj h
    simp [chain]
  | _ => exact nomatch h

end Expr

namespace Expression

variable {table : OperatorTable} {es : List Expr} {d e : Expr} {ts : List Token} {p : Int}

/-- The operators of a canonical tree form a chain, in which there is the one at its root. -/
theorem Canonical.exists_chain (hc : Canonical table e) (h : Spells [e] ts) (i : Nat) :
    ∃ ops, Chain table i ops ts ∧ ∀ o ∈ e.operator?, ∃ op ∈ ops, table.get? o = some op.2 := by
  induction hc generalizing ts i with
  | name => exact ⟨[], .operand (h.nested_operand rfl), nofun⟩
  | number => exact ⟨[], .operand (h.nested_operand rfl), nofun⟩
  | group _ _ => exact ⟨[], .operand (h.nested_operand rfl), nofun⟩
  | call _ _ => exact ⟨[], .operand (h.nested_operand rfl), nofun⟩
  | @binary o x l r s b ho hb _ _ _ _ ihl ihr =>
    obtain ⟨ts₁, t, ts₂, rfl, rfl, -, hts₁, hts₂⟩ := h.binary_inv
    obtain ⟨ls, hls, -⟩ := ihl hts₁ i
    obtain ⟨rs, hrs, -⟩ := ihr hts₂ (i + ts₁.length + 1)
    refine ⟨_, hls.append ho hb hrs, fun o' ho' => ⟨(i + ts₁.length, b), by simp, ?_⟩⟩
    obtain rfl := Option.some.inj ho'
    exact hb

/-- Every operator in what is built stands where the table puts it. -/
theorem Built.canonical (h : Built table es ts) : ∀ e ∈ es, Canonical table e := by
  have hone {P : Expr → Prop} {e : Expr} (he : P e) : ∀ e' ∈ [e], P e' :=
    fun e' he' => List.mem_singleton.1 he' ▸ he
  induction h with
  | name => exact hone .name
  | number => exact hone .number
  | @binary l r t ts us hsplit hl hr ihl ihr =>
    obtain ⟨ht, b, hb⟩ := operator_of_splitPoint hsplit
    have hcl := ihl l (List.mem_singleton_self l)
    have hcr := ihr r (List.mem_singleton_self r)
    obtain ⟨ls, hls, hlroot⟩ := hcl.exists_chain hl.spells 0
    obtain ⟨rs, hrs, hrroot⟩ := hcr.exists_chain hr.spells (ts.length + 1)
    obtain ⟨hleft, hright⟩ := bindings_of_splitPoint hls ht hb hrs hsplit
    refine hone (.binary ht hb hcl (fun o ho => ?_) hcr fun o ho => ?_)
    · obtain ⟨op, hop, hget⟩ := hlroot o ho
      exact ⟨op.2, hget, hleft op hop⟩
    · obtain ⟨op, hop, hget⟩ := hrroot o ho
      exact ⟨op.2, hget, hright op hop⟩
  | group _ _ _ ih => exact hone (.group (ih _ (List.mem_singleton_self _)))
  | emptyCall => exact hone (.call fun e he => absurd he List.not_mem_nil)
  | call _ _ _ _ ih => exact hone (.call ih)
  | comma _ _ _ ih ihes => exact List.forall_mem_cons.2 ⟨ih _ (List.mem_singleton_self _), ihes⟩

/-- What stands in a canonical tree is canonical. -/
theorem Canonical.within (hc : Canonical table e) (h : d.Within e) : Canonical table d := by
  induction h with
  | refl => exact hc
  | left _ ih =>
    cases hc with
    | binary _ _ hl _ _ _ => exact ih hl
  | right _ ih =>
    cases hc with
    | binary _ _ _ _ hr _ => exact ih hr
  | inner _ ih =>
    cases hc with
    | group he => exact ih he
  | argument hmem _ ih =>
    cases hc with
    | call hes => exact ih (hes _ hmem)
  | element => exact nomatch hc

/-- A chain of operators of one precedence that all group to the left goes down on the left. -/
theorem Canonical.leftDeep (hc : Canonical table e)
    (h : ∀ o ∈ e.chain, table.get? o = some ⟨p, .left⟩) : e.LeftDeep := by
  induction hc with
  | @binary o x l r s b ho hb _ _ _ hright ihl _ =>
    simp only [Expr.chain, List.forall_mem_append, List.forall_mem_cons] at h
    obtain ⟨hl, hroot, hr⟩ := h
    obtain rfl := Option.some.inj (hb.symm.trans hroot)
    refine ⟨ihl hl, Option.eq_none_iff_forall_not_mem.2 fun o' ho' => ?_⟩
    -- An operator on the right would bind tighter, or group to the right.
    obtain ⟨b', hb', hfits⟩ := hright o' ho'
    obtain rfl := Option.some.inj (hb'.symm.trans (hr o' (Expr.mem_chain ho')))
    simp at hfits
  | _ => trivial

/-- A chain of operators of one precedence that all group to the right goes down on the right. -/
theorem Canonical.rightDeep (hc : Canonical table e)
    (h : ∀ o ∈ e.chain, table.get? o = some ⟨p, .right⟩) : e.RightDeep := by
  induction hc with
  | @binary o x l r s b ho hb _ hleft _ _ _ ihr =>
    simp only [Expr.chain, List.forall_mem_append, List.forall_mem_cons] at h
    obtain ⟨hl, hroot, hr⟩ := h
    obtain rfl := Option.some.inj (hb.symm.trans hroot)
    refine ⟨Option.eq_none_iff_forall_not_mem.2 fun o' ho' => ?_, ihr hr⟩
    -- An operator on the left would bind tighter, or stand before one that groups to the left.
    obtain ⟨b', hb', hfits⟩ := hleft o' ho'
    obtain rfl := Option.some.inj (hb'.symm.trans (hl o' (Expr.mem_chain ho')))
    simp at hfits
  | _ => trivial

/-- Wherever an operator with its operands stands in what is built, the table has an entry for it,
    and the operators of its operands may stand beside it. So a chain of operators of one
    precedence that all group to the same side goes down on that side only. -/
theorem build_respects_bindings (table : OperatorTable) (ts : List Token) (e : Expr)
    (h : build table ts = .ok e) :
    (∀ o x l r s, (Expr.binary o x l r s).Within e →
      ∃ b, table.get? o = some b ∧ FitsLeft table b l ∧ FitsRight table b.precedence r) ∧
    ∀ d : Expr, d.Within e → ∀ p,
      ((∀ o ∈ d.chain, table.get? o = some ⟨p, .left⟩) → d.LeftDeep) ∧
      ((∀ o ∈ d.chain, table.get? o = some ⟨p, .right⟩) → d.RightDeep) := by
  have hc := (built_of_build h).canonical e (List.mem_singleton_self e)
  refine ⟨fun o x l r s hd => ?_, fun d hd p => ?_⟩
  · cases hc.within hd with
    | binary _ hb _ hleft _ hright => exact ⟨_, hb, hleft, hright⟩
  · exact ⟨(hc.within hd).leftDeep, (hc.within hd).rightDeep⟩

/-- In `a - b + (c = d = e)`, a chain that groups to the left holds one that groups to the
    right. -/
theorem build_respects_bindings_mixed :
    let token (k : Kind) (lexeme : String) : Token := ⟨k.id, lexeme, .zero, .nowhere⟩
    let name (n : String) : Expr := .name n .zero
    let right : Expr := .binary Kind.assign.id "=" (name "d") (name "e") .zero
    let inner : Expr := .binary Kind.assign.id "=" (name "c") right .zero
    let left : Expr := .binary Kind.sub.id "-" (name "a") (name "b") .zero
    let tree : Expr := .binary Kind.add.id "+" left (.group inner .zero) .zero
    let tokens := [token .identifier "a", token .sub "-", token .identifier "b", token .add "+",
      token .openParen "(", token .identifier "c", token .assign "=", token .identifier "d",
      token .assign "=", token .identifier "e", token .closeParen ")"]
    build .standard tokens = .ok tree ∧ tree.LeftDeep ∧ inner.Within tree ∧ inner.RightDeep := by
  intro token name right inner left tree tokens
  have hbuild : build .standard tokens = .ok tree := rfl
  have hinner : inner.Within tree := .right (.inner .refl)
  obtain ⟨-, hdeep⟩ := build_respects_bindings .standard tokens tree hbuild
  refine ⟨hbuild, (hdeep tree .refl 7).1 ?_, hinner, (hdeep inner hinner 1).2 ?_⟩
  · decide
  · decide

end Expression

end Frontend
