import Frontend.Proofs.Expression.Nesting

/-!
# Spelling

`Spells es ts` says that the tokens `ts` write out the expressions `es`, with commas between
them: operands, operators and parentheses as they stand in the trees. What an expression covers
does not matter; `Expr.unspanned` forgets it.

An expression has no comma outside parentheses, and an operand no operator, so the scans of the
construction pass over them (`Spells.nested`, `Spells.nested_operand`).
-/

namespace Frontend

namespace Expr

mutual

/-- The expression with all spans left out. -/
def unspanned : Expr → Expr
  | name n _ => name n .zero
  | number v _ => number v .zero
  | binary o x l r _ => binary o x (unspanned l) (unspanned r) .zero
  | group e _ => group (unspanned e) .zero
  | call f es _ => call f (unspannedAll es) .zero
  | sequence x es _ => sequence x (unspannedAll es) .zero

/-- The expressions with all spans left out. -/
def unspannedAll : List Expr → List Expr
  | [] => []
  | e :: es => unspanned e :: unspannedAll es

end

/-- The operator at the root of an expression. -/
def operator? : Expr → Option Nat
  | binary o _ _ _ _ => some o
  | _ => none

theorem unspannedAll_eq_map (es : List Expr) : unspannedAll es = es.map unspanned := by
  induction es with
  | nil => rfl
  | cons e es ih => rw [unspannedAll, ih, List.map_cons]

/-- The operator of an expression does not depend on its spans. -/
theorem operator?_unspanned (e : Expr) : e.unspanned.operator? = e.operator? := by
  cases e <;> rfl

end Expr

namespace Expression

/-- The tokens write out the expressions, with commas between them. -/
inductive Spells : List Expr → List Token → Prop
  | name {t : Token} {s : Span} : t.is .identifier → Spells [.name t.lexeme s] [t]
  | number {t : Token} {v : Int} {s : Span} : t.is .number → Number.read? t.lexeme = some v →
      Spells [.number v s] [t]
  | binary {l r : Expr} {t : Token} {ts us : List Token} {s : Span} :
      Spells [l] ts → isBinaryOperator t.id → Spells [r] us →
      Spells [.binary t.id t.lexeme l r s] (ts ++ t :: us)
  | group {e : Expr} {o c : Token} {ts : List Token} {s : Span} :
      o.is .openParen → Spells [e] ts → c.is .closeParen →
      Spells [.group e s] (o :: (ts ++ [c]))
  | emptyCall {f o c : Token} {s : Span} : f.is .identifier → o.is .openParen →
      c.is .closeParen → Spells [.call f.lexeme [] s] [f, o, c]
  | call {es : List Expr} {f o c : Token} {ts : List Token} {s : Span} :
      f.is .identifier → o.is .openParen → Spells es ts → c.is .closeParen →
      Spells [.call f.lexeme es s] (f :: o :: (ts ++ [c]))
  | comma {e : Expr} {es : List Expr} {t : Token} {ts us : List Token} :
      Spells [e] ts → t.is .comma → Spells es us → Spells (e :: es) (ts ++ t :: us)

variable {es : List Expr} {e : Expr} {ts : List Token} {t : Token}

theorem Spells.exprs_ne_nil (h : Spells es ts) : es ≠ [] := by
  cases h <;> exact List.cons_ne_nil _ _

theorem Spells.tokens_ne_nil (h : Spells es ts) : ts ≠ [] := by
  cases h <;> simp

/-- An operator with its operands is spelled by their tokens, with its own token between them. -/
theorem Spells.binary_inv {o : Nat} {x : String} {l r : Expr} {s : Span}
    (h : Spells [.binary o x l r s] ts) :
    ∃ ts₁ t ts₂, ts = ts₁ ++ t :: ts₂ ∧ t.id = o ∧ t.lexeme = x ∧ Spells [l] ts₁ ∧
      Spells [r] ts₂ := by
  cases h with
  | binary hl _ hr => exact ⟨_, _, _, rfl, rfl, rfl, hl, hr⟩
  | comma _ _ hes => exact absurd rfl hes.exprs_ne_nil

/-! ## Tokens outside parentheses -/

/-- An operator is not of a kind that is none. -/
theorem not_is_of_isBinaryOperator {k : Kind} (h : isBinaryOperator t.id)
    (hk : ¬isBinaryOperator k.id) : ¬t.is k := by
  intro ht
  rw [Token.is_iff.1 ht] at h
  exact hk h

/-- There is a comma outside parentheses only between two expressions. -/
theorem Spells.nested (h : Spells es ts) : Nested (fun t => t.is .comma → 2 ≤ es.length) ts := by
  induction h with
  | name ht =>
    exact .kind ht (by decide) (by decide) (fun h => absurd h (Token.not_is ht (by decide))) .nil
  | number ht _ =>
    exact .kind ht (by decide) (by decide) (fun h => absurd h (Token.not_is ht (by decide))) .nil
  | binary _ ht _ ihl ihr =>
    refine ihl.append (.token ?_ ?_ (fun h => absurd h ?_) ihr)
    · exact not_is_of_isBinaryOperator ht (by decide)
    · exact not_is_of_isBinaryOperator ht (by decide)
    · exact not_is_of_isBinaryOperator ht (by decide)
  | group ho _ hc ih => exact .group ho (ih.mono fun _ _ => trivial) hc .nil
  | emptyCall hf ho hc =>
    refine .kind hf (by decide) (by decide) (fun h => absurd h (Token.not_is hf (by decide))) ?_
    exact .group ho .nil hc .nil
  | call hf ho _ hc ih =>
    refine .kind hf (by decide) (by decide) (fun h => absurd h (Token.not_is hf (by decide))) ?_
    exact .group ho (ih.mono fun _ _ => trivial) hc .nil
  | comma _ ht hes ih ihes =>
    have hlen := List.length_pos_iff.2 hes.exprs_ne_nil
    refine (ih.mono fun t h h' => nomatch h h').append
      (.kind ht (by decide) (by decide) (fun _ => ?_) (ihes.mono fun t h h' => ?_))
    · rw [List.length_cons]
      omega
    · exact Nat.le_succ_of_le (h h')

/-- An expression has no comma outside parentheses. -/
theorem Spells.nested_comma (h : Spells [e] ts) : Nested (fun t => ¬t.is .comma) ts :=
  h.nested.mono fun _ ht hcomma => nomatch ht hcomma

/-- An operand has no operator outside parentheses. -/
theorem Spells.nested_operand (h : Spells [e] ts) (he : e.operator? = none) :
    Nested (fun t => ¬isBinaryOperator t.id) ts := by
  have hother {t : Token} {k : Kind} (ht : t.is k) (hk : ¬isBinaryOperator k.id) :
      ¬isBinaryOperator t.id := by
    rwa [Token.is_iff.1 ht]
  cases h with
  | name ht => exact .kind ht (by decide) (by decide) (hother ht (by decide)) .nil
  | number ht _ => exact .kind ht (by decide) (by decide) (hother ht (by decide)) .nil
  | binary _ _ _ => exact nomatch he
  | group ho hinner hc => exact .group ho (hinner.nested.mono fun _ _ => trivial) hc .nil
  | emptyCall hf ho hc =>
    refine .kind hf (by decide) (by decide) (hother hf (by decide)) ?_
    exact .group ho .nil hc .nil
  | call hf ho hargs hc =>
    refine .kind hf (by decide) (by decide) (hother hf (by decide)) ?_
    exact .group ho (hargs.nested.mono fun _ _ => trivial) hc .nil
  | comma _ _ hes => exact absurd rfl hes.exprs_ne_nil

end Expression

end Frontend
