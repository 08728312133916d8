import Frontend.Proofs.Expression.Built
import Frontend.Proofs.Expression.Chain

/-!
# The language of expressions

`Sentence` is a grammar of expressions that knows nothing of precedence: operands with operators
between them, where the operators are those in the table. The construction succeeds exactly for
its sentences (`build_language`), so which runs of tokens are expressions does not depend on how
the operators bind.

A sentence may be split at any of its operators, and both sides are sentences again
(`Sentence.exists_chain`); so the choice of the split point does not matter. On the other hand,
two sentences with an operator between them are one (`Sentence.append`), so whatever is built
comes from a sentence (`Built.sentence`).
-/

namespace Frontend

/-- The table has an entry for a binary operator. -/
def OperatorTable.Knows (table : OperatorTable) (id : Nat) : Prop :=
  isBinaryOperator id ∧ ∃ b, table.get? id = some b

namespace Expression

/-- The categories of the grammar of expressions. -/
inductive Form where
  | expression
  | operand
  | arguments

/-- The sentences of the grammar of expressions, with the given operators. -/
inductive Sentence (known : Nat → Prop) : Form → List Token → Prop
  | operand {ts : List Token} : Sentence known .operand ts → Sentence known .expression ts
  | operator {t : Token} {ts us : List Token} : Sentence known .operand ts → known t.id →
      Sentence known .expression us → Sentence known .expression (ts ++ t :: us)
  | name {t : Token} : t.is .identifier → Sentence known .operand [t]
  | number {t : Token} {v : Int} : t.is .number → Number.read? t.lexeme = some v →
      Sentence known .operand [t]
  | group {o c : Token} {ts : List Token} : o.is .openParen → Sentence known .expression ts →
      c.is .closeParen → Sentence known .operand (o :: (ts ++ [c]))
  | emptyCall {f o c : Token} : f.is .identifier → o.is .openParen → c.is .closeParen →
      Sentence known .operand [f, o, c]
  | call {f o c : Token} {ts : List Token} : f.is .identifier → o.is .openParen →
      Sentence known .arguments ts → c.is .closeParen →
      Sentence known .operand (f :: o :: (ts ++ [c]))
  | argument {ts : List Token} : Sentence known .expression ts → Sentence known .arguments ts
  | comma {t : Token} {ts us : List Token} : Sentence known .expression ts → t.is .comma →
      Sentence known .arguments us → Sentence known .arguments (ts ++ t :: us)

variable {table : OperatorTable} {known : Nat → Prop} {form : Form} {es : List Expr} {e : Expr}
  {ts us : List Token} {t : Token}

/-! ## What is built comes from a sentence -/

/-- Two expressions with an operator between them are one, wherever the first one ends. -/
theorem Sentence.append (h : Sentence known .expression ts) (ht : known t.id)
    (h' : Sentence known .expression us) : Sentence known .expression (ts ++ t :: us) := by
  generalize hform : Form.expression = form at h
  induction h with
  | operand hts => exact .operator hts ht h'
  | operator hts ht' _ _ ih =>
    rw [List.append_assoc]
    exact .operator hts ht' (ih hform)
  | _ => exact nomatch hform

/-- What is built is built from a sentence. -/
theorem Built.sentence (h : Built table es ts) :
    (es.length = 1 → Sentence table.Knows .expression ts) ∧
      Sentence table.Knows .arguments ts := by
  have hone {ts : List Token} (hts : Sentence table.Knows .expression ts) {P : Prop} :
      (P → Sentence table.Knows .expression ts) ∧ Sentence table.Knows .arguments ts :=
    ⟨fun _ => hts, .argument hts⟩
  induction h with
  | name ht => exact hone (.operand (.name ht))
  | number ht hv => exact hone (.operand (.number ht hv))
  | binary hsplit _ _ ihl ihr =>
    exact hone ((ihl.1 rfl).append (operator_of_splitPoint hsplit) (ihr.1 rfl))
  | group ho _ hc ih => exact hone (.operand (.group ho (ih.1 rfl) hc))
  | emptyCall hf ho hc => exact hone (.operand (.emptyCall hf ho hc))
  | call hf ho _ hc ih => exact hone (.operand (.call hf ho ih.2 hc))
  | comma _ ht hes ih ihes =>
    refine ⟨fun hlen => ?_, .comma (ih.1 rfl) ht ihes.2⟩
    exact absurd (List.length_eq_zero_iff.1 (Nat.succ.inj hlen)) hes.exprs_ne_nil

/-! ## Sentences are built -/

/-- The tokens spell something of the form. -/
def Form.Spelled : Form → List Token → Prop
  | expression, ts => ∃ e, Spells [e] ts
  | operand, ts => ∃ e, e.operator? = none ∧ Spells [e] ts
  | arguments, ts => ∃ es, Spells es ts

namespace Sentence

/-- A sentence spells something of its form. -/
theorem spelled (h : Sentence table.Knows form ts) : form.Spelled ts := by
  induction h with
  | operand _ ih =>
    obtain ⟨e, -, he⟩ := ih
    exact ⟨e, he⟩
  | @operator t _ _ _ ht _ ihl ihr =>
    obtain ⟨l, -, hl⟩ := ihl
    obtain ⟨r, hr⟩ := ihr
    exact ⟨.binary t.id t.lexeme l r .zero, .binary hl ht.1 hr⟩
  | @name t ht => exact ⟨.name t.lexeme .zero, rfl, .name ht⟩
  | @number t v ht hv => exact ⟨.number v .zero, rfl, .number ht hv⟩
  | group ho _ hc ih =>
    obtain ⟨e, he⟩ := ih
    exact ⟨.group e .zero, rfl, .group ho he hc⟩
  | @emptyCall f _ _ hf ho hc => exact ⟨.call f.lexeme [] .zero, rfl, .emptyCall hf ho hc⟩
  | @call f _ _ _ hf ho _ hc ih =>
    obtain ⟨es, hes⟩ := ih
    exact ⟨.call f.lexeme es .zero, rfl, .call hf ho hes hc⟩
  | argument _ ih =>
    obtain ⟨e, he⟩ := ih
    exact ⟨[e], he⟩
  | comma _ ht _ ih ihes =>
    obtain ⟨e, he⟩ := ih
    obtain ⟨es, hes⟩ := ihes
    exact ⟨e :: es, .comma he ht hes⟩

theorem nested_operand (h : Sentence table.Knows .operand ts) :
    Nested (fun t => ¬isBinaryOperator t.id) ts := by
  obtain ⟨e, hnone, he⟩ := h.spelled
  exact he.nested_operand hnone

/-- An expression may be split at any operator outside parentheses; if there is none, it is an
    operand. -/
theorem exists_chain (h : Sentence table.Knows .expression ts) (i : Nat) :
    ∃ ops, Chain table i ops ts ∧ (ops = [] → Sentence table.Knows .operand ts) ∧
      ∀ op ∈ ops, ∃ ls t rs, ts = ls ++ t :: rs ∧ op.1 = i + ls.length ∧
        Sentence table.Knows .expression ls ∧ Sentence table.Knows .expression rs := by
  generalize hform : Form.expression = form at h
  induction h generalizing i with
  | operand hts => exact ⟨[], .operand hts.nested_operand, fun _ => hts, nofun⟩
  | @operator t ts us hts ht hus _ ih =>
    obtain ⟨hop, b, hb⟩ := ht
    obtain ⟨ops, hchain, -, hsplits⟩ := ih (i + ts.length + 1) hform
    refine ⟨_, .operator hts.nested_operand hop hb hchain, nofun, ?_⟩
    refine List.forall_mem_cons.2 ⟨⟨ts, t, us, rfl, rfl, .operand hts, hus⟩, fun op hmem => ?_⟩
    obtain ⟨ls, t', rs, rfl, hi, hls, hrs⟩ := hsplits op hmem
    refine ⟨ts ++ t :: ls, t', rs, by simp, ?_, .operator hts ⟨hop, b, hb⟩ hls, hrs⟩
    rw [hi, List.length_append, List.length_cons]
    omega
  | _ => exact nomatch hform

/-- Arguments are built one by one. -/
theorem exists_built_arguments (h : Sentence table.Knows .arguments ts)
    (hparts : ∀ us, us.length ≤ ts.length → Sentence table.Knows .expression us →
      ∃ e, Built table [e] us) : ∃ es, Built table es ts := by
  generalize hform : Form.arguments = form at h
  induction h with
  | @argument ts hts _ =>
    obtain ⟨e, he⟩ := hparts ts (Nat.le_refl _) hts
    exact ⟨[e], he⟩
  | @comma t ts us hts ht _ _ ih =>
    rw [List.length_append, List.length_cons] at hparts
    obtain ⟨e, he⟩ := hparts ts (by omega) hts
    obtain ⟨es, hes⟩ := ih (fun vs hvs => hparts vs (by omega)) hform
    exact ⟨e :: es, .comma he ht hes⟩
  | _ => exact nomatch hform

/-- An operand is built if everything shorter is. -/
theorem exists_built_operand (h : Sentence table.Knows .operand ts)
    (hparts : ∀ us, us.length < ts.length → Sentence table.Knows .expression us →
      ∃ e, Built table [e] us) : ∃ e, Built table [e] ts := by
  cases h with
  | name ht => exact ⟨_, .name ht⟩
  | number ht hv => exact ⟨_, .number ht hv⟩
  | @group o c ts ho hts hc =>
    rw [List.length_cons, List.length_append] at hparts
    obtain ⟨e, he⟩ := hparts ts (by omega) hts
    exact ⟨_, .group ho he hc⟩
  | emptyCall hf ho hc => exact ⟨_, .emptyCall hf ho hc⟩
  | call hf ho hts hc =>
    rw [List.length_cons, List.length_cons, List.length_append] at hparts
    obtain ⟨es, hes⟩ := hts.exists_built_arguments fun us hus => hparts us (by omega)
    exact ⟨_, .call hf ho hes hc⟩

/-- Every sentence is built, whatever operator it is split at. -/
theorem exists_built (h : Sentence table.Knows .expression ts) : ∃ e, Built table [e] ts := by
  induction hn : ts.length using Nat.strongRecOn generalizing ts with
  | ind n ih =>
    subst hn
    obtain ⟨ops, hchain, hoperand, hsplits⟩ := h.exists_chain 0
    have hsplit := hchain.splitPoint
    cases hpoint : (ops.foldl better none).map Prod.fst with
    | none =>
      have hnil : ops = [] := List.eq_nil_iff_forall_not_mem.2 fun op hop => by
        obtain ⟨found, hfound, -⟩ := (foldl_better_le ops none).2 op hop
        rw [Option.map_eq_none_iff.1 hpoint] at hfound
        exact Option.not_mem_none found hfound
      exact (hoperand hnil).exists_built_operand fun us hus hsentence => ih _ hus hsentence rfl
    | some k =>
      rw [hpoint] at hsplit
      rcases index_of_foldl_better hpoint with hk | ⟨op, hop, rfl⟩
      · exact nomatch hk
      · obtain ⟨ls, t, rs, rfl, hi, hls, hrs⟩ := hsplits op hop
        rw [hi, Nat.zero_add] at hsplit
        rw [List.length_append, List.length_cons] at ih
        obtain ⟨l, hl⟩ := ih ls.length (by omega) hls rfl
        obtain ⟨r, hr⟩ := ih rs.length (by omega) hrs rfl
        exact ⟨_, .binary hsplit hl hr⟩

end Sentence

/-- Exactly the sentences are built. -/
theorem exists_build_iff : (∃ e, build table ts = .ok e) ↔ Sentence table.Knows .expression ts := by
  simp only [build_eq_ok_iff]
  exact ⟨fun ⟨_, h⟩ => h.sentence.1 rfl, Sentence.exists_built⟩

/-- A run of tokens is built into an expression exactly if it is a sentence of the grammar of
    expressions with the operators of the table. So two tables with entries for the same binary
    operators accept the same runs, however they bind. -/
theorem build_language (table : OperatorTable) (ts : List Token) :
    ((∃ e, build table ts = .ok e) ↔ Sentence table.Knows .expression ts) ∧
    ∀ table' : OperatorTable,
      (∀ id, isBinaryOperator id → ((table.get? id).isSome ↔ (table'.get? id).isSome)) →
      ((∃ e, build table ts = .ok e) ↔ ∃ e, build table' ts = .ok e) := by
  refine ⟨exists_build_iff, fun table' hsame => ?_⟩
  have hknows : table.Knows = table'.Knows := by
    funext id
    refine propext (and_congr_right fun hid => ?_)
    rw [← Option.isSome_iff_exists, ← Option.isSome_iff_exists, hsame id hid]
  rw [exists_build_iff, exists_build_iff, hknows]

/-- The tokens of `a - f(b = c)` are accepted with subtraction binding less than assignment, too. -/
theorem build_language_reversed :
    let reversed : OperatorTable :=
      .ofList [(Kind.assign.id, ⟨9, .left⟩), (Kind.sub.id, ⟨2, .right⟩)]
    let table : OperatorTable :=
      .ofList [(Kind.assign.id, ⟨1, .right⟩), (Kind.sub.id, ⟨7, .left⟩)]
    let token (k : Kind) (lexeme : String) : Token := ⟨k.id, lexeme, .zero, .nowhere⟩
    let tokens := [token .identifier "a", token .sub "-", token .identifier "f",
      token .openParen "(", token .identifier "b", token .assign "=", token .identifier "c",
      token .closeParen ")"]
    (∃ e, build table tokens = .ok e) ∧
      (∀ id, isBinaryOperator id → ((table.get? id).isSome ↔ (reversed.get? id).isSome)) ∧
      ∃ e, build reversed tokens = .ok e := by
  intro reversed table token tokens
  have hbuild : ∃ e, build table tokens = .ok e := ⟨_, rfl⟩
  have hsame : ∀ id, isBinaryOperator id →
      ((table.get? id).isSome ↔ (reversed.get? id).isSome) := by
    intro id _
    simp only [table, reversed, OperatorTable.ofList, List.foldl_cons, List.foldl_nil,
      OperatorTable.get?_set]
    split_ifs <;> rfl
  exact ⟨hbuild, hsame, ((build_language table tokens).2 reversed hsame).1 hbuild⟩

end Expression

end Frontend
