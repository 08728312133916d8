import Frontend.Proofs.Expression.Recursion
import Frontend.Proofs.Expression.Spelling
import Mathlib.Data.List.Forall2

/-!
# Canonical trees

A tree is *canonical* for a table of operators if every operator in it stands where the table
puts it, seen from its own operands only: the operator of an operand binds tighter, or as tight
and on the side to which the two of them group. Operators of one precedence may group to
different sides.

The construction looks at a whole run of tokens instead, and splits it at the operator that is to
be applied last. On the tokens of a canonical tree this is the operator at its root: scanning
the left operand from the beginning leaves an operator that the root is preferred to
(`scanSplit_left`), and nothing in the right operand is preferred to the root
(`scanSplit_right`). So every canonical tree is built from the tokens that spell it
(`build_canonical`).
-/

namespace Frontend.Expression

/-- The expression may stand to the left of an operator with the binding `b`. -/
def FitsLeft (table : OperatorTable) (b : Binding) (e : Expr) : Prop :=
  ∀ o ∈ e.operator?, ∃ b', table.get? o = some b' ∧
    (b.precedence < b'.precedence ∨ b'.precedence = b.precedence ∧ b.associativity = .left)

/-- The expression may stand to the right of an operator with the precedence `p`. -/
def FitsRight (table : OperatorTable) (p : Int) (e : Expr) : Prop :=
  ∀ o ∈ e.operator?, ∃ b', table.get? o = some b' ∧
    (p < b'.precedence ∨ b'.precedence = p ∧ b'.associativity = .right)

/-- Every operator of the expression stands where the table puts it. -/
inductive Canonical (table : OperatorTable) : Expr → Prop
  | name {n : String} {s : Span} : Canonical table (.name n s)
  | number {v : Int} {s : Span} : Canonical table (.number v s)
  | binary {o : Nat} {x : String} {l r : Expr} {s : Span} {b : Binding} :
      isBinaryOperator o → table.get? o = some b → Canonical table l → FitsLeft table b l →
      Canonical table r → FitsRight table b.precedence r → Canonical table (.binary o x l r s)
  | group {e : Expr} {s : Span} : Canonical table e → Canonical table (.group e s)
  | call {f : String} {es : List Expr} {s : Span} :
      (∀ e ∈ es, Canonical table e) → Canonical table (.call f es s)

variable {table : OperatorTable} {e l r : Expr} {ts us : List Token} {t : Token} {b : Binding}
  {i : Nat} {best : Option (Nat × Int)}

/-! ## Operands of operands -/

/-- Where an operator may stand to the right of another one, its left operand may do so, too. -/
theorem FitsLeft.fitsRight {p : Int} (h : FitsLeft table b e)
    (hb : p < b.precedence ∨ b.precedence = p ∧ b.associativity = .right) :
    FitsRight table p e := by
  intro o ho
  obtain ⟨b', hb', hlt | ⟨heq, hleft⟩⟩ := h o ho
  · refine ⟨b', hb', .inl ?_⟩
    omega
  · -- The operator groups to the left, so it binds tighter than the other one.
    rcases hb with hlt | ⟨-, hright⟩
    · refine ⟨b', hb', .inl ?_⟩
      omega
    · rw [hleft] at hright
      exact nomatch hright

theorem FitsRight.mono {p p' : Int} (h : FitsRight table p' e) (hp : p ≤ p') :
    FitsRight table p e := by
  intro o ho
  obtain ⟨b', hb', hlt | ⟨rfl, hright⟩⟩ := h o ho
  · refine ⟨b', hb', .inl ?_⟩
    omega
  · rcases Int.lt_or_eq_of_le hp with hlt | rfl
    · exact ⟨b', hb', .inl hlt⟩
    · exact ⟨b', hb', .inr ⟨rfl, hright⟩⟩

/-! ## The split point -/

/-- The scan keeps an operator outside parentheses if it is preferred to the best one so far. -/
theorem scanSplit_operator (ht : isBinaryOperator t.id) (hb : table.get? t.id = some b) :
    table.scanSplit i [] best (t :: ts) =
      table.scanSplit (i + 1) []
        (if OperatorTable.prefers b best then some (i, b.precedence) else best) ts := by
  rw [OperatorTable.scanSplit, if_neg (not_is_of_isBinaryOperator ht (by decide)),
    if_neg (not_is_of_isBinaryOperator ht (by decide)), if_neg (by simpa using ht), hb]

/-- The scan finds nothing in an operand. -/
theorem scanSplit_operand (h : Spells [e] ts) (he : e.operator? = none) (us : List Token) :
    table.scanSplit i [] best (ts ++ us) = table.scanSplit (i + ts.length) [] best us :=
  scanSplit_append (h.nested_operand he) (fun _ ht ht' => absurd ht' ht) us

theorem prefers_some_iff {j : Nat} {p : Int} :
    OperatorTable.prefers b (some (j, p)) ↔
      b.precedence < p ∨ b.precedence = p ∧ b.associativity = .left := by
  simp [OperatorTable.prefers]

/-- An operator that binds less, or that binds as much and groups to the right, is kept. -/
theorem not_prefers {j : Nat} {p : Int}
    (hb : p < b.precedence ∨ b.precedence = p ∧ b.associativity = .right) :
    ¬OperatorTable.prefers b (some (j, p)) := by
  rw [prefers_some_iff]
  rcases hb with hlt | ⟨rfl, hright⟩
  · omega
  · simp [hright]

/-- Nothing in the right operand of an operator is preferred to it. -/
theorem scanSplit_right (hc : Canonical table e) (h : Spells [e] ts) {j : Nat} {p : Int}
    (he : FitsRight table p e) (us : List Token) :
    table.scanSplit i [] (some (j, p)) (ts ++ us) =
      table.scanSplit (i + ts.length) [] (some (j, p)) us := by
  induction hc generalizing i ts us with
  | name => exact scanSplit_operand h rfl us
  | number => exact scanSplit_operand h rfl us
  | group _ _ => exact scanSplit_operand h rfl us
  | call _ _ => exact scanSplit_operand h rfl us
  | @binary o x l r s b ho hb _ hleft _ hright ihl ihr =>
    obtain ⟨ts₁, t, ts₂, rfl, rfl, -, hl, hr⟩ := h.binary_inv
    -- The operator is not preferred, and both its operands bind at least as tight as it does.
    obtain ⟨b', hb', hfits⟩ := he _ rfl
    obtain rfl : b = b' := Option.some.inj (hb.symm.trans hb')
    have hp : p ≤ b.precedence := by omega
    rw [List.append_assoc, ihl hl (hleft.fitsRight hfits), List.cons_append,
      scanSplit_operator ho hb, if_neg (not_prefers hfits), ihr hr (hright.mono hp)]
    congr 1
    simp only [List.length_append, List.length_cons]
    omega

/-- What the scan of an expression leaves for the operator after it: the precedence of its own
    operator, or nothing if it has none. -/
def Leaves (table : OperatorTable) (best : Option (Nat × Int)) (e : Expr) : Prop :=
  best.map Prod.snd = (e.operator?.bind table.get?).map Binding.precedence

/-- An operator is preferred to those of its left operand. -/
theorem prefers_of_leaves (h : Leaves table best e) (he : FitsLeft table b e) :
    OperatorTable.prefers b best := by
  cases best with
  | none => rfl
  | some found =>
    obtain ⟨j, p⟩ := found
    obtain ⟨b', hb', rfl⟩ := Option.map_eq_some_iff.1 h.symm
    obtain ⟨o, ho, hget⟩ := Option.bind_eq_some_iff.1 hb'
    obtain ⟨b'', hget', hfits⟩ := he o ho
    obtain rfl : b' = b'' := Option.some.inj (hget.symm.trans hget')
    exact prefers_some_iff.2 (hfits.imp_right fun ⟨heq, hleft⟩ => ⟨heq.symm, hleft⟩)

/-- An operator is preferred to everything in its left operand, and then to everything in its
    right operand. -/
theorem scanSplit_binary (ht : isBinaryOperator t.id) (hb : table.get? t.id = some b)
    (hleft : FitsLeft table b l) (hr : Canonical table r)
    (hright : FitsRight table b.precedence r) (hus : Spells [r] us) (rest : List Token)
    (hl : ∃ best, Leaves table best l ∧ ∀ rest,
      table.scanSplit i [] none (ts ++ rest) = table.scanSplit (i + ts.length) [] best rest) :
    table.scanSplit i [] none ((ts ++ t :: us) ++ rest) =
      table.scanSplit (i + (ts ++ t :: us).length) [] (some (i + ts.length, b.precedence))
        rest := by
  obtain ⟨best, hbest, hscan⟩ := hl
  rw [List.append_assoc, hscan, List.cons_append, scanSplit_operator ht hb,
    if_pos (prefers_of_leaves hbest hleft), scanSplit_right hr hus hright]
  congr 1
  simp only [List.length_append, List.length_cons]
  omega

/-- The scan of a left operand leaves its own operator. -/
theorem scanSplit_left (hc : Canonical table e) (h : Spells [e] ts) :
    ∃ best, Leaves table best e ∧ ∀ rest,
      table.scanSplit i [] none (ts ++ rest) = table.scanSplit (i + ts.length) [] best rest := by
  induction hc generalizing ts with
  | name => exact ⟨none, rfl, scanSplit_operand h rfl⟩
  | number => exact ⟨none, rfl, scanSplit_operand h rfl⟩
  | group _ _ => exact ⟨none, rfl, scanSplit_operand h rfl⟩
  | call _ _ => exact ⟨none, rfl, scanSplit_operand h rfl⟩
  | @binary o x l r s b ho hb _ hleft hr hright ihl _ =>
    obtain ⟨ts₁, t, ts₂, rfl, rfl, -, hts₁, hts₂⟩ := h.binary_inv
    refine ⟨some (i + ts₁.length, b.precedence), ?_, fun rest => ?_⟩
    · simp [Leaves, Expr.operator?, hb]
    · exact scanSplit_binary ho hb hleft hr hright hts₂ rest (ihl hts₁)

/-- The tokens of a canonical tree are split at the operator at its root. -/
theorem splitPoint_binary (ht : isBinaryOperator t.id) (hb : table.get? t.id = some b)
    (hl : Canonical table l) (hleft : FitsLeft table b l) (hr : Canonical table r)
    (hright : FitsRight table b.precedence r) (hts : Spells [l] ts) (hus : Spells [r] us) :
    table.splitPoint (ts ++ t :: us) = .ok (some ts.length) := by
  have hscan := scanSplit_binary (i := 0) ht hb hleft hr hright hus [] (scanSplit_left hl hts)
  rw [List.append_nil, Nat.zero_add, Nat.zero_add] at hscan
  exact hscan

/-! ## Building from the tokens -/

/-- A run that is split is built from its two sides. -/
theorem build_of_split (h : table.splitPoint (ts ++ t :: us) = .ok (some ts.length))
    (hts : ts ≠ []) (hus : us ≠ []) (hl : build table ts = .ok l) (hr : build table us = .ok r) :
    build table (ts ++ t :: us) = .ok (.binary t.id t.lexeme l r (l.span.join r.span)) := by
  have hcut : cutAt (ts ++ t :: us) ts.length = some (ts, t, us) := by simp [cutAt]
  rw [build_eq, buildStep, if_neg (by simp), h]
  simp [hcut, hts, hus, hl, hr, bind, Except.bind, pure, Except.pure, Expr.ofOperator]

theorem build_of_no_split (h : table.splitPoint ts = .ok none) (hts : ts ≠ []) :
    build table ts = buildOperand (build table) ts := by
  rw [build_eq, buildStep, if_neg (by simpa using hts), h]
  rfl

/-- An expression without an operator of its own is built as an operand. -/
theorem build_operand (h : Spells [e] ts) (he : e.operator? = none) :
    build table ts = buildOperand (build table) ts := by
  have hscan : table.splitPoint (ts ++ []) = .ok none := scanSplit_operand h he []
  rw [List.append_nil] at hscan
  exact build_of_no_split hscan h.tokens_ne_nil

section

variable {build : List Token → Except Complaint Expr} {P : Token → Prop}

/-- A group is built from what is inside it. -/
theorem buildOperand_group {o c : Token} (ho : o.is .openParen) (hts : Nested P ts)
    (hne : ts ≠ []) (hc : c.is .closeParen) (he : build ts = .ok e) :
    buildOperand build (o :: (ts ++ [c])) = .ok (.group e (o.span.join c.span)) := by
  have hinside : groupInside? (o :: (ts ++ [c])) = some (ts, c) := by
    rw [groupInside?, if_pos ho, cutAtClose_of_nested hts hc]
  rw [buildOperand, hinside]
  simp [hne, he, bind, Except.bind, pure, Except.pure]

theorem buildOperand_primary (ht : ¬t.is .openParen) :
    buildOperand build (t :: ts) = buildPrimary build (t :: ts) := by
  rw [buildOperand, groupInside?, if_neg ht]
  rfl

/-- A call is built from its arguments. -/
theorem buildPrimary_call {f o c : Token} {es : List Expr} (hf : f.is .identifier)
    (ho : o.is .openParen) (hts : Nested P ts) (hc : c.is .closeParen)
    (hnone : ts = [] → es = [])
    (hsome : ∀ last ∈ ts.getLast?, buildArguments build last (cutAtCommas 0 ts) = .ok es) :
    buildPrimary build (f :: o :: (ts ++ [c])) =
      .ok (.call f.lexeme es (f.span.join c.span)) := by
  rw [buildPrimary, if_pos (by simp [hf, ho]), buildCall, cutAtClose_of_nested hts hc]
  dsimp only
  cases hlast : ts.getLast? with
  | none =>
    rw [hnone (List.getLast?_eq_none_iff.1 hlast)]
    rfl
  | some last =>
    dsimp only
    rw [hsome last hlast]
    rfl

/-- The arguments are built one by one. -/
theorem buildArguments_of_forall₂ {es : List Expr} {parts : List (List Token × Option Token)}
    (h : List.Forall₂ (fun e part => part.1 ≠ [] ∧
      ∃ e', build part.1 = .ok e' ∧ e'.unspanned = e.unspanned) es parts) :
    ∃ es', (∀ last, buildArguments build last parts = .ok es') ∧
      Expr.unspannedAll es' = Expr.unspannedAll es := by
  induction h with
  | nil => exact ⟨[], fun _ => rfl, rfl⟩
  | @cons e part es parts hpart _ ih =>
    obtain ⟨hne, e', he', hsame⟩ := hpart
    obtain ⟨es', hes', hsames⟩ := ih
    obtain ⟨_ | ⟨t, ts⟩, comma⟩ := part
    · exact absurd rfl hne
    · refine ⟨e' :: es', fun last => ?_, ?_⟩
      · rw [buildArguments, he', hes']
        rfl
      · rw [Expr.unspannedAll, Expr.unspannedAll, hsame, hsames]

end

/-- Cutting a list of expressions at its commas gives the tokens of each. -/
theorem Spells.forall₂_cutAtCommas {es : List Expr} (h : Spells es ts) :
    List.Forall₂ (fun e part => Spells [e] part.1) es (cutAtCommas 0 ts) := by
  induction es generalizing ts with
  | nil => exact absurd rfl h.exprs_ne_nil
  | cons e es ih =>
    cases es with
    | nil =>
      rw [cutAtCommas_of_nested h.nested_comma fun _ ht => ht]
      exact .cons h .nil
    | cons e' es =>
      cases h with
      | comma he ht hes =>
        rw [cutAtCommas_of_nested_comma he.nested_comma (fun _ ht => ht) ht]
        exact .cons he (ih hes)

/-- Every canonical tree is built from the tokens that spell it, whatever it covers. -/
theorem build_canonical (table : OperatorTable) (e : Expr) (ts : List Token)
    (hc : Canonical table e) (h : Spells [e] ts) :
    ∃ e', build table ts = .ok e' ∧ e'.unspanned = e.unspanned := by
  induction hc generalizing ts with
  | name =>
    rw [build_operand h rfl]
    cases h with
    | @name t _ ht =>
      refine ⟨.name t.lexeme t.span, ?_, rfl⟩
      rw [buildOperand_primary (Token.not_is ht (by decide)), buildPrimary, if_pos ht, Expr.ofName]
    | comma _ _ hes => exact absurd rfl hes.exprs_ne_nil
  | @number v =>
    rw [build_operand h rfl]
    cases h with
    | @number t _ _ ht hv =>
      refine ⟨.number v t.span, ?_, rfl⟩
      rw [buildOperand_primary (Token.not_is ht (by decide)), buildPrimary,
        if_neg (Token.not_is ht (by decide)), if_pos ht, hv]
    | comma _ _ hes => exact absurd rfl hes.exprs_ne_nil
  | @binary o x l r s b ho hb hl hleft hr hright ihl ihr =>
    obtain ⟨ts₁, t, ts₂, rfl, rfl, rfl, hts₁, hts₂⟩ := h.binary_inv
    obtain ⟨l', hl', hsamel⟩ := ihl ts₁ hts₁
    obtain ⟨r', hr', hsamer⟩ := ihr ts₂ hts₂
    have hsplit := splitPoint_binary ho hb hl hleft hr hright hts₁ hts₂
    refine ⟨_, build_of_split hsplit hts₁.tokens_ne_nil hts₂.tokens_ne_nil hl' hr', ?_⟩
    rw [Expr.unspanned, Expr.unspanned, hsamel, hsamer]
  | group _ ih =>
    rw [build_operand h rfl]
    cases h with
    | group ho hts hclose =>
      obtain ⟨e', he', hsame⟩ := ih _ hts
      refine ⟨_, buildOperand_group ho hts.nested hts.tokens_ne_nil hclose he', ?_⟩
      rw [Expr.unspanned, Expr.unspanned, hsame]
    | comma _ _ hes => exact absurd rfl hes.exprs_ne_nil
  | call _ ih =>
    rw [build_operand h rfl]
    cases h with
    | emptyCall hf ho hclose =>
      rw [buildOperand_primary (Token.not_is hf (by decide))]
      have hnil : Nested (fun _ => True) [] := .nil
      refine ⟨_, buildPrimary_call hf ho hnil hclose (fun _ => rfl) fun last hlast => ?_, rfl⟩
      exact absurd hlast (Option.not_mem_none last)
    | call hf ho hargs hclose =>
      rw [buildOperand_primary (Token.not_is hf (by decide))]
      -- Each argument is spelled by the tokens between two commas.
      have hparts := (List.forall₂_and_left _ _).2 ⟨ih, hargs.forall₂_cutAtCommas⟩
      obtain ⟨es', hes', hsame⟩ := buildArguments_of_forall₂
        (hparts.imp fun e part hpart => ⟨hpart.2.tokens_ne_nil, hpart.1 part.1 hpart.2⟩)
      refine ⟨_, buildPrimary_call hf ho hargs.nested hclose ?_ fun last _ => hes' last, ?_⟩
      · exact fun hnil => absurd hnil hargs.tokens_ne_nil
      · rw [Expr.unspanned, Expr.unspanned, hsame]
    | comma _ _ hes => exact absurd rfl hes.exprs_ne_nil

/-- Two operators of one precedence that group to different sides, in `a + b - f((c))`. -/
theorem build_canonical_mixed :
    let table : OperatorTable := .ofList [(Kind.add.id, ⟨1, .left⟩), (Kind.sub.id, ⟨1, .right⟩)]
    let token (k : Kind) (lexeme : String) : Token := ⟨k.id, lexeme, .zero, .nowhere⟩
    let name (n : String) : Expr := .name n .zero
    let call : Expr := .call "f" [.group (name "c") .zero] .zero
    let tree : Expr := .binary Kind.add.id "+" (name "a")
      (.binary Kind.sub.id "-" (name "b") call .zero) .zero
    let tokens := [token .identifier "a", token .add "+", token .identifier "b", token .sub "-",
      token .identifier "f", token .openParen "(", token .openParen "(", token .identifier "c",
      token .closeParen ")", token .closeParen ")"]
    Canonical table tree ∧ Spells [tree] tokens ∧
      ∃ e, build table tokens = .ok e ∧ e.unspanned = tree.unspanned := by
  intro table token name call tree tokens
  have hcanonical : Canonical table tree := by
    refine .binary rfl (b := ⟨1, .left⟩) rfl .name nofun ?_ ?_
    · refine .binary rfl (b := ⟨1, .right⟩) rfl .name nofun (.call ?_) nofun
      rintro e (_ | ⟨_, ⟨⟩⟩)
      exact .group .name
    · rintro o ⟨⟩
      exact ⟨⟨1, .right⟩, rfl, .inr ⟨rfl, rfl⟩⟩
  have hname (n : String) : Spells [name n] [token .identifier n] :=
    .name (t := token .identifier n) rfl
  have hcall : Spells [call] (tokens.drop 4) :=
    .call (f := token .identifier "f") rfl rfl (.group rfl (hname "c") rfl) rfl
  have hspells : Spells [tree] tokens :=
    .binary (t := token .add "+") (hname "a") rfl
      (.binary (t := token .sub "-") (hname "b") rfl hcall)
  exact ⟨hcanonical, hspells, build_canonical table tree tokens hcanonical hspells⟩

end Frontend.Expression
