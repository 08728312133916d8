import Frontend.Proofs.Expression.Canonical

/-!
# The order of precedences

A table gives each operator a number, but the construction only ever compares two of them. Two
tables are *alike* for a run of tokens if they have entries for the same of its operators, on the
same sides, with the precedences in the same order (`Alike`). The scans for a split point go in
lockstep under both, as the best operators so far are the same one (`scanSplit_alike`); so at each
level both runs are cut at the same place, and the same is built (`build_alike`).
-/

namespace Frontend.Expression

/-- For the binary operators among the tokens, the tables have entries for the same ones, group them
    to the same side, and agree on which of any two binds less than the other. -/
structure Alike (table table' : OperatorTable) (ts : List Token) : Prop where
  entries : ∀ t ∈ ts, isBinaryOperator t.id →
    ((table.get? t.id).isSome ↔ (table'.get? t.id).isSome)
  sides : ∀ t ∈ ts, isBinaryOperator t.id →
    ∀ b ∈ table.get? t.id, ∀ b' ∈ table'.get? t.id, b.associativity = b'.associativity
  order : ∀ t ∈ ts, ∀ u ∈ ts, isBinaryOperator t.id → isBinaryOperator u.id →
    ∀ b ∈ table.get? t.id, ∀ c ∈ table.get? u.id,
      ∀ b' ∈ table'.get? t.id, ∀ c' ∈ table'.get? u.id,
        (b.precedence < c.precedence ↔ b'.precedence < c'.precedence)

/-- The best split points so far are the same operator, each with its precedence in one table. -/
inductive SameBest (table table' : OperatorTable) (ts : List Token) :
    Option (Nat × Int) → Option (Nat × Int) → Prop
  | none : SameBest table table' ts none none
  | some {i : Nat} {t : Token} {b b' : Binding} : t ∈ ts → isBinaryOperator t.id →
      table.get? t.id = some b → table'.get? t.id = some b' →
      SameBest table table' ts (some (i, b.precedence)) (some (i, b'.precedence))

variable {table table' : OperatorTable} {ts us : List Token} {t : Token} {b b' : Binding}
  {best best' : Option (Nat × Int)} {i : Nat} {opened : List Token}

theorem Alike.mono (h : Alike table table' us) (hts : ts ⊆ us) : Alike table table' ts where
  entries t ht := h.entries t (hts ht)
  sides t ht := h.sides t (hts ht)
  order t ht u hu := h.order t (hts ht) u (hts hu)

/-- Tables that agree on the operators among the tokens are alike. -/
theorem Alike.of_get?_eq
    (h : ∀ t ∈ ts, isBinaryOperator t.id → table.get? t.id = table'.get? t.id) :
    Alike table table' ts where
  entries t ht hop := by rw [h t ht hop]
  sides t ht hop b hb b' hb' := by
    rw [h t ht hop] at hb
    rw [Option.mem_unique hb hb']
  order t ht u hu hopt hopu b hb c hc b' hb' c' hc' := by
    rw [h t ht hopt] at hb
    rw [h u hu hopu] at hc
    rw [Option.mem_unique hb hb', Option.mem_unique hc hc']

/-- So are tables of which one has the precedences of the other rescaled. -/
theorem Alike.of_rescaled {f : Int → Int} (hf : ∀ p q, p < q → f p < f q)
    (h : ∀ id, table'.get? id = (table.get? id).map fun b => ⟨f b.precedence, b.associativity⟩) :
    Alike table table' ts where
  entries t _ _ := by rw [h, Option.isSome_map]
  sides t _ _ b hb b' hb' := by
    rw [h, Option.mem_def.1 hb] at hb'
    obtain rfl := Option.some.inj hb'
    rfl
  order t _ u _ _ _ b hb c hc b' hb' c' hc' := by
    rw [h, Option.mem_def.1 hb] at hb'
    rw [h, Option.mem_def.1 hc] at hc'
    obtain rfl := Option.some.inj hb'
    obtain rfl := Option.some.inj hc'
    dsimp only
    rcases Int.lt_trichotomy b.precedence c.precedence with hlt | heq | hlt
    · exact iff_of_true hlt (hf _ _ hlt)
    · simp [heq]
    · exact iff_of_false (Int.lt_asymm hlt) (Int.lt_asymm (hf _ _ hlt))

/-- Of two operators, tables that are alike prefer the same one. -/
theorem prefers_alike (h : Alike table table' ts) (hbest : SameBest table table' ts best best')
    (ht : t ∈ ts) (hop : isBinaryOperator t.id) (hb : table.get? t.id = some b)
    (hb' : table'.get? t.id = some b') :
    OperatorTable.prefers b best = OperatorTable.prefers b' best' := by
  cases hbest with
  | none => rfl
  | @some j u c c' hu hop' hc hc' =>
    have hside := h.sides t ht hop b hb b' hb'
    have hless := h.order t ht _ hu hop hop' b hb _ hc b' hb' _ hc'
    have hgreater := h.order _ hu t ht hop' hop _ hc b hb _ hc' b' hb'
    have hequal : b.precedence = c.precedence ↔ b'.precedence = c'.precedence := by omega
    rw [Bool.eq_iff_iff, prefers_some_iff, prefers_some_iff, hless, hequal, hside]

/-- The scans answer the same under tables that are alike. -/
theorem scanSplit_alike (h : Alike table table' us) (hts : ts ⊆ us)
    (hbest : SameBest table table' us best best') :
    table.scanSplit i opened best ts = table'.scanSplit i opened best' ts := by
  induction ts generalizing i opened best best' with
  | nil =>
    cases hbest with
    | none => rfl
    | some _ _ _ _ => rfl
  | cons t ts ih =>
    obtain ⟨ht, hts⟩ := List.cons_subset.1 hts
    rw [OperatorTable.scanSplit.eq_def, OperatorTable.scanSplit.eq_def table']
    dsimp only
    split
    · exact ih hts hbest
    · split
      · split
        · rfl
        · exact ih hts hbest
      · split
        · exact ih hts hbest
        · next hskip =>
          rw [Bool.or_eq_true, not_or] at hskip
          have hop : isBinaryOperator t.id := by simpa using hskip.2
          have hentries := h.entries t ht hop
          cases hb : table.get? t.id with
          | none =>
            cases hb' : table'.get? t.id with
            | none => rfl
            | some b' => simp [hb, hb'] at hentries
          | some b =>
            cases hb' : table'.get? t.id with
            | none => simp [hb, hb'] at hentries
            | some b' =>
              dsimp only
              rw [prefers_alike h hbest ht hop hb hb']
              refine ih hts ?_
              split
              · exact .some ht hop hb hb'
              · exact hbest

/-- Tables that are alike split the tokens at the same place. -/
theorem splitPoint_alike (h : Alike table table' ts) :
    table.splitPoint ts = table'.splitPoint ts :=
  scanSplit_alike h (List.Subset.refl ts) .none

/-- Tables that are alike for a run build the same of it. -/
theorem build_alike (h : Alike table table' ts) : build table ts = build table' ts := by
  induction hn : ts.length using Nat.strongRecOn generalizing ts with
  | ind n ih =>
    rw [build_eq, build_eq]
    refine buildStep_congr (splitPoint_alike h) fun us hus => ?_
    exact ih us.length (hn ▸ hus.length_lt) (h.mono hus.sublist.subset) rfl

/-- Only the order of precedences matters: tables that are alike for a run of tokens build the same
    of it, or complain of the same. So an entry for an operator that does not occur has no
    influence, and precedences may be rescaled. -/
theorem build_depends_on_order (ts : List Token) :
    (∀ table table', Alike table table' ts → build table ts = build table' ts) ∧
    (∀ table : OperatorTable, ∀ id b, (isBinaryOperator id → ∀ t ∈ ts, t.id ≠ id) →
      build (table.set id b) ts = build table ts) ∧
    ∀ (table table' : OperatorTable) (f : Int → Int), (∀ p q, p < q → f p < f q) →
      (∀ id, table'.get? id = (table.get? id).map fun b => ⟨f b.precedence, b.associativity⟩) →
      build table ts = build table' ts := by
  refine ⟨fun _ _ => build_alike, fun table id b hid => build_alike (.of_get?_eq ?_),
    fun _ _ f hf h => build_alike (.of_rescaled hf h)⟩
  intro t ht hop
  rw [OperatorTable.get?_set, if_neg]
  rintro rfl
  exact hid hop t ht rfl

/-- In `a - b = c`, it is the same to `-` and `=` how far apart their precedences are, up to the
    bounds of numbers of 32 bits, and whether there is an entry for `*`. -/
theorem build_depends_on_order_extreme :
    let table (p q : Int) : OperatorTable :=
      .ofList [(Kind.sub.id, ⟨p, .left⟩), (Kind.assign.id, ⟨q, .right⟩)]
    let token (k : Kind) (lexeme : String) : Token := ⟨k.id, lexeme, .zero, .nowhere⟩
    let tokens := [token .identifier "a", token .sub "-", token .identifier "b", token .assign "=",
      token .identifier "c"]
    build (table 1 0) tokens = build (table 2147483647 (-2147483648)) tokens ∧
      build ((table 1 0).set Kind.mul.id ⟨-1, .right⟩) tokens = build (table 1 0) tokens ∧
      build (table 1 0) tokens = build (table 8 5) tokens := by
  intro table token tokens
  obtain ⟨hsame, hset, hrescaled⟩ := build_depends_on_order tokens
  have halike : Alike (table 1 0) (table 2147483647 (-2147483648)) tokens := by
    constructor <;> decide
  have hmono : ∀ p q : Int, p < q → 3 * p + 5 < 3 * q + 5 := by omega
  refine ⟨hsame _ _ halike, hset _ _ _ (by decide),
    hrescaled _ _ (fun p => 3 * p + 5) hmono fun id => ?_⟩
  simp only [table, OperatorTable.ofList, List.foldl_cons, List.foldl_nil, OperatorTable.get?_set]
  split_ifs <;> rfl

end Frontend.Expression
