import Frontend.Program
import Frontend.Proofs.Grammar.Language

/-!
# Reading programs

`Reads p ts es` says, without any search or stack, that the tokens `ts` are a part `p` of a
program and what it means: the statements of a compound, the arguments of a parameter list, and
one tree for every other part, all in the order in which they are written. There is one case for
every line of the grammar.

A program has at most one reading (`Reads.unique`). The grammar is not read with one token of
lookahead, but a part is told from its alternatives by what follows its first name: `=`, `(` or
neither. So two readings that start at the same place agree, unless the shorter one is followed
by a token that could have continued it (`Part.Stops`).

What can be read is a sentence of the grammar (`Reads.mem_sentences`).
-/

namespace Frontend

/-- The bytes from the first expression to the last one; without expressions, none of them, at the
    beginning of the text. -/
def Expr.spanAll : List Expr → Span
  | [] => .zero
  | e :: es => e.span.joinAll (es.map Expr.span)

namespace Program

/-- The tokens are a part of a program with the given trees. -/
inductive Reads : Part → List Token → List Expr → Prop
  | topLevel {ts : List Token} {es : List Expr} :
      Reads .compound ts es → Reads .topLevel ts [.sequence ";" es (Expr.spanAll es)]
  | last {ts : List Token} {e : Expr} {t : Token} :
      Reads .expression ts [e] → t.is .separator → Reads .compound (ts ++ [t]) [e]
  | more {ts us : List Token} {e : Expr} {es : List Expr} {t : Token} :
      Reads .expression ts [e] → t.is .separator → Reads .compound us es →
      Reads .compound (ts ++ t :: us) (e :: es)
  | assign {ts us : List Token} {l r : Expr} {t : Token} :
      Reads .lvalue ts [l] → t.is .assign → Reads .expression us [r] →
      Reads .expression (ts ++ t :: us) [.binary Kind.assign.id "=" l r (l.span.join r.span)]
  | rvalue {ts : List Token} {e : Expr} : Reads .rvalue ts [e] → Reads .expression ts [e]
  | call {f o c : Token} {ts : List Token} {args : List Expr} :
      f.is .identifier → o.is .openParen → Reads .parameters ts args → c.is .closeParen →
      Reads .rvalue (f :: o :: (ts ++ [c]))
        [.call f.lexeme args (f.span.joinAll (args.map Expr.span))]
  | emptyCall {f o c : Token} : f.is .identifier → o.is .openParen → c.is .closeParen →
      Reads .rvalue [f, o, c] [.call f.lexeme [] f.span]
  | lvalue {ts : List Token} {e : Expr} : Reads .lvalue ts [e] → Reads .rvalue ts [e]
  | number {t : Token} {v : Int} : t.is .number → Number.read? t.lexeme = some v →
      Reads .rvalue [t] [.number v t.span]
  | name {t : Token} : t.is .identifier → Reads .lvalue [t] [.name t.lexeme t.span]
  | argument {ts : List Token} {e : Expr} :
      Reads .expression ts [e] → Reads .parameters ts [e]
  | arguments {ts us : List Token} {e : Expr} {es : List Expr} {t : Token} :
      Reads .expression ts [e] → t.is .comma → Reads .parameters us es →
      Reads .parameters (ts ++ t :: us) (e :: es)

/-! ## Unique readings -/

/-- The kinds of token that could continue a part that has been read. -/
def Part.continuedBy : Part → List Kind
  | topLevel => [.identifier, .number]
  | compound => [.identifier, .number]
  | expression => [.assign, .openParen]
  | rvalue => [.assign, .openParen]
  | lvalue => []
  | parameters => [.assign, .openParen, .comma]

/-- A part cannot be continued by the tokens after it. -/
def Part.Stops (p : Part) (ts : List Token) : Prop :=
  ∀ t ∈ ts.head?, ∀ k ∈ p.continuedBy, ¬t.is k

variable {p : Part} {ts us : List Token} {es : List Expr}

theorem Part.stops_cons {t : Token} {k : Kind} (ht : t.is k) (hk : k ∉ p.continuedBy) :
    p.Stops (t :: ts) := by
  rintro t' ⟨⟩ k' hk' ht'
  exact hk (Token.kind_unique ht ht' ▸ hk')

theorem Part.Stops.not_is {t : Token} {k : Kind} (h : p.Stops (t :: ts))
    (hk : k ∈ p.continuedBy) : ¬t.is k :=
  h t rfl k hk

/-- Every part starts with a name or a number. -/
theorem Reads.head (h : Reads p ts es) :
    ∃ t us, ts = t :: us ∧ (t.is .identifier ∨ t.is .number) := by
  induction h with
  | topLevel _ ih => exact ih
  | last _ _ ih =>
    obtain ⟨t, us, rfl, ht⟩ := ih
    exact ⟨t, _, rfl, ht⟩
  | more _ _ _ ih _ =>
    obtain ⟨t, us, rfl, ht⟩ := ih
    exact ⟨t, _, rfl, ht⟩
  | assign _ _ _ ih _ =>
    obtain ⟨t, us, rfl, ht⟩ := ih
    exact ⟨t, _, rfl, ht⟩
  | rvalue _ ih => exact ih
  | call hf _ _ _ _ => exact ⟨_, _, rfl, .inl hf⟩
  | emptyCall hf _ _ => exact ⟨_, _, rfl, .inl hf⟩
  | lvalue _ ih => exact ih
  | number ht _ => exact ⟨_, _, rfl, .inr ht⟩
  | name ht => exact ⟨_, _, rfl, .inl ht⟩
  | argument _ ih => exact ih
  | arguments _ _ _ ih _ =>
    obtain ⟨t, us, rfl, ht⟩ := ih
    exact ⟨t, _, rfl, ht⟩

/-- A list of parameters is not empty: a call without arguments has none. -/
theorem Reads.parameters_ne_nil (h : Reads .parameters ts es) : es ≠ [] := by
  cases h <;> exact List.cons_ne_nil _ _

theorem Part.Stops.expression (h : Part.parameters.Stops ts) : Part.expression.Stops ts := by
  intro t ht k hk
  refine h t ht k ?_
  revert k
  decide

/-- A name or a number on its own is not followed by `(`. -/
theorem Part.Stops.not_open {x f o : Token} {vs : List Token} (h : Part.rvalue.Stops us)
    (heq : [x] ++ us = f :: o :: vs) : ¬o.is .openParen := by
  obtain ⟨-, rfl⟩ := List.cons.inj heq
  exact h.not_is (by decide)

/-- An expression that is no assignment does not start with a name and `=`. -/
theorem Reads.not_assign {x q : Token} {vs : List Token} (h : Reads .rvalue ts es)
    (heq : ts ++ us = x :: q :: vs) (hx : x.is .identifier) (hus : Part.rvalue.Stops us) :
    ¬q.is .assign := by
  intro hq
  cases h with
  | call _ ho _ _ =>
    obtain ⟨rfl, rfl, -⟩ : _ = x ∧ _ = q ∧ _ := by simpa using heq
    exact Token.not_is ho (by decide) hq
  | emptyCall _ ho _ =>
    obtain ⟨rfl, rfl, -⟩ : _ = x ∧ _ = q ∧ _ := by simpa using heq
    exact Token.not_is ho (by decide) hq
  | lvalue h =>
    cases h with
    | name _ =>
      obtain ⟨rfl, rfl⟩ : _ = x ∧ us = _ := by simpa using heq
      exact hus.not_is (by decide) hq
  | number ht _ =>
    obtain ⟨rfl, -⟩ : _ = x ∧ _ := by simpa using heq
    exact Token.not_is ht (by decide) hx

/-- A part does not start with `)`. -/
theorem Reads.not_close {c : Token} {vs : List Token} (h : Reads p ts es)
    (heq : ts ++ us = c :: vs) : ¬c.is .closeParen := by
  intro hc
  obtain ⟨t, ts, rfl, ht⟩ := h.head
  obtain ⟨rfl, -⟩ := List.cons.inj heq
  rcases ht with ht | ht
  · exact Token.not_is ht (by decide) hc
  · exact Token.not_is ht (by decide) hc

/-- A reading agrees with every other reading of the same part that starts at the same place, if
    neither can be continued by what follows it. -/
def Settled (p : Part) (ts : List Token) (es : List Expr) : Prop :=
  ∀ {us ts' us' : List Token} {es' : List Expr}, Reads p ts' es' → ts ++ us = ts' ++ us' →
    p.Stops us → p.Stops us' → ts = ts' ∧ es = es'

/-- Two expressions that start at the same place and are followed by a token that ends them. -/
theorem Settled.expression {ts' us' vs vs' : List Token} {e e' : Expr} {t t' : Token} {k : Kind}
    (h : Settled .expression ts [e]) (h' : Reads .expression ts' [e'])
    (hk : k ∉ Part.expression.continuedBy) (ht : t.is k) (ht' : t'.is k)
    (heq : (ts ++ t :: us) ++ vs = (ts' ++ t' :: us') ++ vs') :
    ts = ts' ∧ e = e' ∧ t = t' ∧ us ++ vs = us' ++ vs' := by
  rw [List.append_assoc, List.append_assoc] at heq
  obtain ⟨rfl, ⟨⟩⟩ := h h' heq (Part.stops_cons ht hk) (Part.stops_cons ht' hk)
  obtain ⟨rfl, hrest⟩ := List.cons.inj (List.append_cancel_left heq)
  exact ⟨rfl, rfl, rfl, hrest⟩

/-- A compound can continue a compound: its first statement begins with a name or a number. -/
theorem Reads.not_stops {vs : List Token} (h : Reads .compound ts es) :
    ¬Part.compound.Stops (ts ++ vs) := by
  intro hstops
  obtain ⟨t, ts, rfl, ht⟩ := h.head
  rcases ht with ht | ht
  · exact hstops.not_is (by decide) ht
  · exact hstops.not_is (by decide) ht

theorem Settled.topLevel (h : Settled .compound ts es) :
    Settled .topLevel ts [.sequence ";" es (Expr.spanAll es)] := by
  intro us ts' us' es' h' heq hus hus'
  cases h' with
  | topLevel h' =>
    obtain ⟨rfl, rfl⟩ := h h' heq hus hus'
    exact ⟨rfl, rfl⟩

variable {e l r : Expr} {f o c t : Token}

/-- The last statement is told from one that others follow by what stands behind its `;`. -/
theorem Settled.last (h : Settled .expression ts [e]) (ht : t.is .separator) :
    Settled .compound (ts ++ [t]) [e] := by
  intro us ts' us' es' h' heq hus hus'
  cases h' with
  | last h' ht' =>
    obtain ⟨rfl, rfl, rfl, -⟩ := h.expression h' (by decide) ht ht' heq
    exact ⟨rfl, rfl⟩
  | more h' ht' hmore =>
    -- The second program goes on with a statement that the first one leaves behind.
    obtain ⟨-, -, -, rfl⟩ := h.expression h' (by decide) ht ht' heq
    exact absurd hus hmore.not_stops

/-- A statement and the ones behind it are read one after the other. -/
theorem Settled.more (h : Settled .expression ts [e]) (ht : t.is .separator)
    (hread : Reads .compound us es) (hmore : Settled .compound us es) :
    Settled .compound (ts ++ t :: us) (e :: es) := by
  intro vs ts' vs' es' h' heq hvs hvs'
  cases h' with
  | last h' ht' =>
    obtain ⟨-, -, -, rfl⟩ := h.expression h' (by decide) ht ht' heq
    exact absurd hvs' hread.not_stops
  | more h' ht' hmore' =>
    obtain ⟨rfl, rfl, rfl, hrest⟩ := h.expression h' (by decide) ht ht' heq
    obtain ⟨rfl, rfl⟩ := hmore hmore' hrest hvs hvs'
    exact ⟨rfl, rfl⟩

/-- An assignment is told from other expressions by the `=` behind its name. -/
theorem Settled.assign (hl : Reads .lvalue ts [l]) (ht : t.is .assign)
    (hr : Settled .expression us [r]) :
    Settled .expression (ts ++ t :: us)
      [.binary Kind.assign.id "=" l r (l.span.join r.span)] := by
  intro vs ts' vs' es' h' heq hvs hvs'
  cases hl with
  | name hx =>
    cases h' with
    | assign hl' ht' hr' =>
      cases hl' with
      | name hx' =>
        obtain ⟨rfl, rfl, hrest⟩ : _ = _ ∧ _ = _ ∧ _ := by simpa using heq
        obtain ⟨rfl, ⟨⟩⟩ := hr hr' hrest hvs hvs'
        exact ⟨rfl, rfl⟩
    | rvalue h' => exact absurd ht (h'.not_assign heq.symm hx hvs')

/-- An expression that is no assignment is not read as one. -/
theorem Settled.rvalue (hread : Reads .rvalue ts [e]) (h : Settled .rvalue ts [e]) :
    Settled .expression ts [e] := by
  intro us ts' us' es' h' heq hus hus'
  cases h' with
  | assign hl' ht' hr' =>
    cases hl' with
    | name hx' => exact absurd ht' (hread.not_assign heq hx' hus)
  | rvalue h' => exact h h' heq hus hus'

/-- The arguments of a call end at its `)`, which begins no argument. -/
theorem Settled.call (ho : o.is .openParen) (hread : Reads .parameters ts es)
    (hargs : Settled .parameters ts es) (hc : c.is .closeParen) :
    Settled .rvalue (f :: o :: (ts ++ [c]))
      [.call f.lexeme es (f.span.joinAll (es.map Expr.span))] := by
  intro us ts' us' es' h' heq hus hus'
  cases h' with
  | call hf' ho' hargs' hc' =>
    obtain ⟨rfl, rfl, hrest⟩ : _ = _ ∧ _ = _ ∧ _ := by simpa using heq
    obtain ⟨rfl, rfl⟩ := hargs hargs' hrest (Part.stops_cons hc (by decide))
      (Part.stops_cons hc' (by decide))
    obtain ⟨rfl, -⟩ := List.cons.inj (List.append_cancel_left hrest)
    exact ⟨rfl, rfl⟩
  | emptyCall hf' ho' hc' =>
    obtain ⟨-, -, hrest⟩ : _ = _ ∧ _ = _ ∧ _ := by simpa using heq
    exact absurd hc' (hread.not_close hrest)
  | lvalue hl' =>
    cases hl' with
    | name hx' => exact absurd ho (hus'.not_open heq.symm)
  | number ht' hv' => exact absurd ho (hus'.not_open heq.symm)

theorem settled_emptyCall (ho : o.is .openParen) (hc : c.is .closeParen) :
    Settled .rvalue [f, o, c] [.call f.lexeme [] f.span] := by
  intro us ts' us' es' h' heq hus hus'
  cases h' with
  | call hf' ho' hargs' hc' =>
    obtain ⟨-, -, hrest⟩ : _ = _ ∧ _ = _ ∧ _ := by simpa using heq
    exact absurd hc (hargs'.not_close hrest.symm)
  | emptyCall hf' ho' hc' =>
    obtain ⟨rfl, rfl, rfl, -⟩ : _ = _ ∧ _ = _ ∧ _ = _ ∧ _ := by simpa using heq
    exact ⟨rfl, rfl⟩
  | lvalue hl' =>
    cases hl' with
    | name hx' => exact absurd ho (hus'.not_open heq.symm)
  | number ht' hv' => exact absurd ho (hus'.not_open heq.symm)

/-- A name on its own is not read as a call, because no `(` follows it. -/
theorem Settled.lvalue (hread : Reads .lvalue ts [e]) (h : Settled .lvalue ts [e]) :
    Settled .rvalue ts [e] := by
  intro us ts' us' es' h' heq hus hus'
  cases hread with
  | name hx =>
    cases h' with
    | call hf' ho' hargs' hc' => exact absurd ho' (hus.not_open heq)
    | emptyCall hf' ho' hc' => exact absurd ho' (hus.not_open heq)
    | lvalue hl' => exact h hl' heq nofun nofun
    | number ht' hv' =>
      obtain ⟨rfl, -⟩ := List.cons.inj heq
      exact absurd ht' (Token.not_is hx (by decide))

theorem settled_number {v : Int} (ht : t.is .number) (hv : Number.read? t.lexeme = some v) :
    Settled .rvalue [t] [.number v t.span] := by
  intro us ts' us' es' h' heq hus hus'
  cases h' with
  | call hf' ho' hargs' hc' => exact absurd ho' (hus.not_open heq)
  | emptyCall hf' ho' hc' => exact absurd ho' (hus.not_open heq)
  | lvalue hl' =>
    cases hl' with
    | name hx' =>
      obtain ⟨rfl, -⟩ := List.cons.inj heq
      exact absurd hx' (Token.not_is ht (by decide))
  | number ht' hv' =>
    obtain ⟨rfl, -⟩ := List.cons.inj heq
    obtain rfl := Option.some.inj (hv.symm.trans hv')
    exact ⟨rfl, rfl⟩

theorem settled_name : Settled .lvalue [t] [.name t.lexeme t.span] := by
  intro us ts' us' es' h' heq hus hus'
  cases h' with
  | name ht' =>
    obtain ⟨rfl, -⟩ := List.cons.inj heq
    exact ⟨rfl, rfl⟩

theorem Settled.argument (h : Settled .expression ts [e]) : Settled .parameters ts [e] := by
  intro us ts' us' es' h' heq hus hus'
  cases h' with
  | argument h' => exact h h' heq hus.expression hus'.expression
  | arguments h' ht' hmore' =>
    -- The second list goes on with a comma, which does not follow the first one.
    rw [List.append_assoc] at heq
    obtain ⟨rfl, -⟩ := h h' heq hus.expression (Part.stops_cons ht' (by decide))
    obtain rfl := List.append_cancel_left heq
    exact absurd ht' (hus.not_is (by decide))

/-- Arguments are read one after the other, and the last one is not followed by a comma. -/
theorem Settled.arguments (h : Settled .expression ts [e]) (ht : t.is .comma)
    (hmore : Settled .parameters us es) : Settled .parameters (ts ++ t :: us) (e :: es) := by
  intro vs ts' vs' es' h' heq hvs hvs'
  cases h' with
  | argument h' =>
    rw [List.append_assoc] at heq
    obtain ⟨rfl, -⟩ := h h' heq (Part.stops_cons ht (by decide)) hvs'.expression
    obtain rfl := List.append_cancel_left heq
    exact absurd ht (hvs'.not_is (by decide))
  | arguments h' ht' hmore' =>
    obtain ⟨rfl, rfl, rfl, hrest⟩ := h.expression h' (by decide) ht ht' heq
    obtain ⟨rfl, rfl⟩ := hmore hmore' hrest hvs hvs'
    exact ⟨rfl, rfl⟩

/-- Every reading is settled, by induction on the reading. -/
theorem Reads.settled (h : Reads p ts es) : Settled p ts es := by
  induction h with
  | topLevel _ ih => exact ih.topLevel
  | last _ ht ih => exact ih.last ht
  | more _ ht hmore ih ihmore => exact ih.more ht hmore ihmore
  | assign hl ht _ _ ihr => exact Settled.assign hl ht ihr
  | rvalue h ih => exact Settled.rvalue h ih
  | call _ ho hargs hc ih => exact Settled.call ho hargs ih hc
  | emptyCall _ ho hc => exact settled_emptyCall ho hc
  | lvalue h ih => exact Settled.lvalue h ih
  | number ht hv => exact settled_number ht hv
  | name _ => exact settled_name
  | argument _ ih => exact ih.argument
  | arguments _ ht _ ih ihmore => exact ih.arguments ht ihmore

/-- Some tokens have at most one reading. -/
theorem Reads.unique {es' : List Expr} (h : Reads p ts es) (h' : Reads p ts es') : es = es' := by
  have heq : ts ++ [] = ts ++ [] := rfl
  exact (h.settled h' heq nofun nofun).2

/-! ## Derivation trees -/

theorem Part.symbol_eq (p : Part) : p.symbol = .nonterminal p.symbol.id := by
  cases p <;> rfl

theorem yields_rule {rhs : List Symbol} {action : Option Action} (i : Nat)
    (hi : grammar.rules[i]? = some (Program.rule p rhs action)) (h : grammar.Yields rhs ts) :
    grammar.Yields [p.symbol] ts := by
  rw [p.symbol_eq]
  exact .rule i hi h

/-- What can be read derives from its part. -/
theorem Reads.yields (h : Reads p ts es) : grammar.Yields [p.symbol] ts := by
  induction h with
  | topLevel _ ih => exact yields_rule 0 rfl ih
  | last _ ht ih => exact yields_rule 1 rfl (ih.append (.token ht .nil))
  | more _ ht _ ih ihmore => exact yields_rule 2 rfl (ih.append (.token ht ihmore))
  | assign _ ht _ ihl ihr => exact yields_rule 3 rfl (ihl.append (.token ht ihr))
  | rvalue _ ih => exact yields_rule 4 rfl ih
  | call hf ho _ hc ih =>
    exact yields_rule 5 rfl (.token hf (.token ho (ih.append (.token hc .nil))))
  | emptyCall hf ho hc => exact yields_rule 6 rfl (.token hf (.token ho (.token hc .nil)))
  | lvalue _ ih => exact yields_rule 7 rfl ih
  | number ht _ => exact yields_rule 8 rfl (.token ht .nil)
  | name ht => exact yields_rule 9 rfl (.token ht .nil)
  | argument _ ih => exact yields_rule 10 rfl ih
  | arguments _ ht _ ih ihmore => exact yields_rule 11 rfl (ih.append (.token ht ihmore))

/-- What can be read as a program is a sentence of the grammar. -/
theorem Reads.mem_sentences {e : Expr} (h : Reads .topLevel ts [e]) :
    ts.map Token.id ∈ grammar.sentences :=
  Grammar.mem_sentences_iff.2 h.yields

end Program

end Frontend
