import Frontend.Proofs.Program.Building

/-!
# Left recursion

A nonterminal *leads* to another one if a rule expands it into symbols that can derive nothing,
followed by the other one: after this rule, the other one may be next without a token having been
matched. A grammar is left-recursive if a nonterminal leads back to itself. As the table is
finite, a grammar is free of left recursion exactly if its nonterminals can be ranked so that
they lead to lower ones only (`exists_leftRanked_iff`); the rank of a nonterminal may be the
number of those that it leads to in one or more steps.

That a search ends is said in terms of its rounds, each of which deals with the first node of the
worklist: there is an outcome, and the rounds do not go on forever (`SearchEnds`). It is so for
every grammar without left recursion and every input, in particular for the grammars of programs
and of parentheses, so these are parsed to an answer whatever the text (`search_ends`).
-/

namespace Frontend

open Relation

namespace Grammar

variable {ε σ : Type} (g : Grammar ε σ)

/-! ## Ranks -/

/-- A rule expands the nonterminal `id` into symbols that can all derive nothing, followed by the
    nonterminal `id'`. -/
def Leads (id id' : Nat) : Prop :=
  ∃ r ∈ g.rules, r.lhs.id = id ∧
    ∃ before after, r.rhs = before ++ .nonterminal id' :: after ∧ g.Nullable before

variable {g} {rank : Nat → Nat} {id id' : Nat}

/-- A rank drops along the rules exactly if it drops wherever a nonterminal leads. -/
theorem leftRanked_iff :
    g.LeftRanked rank ↔ ∀ id id', g.Leads id id' → rank id' < rank id := by
  constructor
  · rintro h id id' ⟨r, hr, rfl, before, after, hrhs, hbefore⟩
    exact h r hr before id' after hrhs hbefore
  · intro h r hr before id' after hrhs hbefore
    exact h r.lhs.id id' ⟨r, hr, rfl, before, after, hrhs, hbefore⟩

/-- The rank drops along every path. -/
theorem LeftRanked.lt_of_transGen (h : g.LeftRanked rank) (hpath : TransGen g.Leads id id') :
    rank id' < rank id := by
  rw [leftRanked_iff] at h
  induction hpath with
  | single hlead => exact h _ _ hlead
  | tail _ hlead ih => exact (h _ _ hlead).trans ih

/-- Symbols that can derive nothing are no terminals. -/
theorem Nullable.isTerminal_eq_false {ss : List Symbol} (h : g.Nullable ss) :
    ∀ s ∈ ss, s.isTerminal = false := by
  obtain ⟨f, hf⟩ := h
  induction f with
  | nil => exact nofun
  | leaf id rest => simp [Forest.leaves] at hf
  | node hi hid children rest _ ih =>
    rw [Forest.leaves, List.append_eq_nil_iff] at hf
    exact List.forall_mem_cons.2 ⟨rfl, ih hf.2⟩

/-- What stands behind a terminal need not be ranked. -/
theorem leftRanked_of_takeWhile
    (h : ∀ r ∈ g.rules, ∀ s ∈ r.rhs.takeWhile (!·.isTerminal), rank s.id < rank r.lhs.id) :
    g.LeftRanked rank := by
  intro r hr before id after hrhs hbefore
  refine h r hr (.nonterminal id) ?_
  rw [hrhs, List.takeWhile_append_of_pos fun s hs => by simp [hbefore.isTerminal_eq_false s hs]]
  simp [Symbol.isTerminal]

/-- The numbers on the right-hand sides of the rules. -/
def mentioned (g : Grammar ε σ) : Finset Nat :=
  (g.rules.flatMap fun r => r.rhs.map Symbol.id).toFinset

theorem mem_mentioned_of_leads (h : g.Leads id id') : id' ∈ g.mentioned := by
  obtain ⟨r, hr, -, before, after, hrhs, -⟩ := h
  rw [mentioned, List.mem_toFinset, List.mem_flatMap]
  exact ⟨r, hr, List.mem_map.2 ⟨.nonterminal id', by simp [hrhs], rfl⟩⟩

open Classical in
/-- The nonterminals that a nonterminal leads to in one or more steps. -/
noncomputable def leadsTo (g : Grammar ε σ) (id : Nat) : Finset Nat :=
  g.mentioned.filter (TransGen g.Leads id)

/-- Everything that a nonterminal leads to is among the finitely many that rules mention. -/
theorem mem_leadsTo : id' ∈ g.leadsTo id ↔ TransGen g.Leads id id' := by
  simp only [leadsTo, Finset.mem_filter, and_iff_right_iff_imp]
  intro hpath
  obtain ⟨_, _, hlead⟩ := TransGen.tail'_iff.1 hpath
  exact mem_mentioned_of_leads hlead

/-- The nonterminals can be ranked exactly if none of them leads back to itself. -/
theorem exists_leftRanked_iff :
    (∃ rank, g.LeftRanked rank) ↔ ∀ id, ¬TransGen g.Leads id id := by
  constructor
  · rintro ⟨rank, hrank⟩ id hcycle
    exact Nat.lt_irrefl _ (hrank.lt_of_transGen hcycle)
  · intro hacyclic
    refine ⟨fun id => (g.leadsTo id).card, leftRanked_iff.2 fun id id' hlead => ?_⟩
    -- What the second one leads to, the first one leads to as well, and to the second one.
    have hsub : g.leadsTo id' ⊆ g.leadsTo id := fun id'' h =>
      mem_leadsTo.2 (.head hlead (mem_leadsTo.1 h))
    refine Finset.card_lt_card ((Finset.ssubset_iff_of_subset hsub).2 ⟨id', ?_, fun h => ?_⟩)
    · exact mem_leadsTo.2 (.single hlead)
    · exact hacyclic id' (mem_leadsTo.1 h)

/-! ## Rounds -/

/-- One round of a search: the first node of the worklist is dealt with, and the dead end to
    report may change. -/
inductive Round (g : Grammar ε σ) (tokens : List Token) :
    List Node × Option Node → List Node × Option Node → Prop
  | dead {n : Node} {rest : List Node} {best : Option Node} :
      g.step tokens.toArray n = .dead → Round g tokens (n :: rest, best) (rest, further best n)
  | shift {n m : Node} {rest : List Node} {best : Option Node} :
      g.step tokens.toArray n = .shift m → Round g tokens (n :: rest, best) (m :: rest, best)
  | fork {n : Node} {ms rest : List Node} {best : Option Node} :
      g.step tokens.toArray n = .fork ms → Round g tokens (n :: rest, best) (ms ++ rest, best)

/-- The search has an outcome, and its rounds do not go on forever. -/
def SearchEnds (g : Grammar ε σ) (tokens : List Token) : Prop :=
  (∃ out, g.search tokens = some out) ∧
    ¬∃ run : Nat → List Node × Option Node, run 0 = ([.initial g.start], none) ∧
      ∀ k, g.Round tokens (run k) (run (k + 1))

/-- Wherever the search has an outcome, all sequences of rounds end. -/
theorem acc_of_explore {tokens : List Token} {worklist : List Node} {best : Option Node}
    {out : Outcome} (h : g.explore tokens.toArray worklist best = some out) :
    Acc (flip (g.Round tokens)) (worklist, best) := by
  refine explore.partial_correctness g tokens.toArray
    (fun worklist best _ => Acc (flip (g.Round tokens)) (worklist, best)) ?_ _ _ _ h
  intro explore ih worklist best out h
  refine .intro _ fun next hround => ?_
  -- A round does what the search itself does next, so the rest of the search is the one after it.
  cases hround with
  | dead hs =>
    simp only [hs] at h
    exact ih _ _ _ h
  | shift hs =>
    simp only [hs] at h
    exact ih _ _ _ h
  | fork hs =>
    simp only [hs] at h
    exact ih _ _ _ h

/-- A search with an outcome ends. -/
theorem searchEnds_of_ne_none {tokens : List Token} (h : g.search tokens ≠ none) :
    g.SearchEnds tokens := by
  obtain ⟨out, hout⟩ := Option.ne_none_iff_exists'.1 h
  refine ⟨⟨out, hout⟩, ?_⟩
  rintro ⟨run, hstart, hrun⟩
  have hacc := acc_of_explore hout
  rw [acc_iff_isEmpty_descending_chain] at hacc
  exact hacc.false ⟨run, hstart, hrun⟩

theorem parse_ne_unfinished {tokens : List Token} (h : g.search tokens ≠ none) (o : Origin)
    (s : σ) : g.parse o tokens s ≠ .error .unfinished := by
  rcases eq_or_ne tokens [] with rfl | hne
  · exact nofun
  · obtain ⟨out, hout⟩ := Option.ne_none_iff_exists'.1 h
    cases out with
    | accepted n =>
      rw [parse_of_accepted hne hout]
      intro h
      obtain ⟨c, -, hc⟩ := mapError_eq_error_iff.1 h
      exact nomatch hc
    | rejected furthest =>
      rw [parse_of_rejected hne hout]
      simp

end Grammar

/-! ## The bundled grammars -/

theorem Parentheses.leftRanked :
    Parentheses.grammar.LeftRanked fun id => Parentheses.nested.id - id := by
  refine Grammar.leftRanked_of_head ?_ ?_
  · decide
  · decide

/-- Parentheses are parsed to an answer. -/
theorem parseParentheses_cases (source : Source) :
    (∃ fired, parseParentheses source = .ok fired) ∨
      ∃ d, parseParentheses source = .error (.reported d) := by
  unfold parseParentheses
  cases tokenize ⟨source, "lex"⟩ with
  | error d => exact .inr ⟨d, rfl⟩
  | ok tokens =>
    have hends := Grammar.search_ne_none Parentheses.leftRanked tokens
    have hparse := Grammar.parse_ne_unfinished hends ⟨source, "grammar"⟩ []
    cases hresult : Parentheses.grammar.parse ⟨source, "grammar"⟩ tokens [] with
    | ok fired => exact .inl ⟨fired.reverse, by simp [hresult, Except.map]⟩
    | error halt =>
      cases halt with
      | reported d => exact .inr ⟨d, by simp [hresult, Except.map]⟩
      | fault f => exact f.elim
      | unfinished => exact absurd hresult hparse

/-- Every search with a grammar without left recursion ends: one in which no nonterminal leads
    back to itself, or, what is the same, in which the nonterminals can be ranked so that they
    lead to lower ones only. So it does with the grammars of programs and of parentheses, and
    every text is parsed to a result or to a report. -/
theorem search_ends :
    (∀ {ε σ : Type} (g : Grammar ε σ),
      ((∀ id, ¬TransGen g.Leads id id) ↔ ∃ rank, g.LeftRanked rank) ∧
      ∀ rank, g.LeftRanked rank → ∀ tokens, g.SearchEnds tokens) ∧
    (∀ tokens, Program.grammar.SearchEnds tokens) ∧
    (∀ tokens, Parentheses.grammar.SearchEnds tokens) ∧
    (∀ source, (∃ e, parseProgram source = .ok e) ∨
      ∃ d, parseProgram source = .error (.reported d)) ∧
    ∀ source, (∃ fired, parseParentheses source = .ok fired) ∨
      ∃ d, parseParentheses source = .error (.reported d) := by
  have hends {ε σ : Type} {g : Grammar ε σ} {rank : Nat → Nat} (h : g.LeftRanked rank)
      (tokens : List Token) : g.SearchEnds tokens :=
    Grammar.searchEnds_of_ne_none (Grammar.search_ne_none h tokens)
  refine ⟨fun g => ⟨Grammar.exists_leftRanked_iff.symm, fun rank => hends⟩,
    hends Program.leftRanked_height, hends Parentheses.leftRanked, fun source => ?_,
    parseParentheses_cases⟩
  rcases parseProgram_cases source with ⟨d, -, hparse⟩ | ⟨-, hparse⟩ |
    ⟨tokens, -, -, ⟨e, -, hparse⟩ | ⟨d, -, hparse⟩⟩
  · exact .inr ⟨d, hparse⟩
  · exact .inl ⟨_, hparse⟩
  · exact .inl ⟨e, hparse⟩
  · exact .inr ⟨d, hparse⟩

/-- The rules `S -> E t S`, `S -> E` and `E ->`: the nonterminal `S` comes back behind one that
    derives nothing, but not without a token in between. -/
theorem search_ends_behind_empty :
    let s : Symbol := .nonterminal 100
    let e : Symbol := .nonterminal 101
    let g : Grammar Empty Unit := .ofRules s
      [(Production.bare s [e, .terminal 1, s]).toRule, (Production.bare s [e]).toRule,
        (Production.bare e []).toRule]
    g.LeftRanked (101 - ·) ∧ ∀ tokens, g.SearchEnds tokens := by
  intro s e g
  have hrank : g.LeftRanked (101 - ·) := by
    refine Grammar.leftRanked_of_takeWhile ?_
    decide
  exact ⟨hrank, (search_ends.1 g).2 _ hrank⟩

end Frontend
