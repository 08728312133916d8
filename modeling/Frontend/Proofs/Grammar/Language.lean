import Frontend.Parentheses
import Frontend.Proofs.Grammar.Actions
import Mathlib

/-!
# The language of a grammar

What `Grammar.parse` accepts, for any table of rules, in terms of derivations that know nothing
of the search:

* a *leftmost derivation* replaces the first nonterminal by the right-hand side of one of its
  rules, again and again. The search follows those that do so only while some token is not yet
  matched by the terminals in front (`LeftmostDerives`), so it misses a sentence only if an empty
  right-hand side has to be used after the last token;
* the *sentences* of a grammar are the words that it derives as a context-free grammar
  (`sentences`). Without empty right-hand sides these are the same, since every subtree of a
  derivation tree then has a leaf.

`parse_language` puts these together: if the search ends, the parse succeeds exactly for the
leftmost derivations, and if it fails, no action has been run.
-/

/-- The symbols of a context-free grammar with numbers for terminals and nonterminals. -/
abbrev ContextFreeGrammar.Numbered : Type := Symbol Nat Nat

namespace Frontend.Grammar

variable {ε σ : Type} {g : Grammar ε σ}

/-! ## Leftmost derivations -/

/-- One step of a leftmost derivation of `n` tokens: the first nonterminal is replaced, with
    fewer than `n` terminals in front of it. -/
inductive LeftStep (g : Grammar ε σ) (n : Nat) : List Symbol → List Symbol → Prop
  | replace {w : List Nat} {r : Rule ε σ} {ss : List Symbol} : r ∈ g.rules → w.length < n →
      LeftStep g n (w.map .terminal ++ .nonterminal r.lhs.id :: ss)
        (w.map .terminal ++ (r.rhs ++ ss))

/-- The start symbol derives `ids` by leftmost steps, each of them taken while some of `ids` is
    not yet matched. -/
def LeftmostDerives (g : Grammar ε σ) (ids : List Nat) : Prop :=
  Relation.ReflTransGen (g.LeftStep ids.length) [g.start] (ids.map .terminal)

/-- Pending terminals are matched one by one. -/
theorem completes_terminals_iff {c : Nat} {w ids : List Nat} {ss : List Symbol}
    {us : List Use} :
    g.Completes c ids (w.map .terminal ++ ss) us ↔
      ∃ rest, ids = w ++ rest ∧ g.Completes (c + w.length) rest ss us := by
  induction w generalizing c ids with
  | nil => simp
  | cons id w ih =>
    rw [List.map_cons, List.cons_append, completes_terminal_iff, List.length_cons]
    constructor
    · rintro ⟨rest, rfl, h⟩
      obtain ⟨rest, rfl, h⟩ := ih.1 h
      exact ⟨rest, rfl, by rwa [Nat.add_comm w.length, ← Nat.add_assoc]⟩
    · rintro ⟨rest, rfl, h⟩
      refine ⟨w ++ rest, rfl, ih.2 ⟨rest, rfl, ?_⟩⟩
      rwa [Nat.add_assoc, Nat.add_comm 1]

/-- Leftmost steps of a derivation of `n` tokens, with the indices of their rules. -/
inductive LeftSteps (g : Grammar ε σ) (n : Nat) :
    List Nat → List Symbol → List Symbol → Prop
  | refl {ss : List Symbol} : LeftSteps g n [] ss ss
  | replace {i : Nat} {is w : List Nat} {r : Rule ε σ} {ss ts : List Symbol} :
      g.rules[i]? = some r → w.length < n →
      LeftSteps g n is (w.map .terminal ++ (r.rhs ++ ss)) ts →
      LeftSteps g n (i :: is) (w.map .terminal ++ .nonterminal r.lhs.id :: ss) ts

/-- A leftmost derivation is one with some rules. -/
theorem leftSteps_iff {n : Nat} {ss ts : List Symbol} :
    Relation.ReflTransGen (g.LeftStep n) ss ts ↔ ∃ is, g.LeftSteps n is ss ts := by
  constructor
  · intro h
    induction h using Relation.ReflTransGen.head_induction_on with
    | refl => exact ⟨[], .refl⟩
    | head hstep _ ih =>
      obtain ⟨is, his⟩ := ih
      obtain ⟨hr, hlt⟩ := hstep
      obtain ⟨i, hi⟩ := List.mem_iff_getElem?.1 hr
      exact ⟨i :: is, .replace hi hlt his⟩
  · rintro ⟨is, h⟩
    induction h with
    | refl => exact .refl
    | replace hi hlt _ ih => exact .head (.replace (List.mem_of_getElem? hi) hlt) ih

/-- The rules of a leftmost derivation of some tokens complete it. -/
theorem LeftSteps.exists_completes {ids is : List Nat} {ss : List Symbol}
    (h : g.LeftSteps ids.length is ss (ids.map .terminal)) :
    ∃ us, g.Completes 0 ids ss us ∧ us.map Use.rule = is := by
  generalize hts : ids.map Symbol.terminal = ts at h
  induction h with
  | refl =>
    subst hts
    refine ⟨[], ?_, rfl⟩
    rw [← List.append_nil (ids.map Symbol.terminal), completes_terminals_iff]
    exact ⟨[], (List.append_nil ids).symm, .done⟩
  | @replace i is w r ss ts hi hlt _ ih =>
    obtain ⟨us, hus, rfl⟩ := ih hts
    obtain ⟨rest, rfl, hrest⟩ := completes_terminals_iff.1 hus
    have hne : rest ≠ [] := by
      rintro rfl
      simp at hlt
    exact ⟨_, completes_terminals_iff.2 ⟨rest, rfl, .expand hne hi rfl hrest⟩, rfl⟩

/-- What is completed is derived step by step, behind any tokens that are there already. -/
theorem Completes.leftSteps {c : Nat} {ids : List Nat} {ss : List Symbol} {us : List Use}
    (h : g.Completes c ids ss us) (w : List Nat) :
    g.LeftSteps (w ++ ids).length (us.map Use.rule) (w.map .terminal ++ ss)
      ((w ++ ids).map .terminal) := by
  induction h generalizing w with
  | done =>
    rw [List.append_nil, List.append_nil]
    exact .refl
  | @shift c id ids ss us _ ih =>
    -- A terminal that is matched stays, in front of the symbols that are still replaced.
    have := ih (w ++ [id])
    rw [List.map_append, List.append_assoc, List.append_assoc] at this
    exact this
  | @expand c i id r ids ss us hne hi hid _ ih =>
    subst hid
    refine .replace hi ?_ (ih w)
    rw [List.length_append]
    exact Nat.lt_add_of_pos_right (List.length_pos_iff.2 hne)

/-- The start symbol derives `ids` by leftmost steps with the rules of the given indices, each of
    them taken while some of `ids` is not yet matched. -/
def DerivesBy (g : Grammar ε σ) (is ids : List Nat) : Prop :=
  g.LeftSteps ids.length is [g.start] (ids.map .terminal)

/-- The search follows exactly the leftmost derivations, rule by rule. -/
theorem derivesBy_iff {ids is : List Nat} :
    g.DerivesBy is ids ↔ ∃ us, g.Completes 0 ids [g.start] us ∧ us.map Use.rule = is := by
  constructor
  · exact LeftSteps.exists_completes
  · rintro ⟨us, hus, rfl⟩
    exact hus.leftSteps []

/-- The tokens that are derived are those that can be completed from the start symbol. -/
theorem leftmostDerives_iff {ids : List Nat} :
    g.LeftmostDerives ids ↔ ∃ us, g.Completes 0 ids [g.start] us := by
  rw [LeftmostDerives, leftSteps_iff]
  constructor
  · rintro ⟨is, his⟩
    obtain ⟨us, hus, -⟩ := derivesBy_iff.1 his
    exact ⟨us, hus⟩
  · rintro ⟨us, hus⟩
    exact ⟨_, derivesBy_iff.2 ⟨us, hus, rfl⟩⟩

/-! ## Sentences -/

/-- A symbol of a rule table as a symbol of a context-free grammar. -/
def toNumbered : Symbol → ContextFreeGrammar.Numbered
  | .terminal id => .terminal id
  | .nonterminal id => .nonterminal id

/-- No two symbols become the same symbol of the context-free grammar. -/
theorem toNumbered_injective : Function.Injective toNumbered := by
  intro s s' h
  cases s <;> cases s' <;> cases h <;> rfl

/-- A rule of a table as a rule of a context-free grammar. -/
def toContextFreeRule (r : Rule ε σ) : ContextFreeRule Nat Nat :=
  ⟨r.lhs.id, r.rhs.map toNumbered⟩

/-- The context-free grammar of a table of rules. -/
abbrev toContextFree (g : Grammar ε σ) : ContextFreeGrammar Nat where
  NT := Nat
  initial := g.start.id
  rules := (g.rules.map toContextFreeRule).toFinset

/-- The sentences of a grammar: the words that derive from its start symbol, which may be a
    terminal. -/
def sentences (g : Grammar ε σ) : Language Nat :=
  {w | g.toContextFree.Derives [toNumbered g.start] (w.map .terminal)}

/-- A rule of the table is a production of the context-free grammar. -/
theorem produces_of_rule {r : Rule ε σ} (hr : r ∈ g.rules) :
    g.toContextFree.Produces [.nonterminal r.lhs.id] (r.rhs.map toNumbered) := by
  refine ⟨toContextFreeRule r, ?_, ContextFreeRule.Rewrites.input_output⟩
  exact List.mem_toFinset.2 (List.mem_map_of_mem hr)

/-- The leaves of a forest derive from its roots. -/
theorem Forest.derives {ss : List Symbol} (f : Forest g ss) :
    g.toContextFree.Derives (ss.map toNumbered) (f.leaves.map .terminal) := by
  induction f with
  | nil => exact .refl _
  | leaf id rest ih => exact ih.append_left [.terminal id]
  | @node i id r ss hi hid children rest ihc ih =>
    subst hid
    rw [leaves, List.map_append]
    have hstep := (produces_of_rule (List.mem_of_getElem? hi)).append_right (ss.map toNumbered)
    have hchildren := ihc.append_right (ss.map toNumbered)
    exact hstep.trans_derives (hchildren.trans (ih.append_left (children.leaves.map .terminal)))

/-- The forest of some terminals. -/
def Forest.ofLeaves (g : Grammar ε σ) : (w : List Nat) → Forest g (w.map .terminal)
  | [] => .nil
  | id :: w => .leaf id (ofLeaves g w)

theorem Forest.leaves_ofLeaves (w : List Nat) : (ofLeaves g w).leaves = w := by
  induction w with
  | nil => rfl
  | cons id w ih => rw [ofLeaves, leaves, ih]

/-- A forest for the symbols after a replacement gives one for the symbols before it. -/
theorem Forest.exists_of_produces {ss : List Symbol} {v : List ContextFreeGrammar.Numbered}
    (h : g.toContextFree.Produces (ss.map toNumbered) v) :
    ∃ ts, v = ts.map toNumbered ∧
      ∀ f : Forest g ts, ∃ f' : Forest g ss, f'.leaves = f.leaves := by
  obtain ⟨r', hr', hrewrite⟩ := h
  obtain ⟨r, hr, rfl⟩ := List.mem_map.1 (List.mem_toFinset.1 hr')
  obtain ⟨i, hi⟩ := List.mem_iff_getElem?.1 hr
  obtain ⟨p, q, hss, rfl⟩ := hrewrite.exists_parts
  obtain ⟨ss₁, ss₃, rfl, hp, rfl⟩ := List.map_eq_append_iff.1 hss
  obtain ⟨ss₁, ss₂, rfl, rfl, hmid⟩ := List.map_eq_append_iff.1 hp
  obtain ⟨s, rfl, hs⟩ := List.map_eq_singleton_iff.1 hmid
  obtain rfl : s = .nonterminal r.lhs.id := toNumbered_injective hs
  refine ⟨ss₁ ++ r.rhs ++ ss₃, by simp [toContextFreeRule], fun f => ?_⟩
  -- The trees of the right-hand side become the children of one new node.
  obtain ⟨f₁₂, f₃, rfl⟩ := f.exists_eq_append
  obtain ⟨f₁, f₂, rfl⟩ := f₁₂.exists_eq_append
  refine ⟨(f₁.append (.node hi rfl f₂ .nil)).append f₃, ?_⟩
  simp [leaves]

/-- What derives from some symbols is the leaves of a forest with these roots. -/
theorem Forest.exists_of_derives {ss : List Symbol} {w : List Nat}
    (h : g.toContextFree.Derives (ss.map toNumbered) (w.map .terminal)) :
    ∃ f : Forest g ss, f.leaves = w := by
  generalize hv : ss.map toNumbered = v at h
  induction h using Relation.ReflTransGen.head_induction_on generalizing ss with
  | refl =>
    obtain rfl : ss = w.map .terminal := by
      refine List.map_injective_iff.2 toNumbered_injective (hv.trans ?_)
      rw [List.map_map]
      rfl
    exact ⟨ofLeaves g w, leaves_ofLeaves w⟩
  | head hstep _ ih =>
    subst hv
    obtain ⟨ts, rfl, hts⟩ := exists_of_produces hstep
    obtain ⟨f, rfl⟩ := ih rfl
    exact hts f

/-- The sentences are the leaves of the derivation trees. -/
theorem mem_sentences_iff {w : List Nat} :
    w ∈ g.sentences ↔ ∃ tree : g.Tree g.start, tree.leaves = w := by
  change g.toContextFree.Derives ([g.start].map toNumbered) _ ↔ _
  constructor
  · exact Forest.exists_of_derives
  · rintro ⟨tree, rfl⟩
    exact tree.derives

/-- Without empty right-hand sides, exactly the sentences have a leftmost derivation that expands a
    symbol only while tokens remain. -/
theorem leftmostDerives_iff_mem_sentences (hrhs : ∀ r ∈ g.rules, r.rhs ≠ []) {ids : List Nat} :
    g.LeftmostDerives ids ↔ ids ∈ g.sentences := by
  rw [leftmostDerives_iff, mem_sentences_iff]
  constructor
  · rintro ⟨us, hus⟩
    obtain ⟨tree, hleaves, -⟩ := hus.exists_forest
    exact ⟨tree, hleaves⟩
  · rintro ⟨tree, rfl⟩
    -- Every subtree has a leaf, so no rule is used after the last token.
    exact ⟨_, completes_iff_forest.2 ⟨tree, rfl, rfl, tree.position_lt hrhs 0⟩⟩

/-! ## What is accepted -/

/-- The parse gets to run the actions of a derivation: it ends with their result, or with the
    fault of one of them. -/
def Accepts (g : Grammar ε σ) (o : Origin) (tokens : List Token) (s : σ) : Prop :=
  ∃ result : Except ε σ, g.parse o tokens s = result.mapError .fault

/-- No action fails. -/
def Faultless (g : Grammar ε σ) : Prop := ∀ r ∈ g.rules, ∀ t s, ∃ s', r.action t s = .ok s'

variable {o : Origin} {tokens : List Token} {s : σ}

/-- Whether tokens are accepted depends on the search alone, and not on the actions. -/
theorem accepts_iff_search (hne : tokens ≠ []) :
    g.Accepts o tokens s ↔ ∃ n, g.search tokens = some (.accepted n) := by
  constructor
  · rintro ⟨result, h⟩
    cases hs : g.search tokens with
    | none =>
      rw [parse_of_unfinished hne hs] at h
      obtain ⟨c, -, hc⟩ := mapError_eq_error_iff.1 h.symm
      exact nomatch hc
    | some out =>
      cases out with
      | accepted n => exact ⟨n, rfl⟩
      | rejected furthest =>
        rw [parse_of_rejected hne hs] at h
        obtain ⟨c, -, hc⟩ := mapError_eq_error_iff.1 h.symm
        exact nomatch hc
  · rintro ⟨n, hn⟩
    exact ⟨_, parse_of_accepted hne hn o s⟩

/-- If the search ends, the accepted tokens are those that are derived. -/
theorem accepts_iff_leftmostDerives (hne : tokens ≠ []) (hends : g.search tokens ≠ none) :
    g.Accepts o tokens s ↔ g.LeftmostDerives (tokens.map Token.id) := by
  rw [accepts_iff_search hne, leftmostDerives_iff]
  constructor
  · rintro ⟨n, hn⟩
    obtain ⟨us, hus, -⟩ := completes_of_accepted hn
    exact ⟨us, hus⟩
  · rintro ⟨us, hus⟩
    cases hs : g.search tokens with
    | none => exact absurd hs hends
    | some out =>
      cases out with
      | accepted n => exact ⟨n, rfl⟩
      | rejected furthest => exact absurd hus (not_completes_of_rejected hs us)

/-- If the search ends and the tokens are not accepted, a diagnostic is reported. -/
theorem exists_report (hne : tokens ≠ []) (hends : g.search tokens ≠ none)
    (h : ¬g.Accepts o tokens s) : ∃ d, g.parse o tokens s = .error (.reported d) := by
  cases hs : g.search tokens with
  | none => exact absurd hs hends
  | some out =>
    cases out with
    | accepted n => exact absurd ((accepts_iff_search hne).2 ⟨n, hs⟩) h
    | rejected furthest => exact ⟨_, parse_of_rejected hne hs o s⟩

/-- Actions without faults can be replayed for any uses of rules. -/
theorem Faultless.replay (hg : g.Faultless) (tokens : List Token) (us : List Use) (s : σ) :
    ∃ s', g.replay tokens.toArray us s = .ok s' := by
  induction us generalizing s with
  | nil => exact ⟨s, rfl⟩
  | cons u us ih =>
    rw [Grammar.replay, List.foldlM_cons]
    cases hr : g.rules[u.rule]? with
    | none => exact ih s
    | some r =>
      cases ht : tokens.toArray[u.position]? with
      | none => exact ih s
      | some t =>
        obtain ⟨s₁, hs₁⟩ := hg r (List.mem_of_getElem? hr) t s
        obtain ⟨s₂, hs₂⟩ := ih s₁
        refine ⟨s₂, ?_⟩
        simp only [hs₁]
        exact hs₂

/-- With actions that have no faults, accepted tokens are parsed. -/
theorem Faultless.accepts_iff (hg : g.Faultless) (hne : tokens ≠ []) :
    g.Accepts o tokens s ↔ ∃ s', g.parse o tokens s = .ok s' := by
  constructor
  · intro h
    obtain ⟨n, hn⟩ := (accepts_iff_search hne).1 h
    obtain ⟨s', hs'⟩ := hg.replay tokens n.uses s
    refine ⟨s', ?_⟩
    rw [parse_of_accepted hne hn, hs']
    rfl
  · rintro ⟨s', h⟩
    exact ⟨.ok s', h⟩

/-- If the search ends, the parse succeeds exactly if there is a leftmost derivation of the
    tokens that uses no rule after the last token, i.e., without empty right-hand sides, exactly
    for the sentences of the grammar. Actions that cannot fail then give a result. If the tokens
    are reported instead, they are so whatever the actions are and whatever they are to be run
    on: none of them has been run. -/
theorem parse_language (g : Grammar ε σ) (o : Origin) (tokens : List Token) (s : σ)
    (hne : tokens ≠ []) (hends : g.search tokens ≠ none) :
    (g.Accepts o tokens s ↔ g.LeftmostDerives (tokens.map Token.id)) ∧
    ((∀ r ∈ g.rules, r.rhs ≠ []) →
      (g.Accepts o tokens s ↔ tokens.map Token.id ∈ g.sentences)) ∧
    (g.Faultless → (g.Accepts o tokens s ↔ ∃ s', g.parse o tokens s = .ok s')) ∧
    (¬g.Accepts o tokens s → ∃ d, g.parse o tokens s = .error (.reported d)) ∧
    ∀ d, g.parse o tokens s = .error (.reported d) →
      ∀ {δ τ : Type} (act : Nat → Token → τ → Except δ τ) (s₀ : τ),
        (g.withActions act).parse o tokens s₀ = .error (.reported d) := by
  refine ⟨accepts_iff_leftmostDerives hne hends, fun hrhs => ?_, fun hg => hg.accepts_iff hne,
    exists_report hne hends, fun d hd δ τ act s₀ => ?_⟩
  · rw [accepts_iff_leftmostDerives hne hends, leftmostDerives_iff_mem_sentences hrhs]
  · obtain ⟨furthest, hs, rfl⟩ := rejected_of_parse hne hd
    rw [parse_of_rejected hne ((search_withActions act).trans hs), diagnose_withActions]

theorem parse_language_parentheses :
    let tokens : List Token := [⟨17, "(", ⟨0, 1⟩, .nowhere⟩, ⟨18, ")", ⟨1, 2⟩, .nowhere⟩]
    tokens ≠ [] ∧ Parentheses.grammar.search tokens ≠ none ∧
      (Parentheses.grammar.Accepts ⟨.unknown, "grammar"⟩ tokens [] ↔
        Parentheses.grammar.LeftmostDerives [17, 18]) := by
  intro tokens
  have hends : Parentheses.grammar.search tokens ≠ none := by
    cbv
    exact Option.some_ne_none _
  refine ⟨List.cons_ne_nil _ _, hends, ?_⟩
  exact (parse_language Parentheses.grammar _ tokens [] (List.cons_ne_nil _ _) hends).1

end Frontend.Grammar
