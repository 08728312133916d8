import Frontend.Parentheses
import Frontend.Proofs.Except
import Frontend.Proofs.Grammar.Forest
import Mathlib

/-!
# Actions

The search looks at the two sides of the rules only (`search_congr`), so the actions of a
grammar can be exchanged for others (`Grammar.withActions`) without a change to what is found
or reported. Actions that record their own calls would show in which order, and with which
tokens, the actions of an accepted derivation run: `parse_replays_tree` says that this is the
reverse of the preorder of a derivation tree of the tokens, each rule being given the first
token of its subtree or, if it has none, the token after it.
-/

namespace Frontend

/-- The part of a rule that the search looks at. -/
def Rule.sides {ε σ : Type} (r : Rule ε σ) : Symbol × List Symbol := (r.lhs, r.rhs)

namespace Grammar

variable {ε σ δ τ : Type} {g : Grammar ε σ} {g' : Grammar δ τ} {tokens : List Token}

/-! ## Grammars with the same sides -/

theorem boundary_congr {rules : List (Rule ε σ)} {rules' : List (Rule δ τ)} (n : Nat)
    (h : rules.map Rule.sides = rules'.map Rule.sides) : boundary n rules = boundary n rules' := by
  induction rules generalizing rules' with
  | nil =>
    obtain rfl := List.map_eq_nil_iff.1 h.symm
    rfl
  | cons r rs ih =>
    obtain ⟨r', rs', rfl, hr, hrs⟩ := List.map_eq_cons_iff.1 h.symm
    have hlhs : r'.lhs = r.lhs := congrArg Prod.fst hr
    rw [boundary, boundary, hlhs, ih hrs.symm]

/-- Tables with the same sides have the same alternatives for a symbol, at the same indices. -/
theorem alternatives_congr (h : g.rules.map Rule.sides = g'.rules.map Rule.sides) (s : Symbol) :
    (g.alternatives s).map (Prod.map Rule.rhs id) =
      (g'.alternatives s).map (Prod.map Rule.rhs id) := by
  have hrhs : g.rules.map Rule.rhs = g'.rules.map Rule.rhs := by
    simpa [Rule.sides, Function.comp_def] using congrArg (List.map Prod.snd) h
  simp only [alternatives, ← List.zipIdx_map, List.map_take, List.map_drop, hrhs,
    boundary_congr _ h]

theorem branches_congr (h : g.rules.map Rule.sides = g'.rules.map Rule.sides) (n : Node)
    (id : Nat) : g.branches n id = g'.branches n id := by
  have := congrArg (List.map fun r : List Symbol × Nat => n.expand r.2 r.1)
    (alternatives_congr h (.nonterminal id))
  rw [List.map_map, List.map_map] at this
  exact congrArg List.reverse this

theorem step_congr (h : g.rules.map Rule.sides = g'.rules.map Rule.sides) (n : Node) :
    g.step tokens.toArray n = g'.step tokens.toArray n := by
  unfold step
  split
  case h_5 id _ _ _ _ =>
    -- Only an expansion looks at the rules, and at nothing but their sides.
    have hb := branches_congr h n id
    have ha := alternatives_congr h (.nonterminal id)
    unfold branches at hb
    cases hr : g.alternatives (.nonterminal id) with
    | nil =>
      cases hr' : g'.alternatives (.nonterminal id) with
      | nil => rfl
      | cons r' rs' => simp [hr, hr'] at ha
    | cons r rs =>
      cases hr' : g'.alternatives (.nonterminal id) with
      | nil => simp [hr, hr'] at ha
      | cons r' rs' =>
        rw [hr, hr'] at hb
        exact congrArg Step.fork hb
  all_goals rfl

/-- A search with the same sides ends in the same way. -/
theorem explore_of_sides (h : g.rules.map Rule.sides = g'.rules.map Rule.sides)
    {worklist : List Node} {best : Option Node} {out : Outcome}
    (he : g.explore tokens.toArray worklist best = some out) :
    g'.explore tokens.toArray worklist best = some out := by
  refine explore.partial_correctness g tokens.toArray
    (fun worklist best out => g'.explore tokens.toArray worklist best = some out) ?_ _ _ _ he
  intro explore ih worklist best out he
  cases worklist with
  | nil =>
    rw [Grammar.explore]
    exact he
  | cons n rest =>
    rw [Grammar.explore, ← step_congr h]
    dsimp only at he
    split at he
    · exact he
    · exact ih _ _ _ he
    · exact ih _ _ _ he
    · exact ih _ _ _ he

/-- Grammars with the same start symbol and the same sides of rules search alike. -/
theorem search_congr (hstart : g.start = g'.start)
    (h : g.rules.map Rule.sides = g'.rules.map Rule.sides) :
    g.search tokens = g'.search tokens := by
  refine Option.ext fun out => ⟨fun he => ?_, fun he => ?_⟩
  · rw [search, ← hstart]
    exact explore_of_sides h he
  · rw [search, hstart]
    exact explore_of_sides h.symm he

/-! ## Other actions -/

/-- The grammar with the same rules but other actions, given by the indices of the rules. -/
def withActions (g : Grammar ε σ) (act : Nat → Token → τ → Except δ τ) : Grammar δ τ where
  start := g.start
  rules := g.rules.mapIdx fun i r => ⟨r.lhs, r.rhs, r.name, act i, r.diagnose⟩
  sorted := by
    refine List.pairwise_iff_getElem.2 fun i j hi hj hij => ?_
    rw [List.getElem_mapIdx, List.getElem_mapIdx]
    exact List.pairwise_iff_getElem.1 g.sorted i j (by simpa using hi) (by simpa using hj) hij

variable (act : Nat → Token → τ → Except δ τ)

/-- With other actions, the rules stay what they are otherwise. -/
theorem getElem?_withActions (i : Nat) :
    (g.withActions act).rules[i]? =
      g.rules[i]?.map fun r => ⟨r.lhs, r.rhs, r.name, act i, r.diagnose⟩ :=
  List.getElem?_mapIdx

/-- What is found does not depend on the actions. -/
theorem search_withActions : (g.withActions act).search tokens = g.search tokens := by
  refine search_congr rfl (List.ext_getElem? fun i => ?_)
  rw [List.getElem?_map, getElem?_withActions, List.getElem?_map, Option.map_map]
  rfl

/-- What is reported does not depend on the actions. -/
theorem diagnose_withActions (o : Origin) (furthest : Option Node) :
    (g.withActions act).diagnose o tokens furthest = g.diagnose o tokens furthest := by
  cases furthest with
  | none => rfl
  | some n =>
    cases ho : n.owner with
    | none => simp only [diagnose, ho, Option.bind_none]
    | some i =>
      cases hr : g.rules[i]? <;>
        simp only [diagnose, ho, Option.bind_some, getElem?_withActions, hr, Option.map_none,
          Option.map_some]

/-! ## Results of a parse -/

/-- After a search with success, the actions of the node that it found are replayed. -/
theorem parse_of_accepted {n : Node} (hne : tokens ≠ []) (h : g.search tokens = some (.accepted n))
    (o : Origin) (s : σ) :
    g.parse o tokens s = (g.replay tokens.toArray n.uses s).mapError .fault := by
  rw [parse, if_neg (by simpa using hne), h]

/-- After a search without success, the furthest dead end is reported. -/
theorem parse_of_rejected {furthest : Option Node} (hne : tokens ≠ [])
    (h : g.search tokens = some (.rejected furthest)) (o : Origin) (s : σ) :
    g.parse o tokens s = .error (.reported (g.diagnose o tokens furthest)) := by
  rw [parse, if_neg (by simpa using hne), h]

theorem parse_of_unfinished (hne : tokens ≠ []) (h : g.search tokens = none) (o : Origin)
    (s : σ) : g.parse o tokens s = .error .unfinished := by
  rw [parse, if_neg (by simpa using hne), h]

/-- A parse that gives a result has found a derivation. -/
theorem accepted_of_parse {o : Origin} {s s' : σ} (hne : tokens ≠ [])
    (h : g.parse o tokens s = .ok s') : ∃ n, g.search tokens = some (.accepted n) := by
  cases hs : g.search tokens with
  | none => simp [parse_of_unfinished hne hs] at h
  | some out =>
    cases out with
    | accepted n => exact ⟨n, rfl⟩
    | rejected furthest => simp [parse_of_rejected hne hs] at h

/-- A report comes from a search without success. -/
theorem rejected_of_parse {o : Origin} {s : σ} {d : Diagnostic} (hne : tokens ≠ [])
    (h : g.parse o tokens s = .error (.reported d)) :
    ∃ furthest, g.search tokens = some (.rejected furthest) ∧
      d = g.diagnose o tokens furthest := by
  cases hs : g.search tokens with
  | none => simp [parse_of_unfinished hne hs] at h
  | some out =>
    cases out with
    | accepted n =>
      rw [parse_of_accepted hne hs] at h
      obtain ⟨c, -, hc⟩ := mapError_eq_error_iff.1 h
      exact nomatch hc
    | rejected furthest =>
      rw [parse_of_rejected hne hs] at h
      simp only [Except.error.injEq, Halt.reported.injEq] at h
      exact ⟨furthest, rfl, h.symm⟩

/-! ## The order of the calls -/

/-- What the rule of index `i` does with a token. -/
def actionAt (g : Grammar ε σ) (i : Nat) (t : Token) (s : σ) : Except ε σ :=
  match g.rules[i]? with
  | some r => r.action t s
  | none => .ok s

theorem withActions_actionAt : g.withActions g.actionAt = g := by
  have hrules : (g.withActions g.actionAt).rules = g.rules := by
    refine List.ext_getElem? fun i => ?_
    rw [getElem?_withActions]
    cases hr : g.rules[i]? with
    | none => rfl
    | some r =>
      have hact : g.actionAt i = r.action := by
        funext t s
        rw [actionAt, hr]
      rw [Option.map_some, hact]
  cases g
  simpa only [withActions, mk.injEq, true_and] using hrules

/-- Running the actions of some uses calls them in order, each with the token at its
    position. -/
theorem replay_withActions {us : List Use} {calls : List (Nat × Token)}
    (hrules : ∀ u ∈ us, u.rule < g.rules.length)
    (hcalls : List.Forall₂ (fun u call => u.rule = call.1 ∧ tokens[u.position]? = some call.2)
      us calls) (s : τ) :
    (g.withActions act).replay tokens.toArray us s =
      calls.foldlM (fun s call => act call.1 call.2 s) s := by
  induction hcalls generalizing s with
  | nil => rfl
  | @cons u call us calls h _ ih =>
    obtain ⟨hu, hus⟩ := List.forall_mem_cons.1 hrules
    obtain ⟨hrule, htoken⟩ := h
    rw [List.foldlM_cons, replay, List.foldlM_cons]
    rw [getElem?_withActions, List.getElem?_eq_getElem hu, List.getElem?_toArray, htoken]
    rw [← hrule]
    exact bind_congr fun s => ih hus s

/-- Every use in a forest is of a rule of the table. -/
theorem Forest.rule_lt_length {ss : List Symbol} (f : Forest g ss) (c : Nat) :
    ∀ u ∈ f.preorder c, u.rule < g.rules.length := by
  induction f generalizing c with
  | nil => exact fun u hu => absurd hu List.not_mem_nil
  | leaf id rest ih => exact ih (c + 1)
  | node hi hid children rest ihc ih =>
    intro u hu
    rw [preorder, List.mem_cons, List.mem_append] at hu
    rcases hu with rfl | hu | hu
    · exact (List.getElem?_eq_some_iff.1 hi).1
    · exact ihc c u hu
    · exact ih _ u hu

/-- The tokens at given positions in range. -/
theorem exists_calls {us : List Use} (h : ∀ u ∈ us, u.position < tokens.length) :
    ∃ calls : List (Nat × Token),
      List.Forall₂ (fun u call => u.rule = call.1 ∧ tokens[u.position]? = some call.2)
        us calls := by
  induction us with
  | nil => exact ⟨[], .nil⟩
  | cons u us ih =>
    obtain ⟨hu, hus⟩ := List.forall_mem_cons.1 h
    obtain ⟨calls, hcalls⟩ := ih hus
    exact ⟨(u.rule, tokens[u.position]) :: calls, .cons ⟨rfl, List.getElem?_eq_getElem hu⟩ hcalls⟩

/-- The actions of an accepted derivation run in the reverse of the preorder of a derivation
    tree of the tokens, so each of them once, after those inside it and after those to the right
    of it. A rule is given the token at the number of leaves before its subtree: the first token
    of the subtree or, if it has no leaves, the token after it. There always is one. -/
theorem parse_replays_tree (g : Grammar ε σ) (o : Origin) (tokens : List Token) (s s' : σ)
    (hne : tokens ≠ []) (h : g.parse o tokens s = .ok s') :
    ∃ (tree : g.Tree g.start) (calls : List (Nat × Token)),
      tree.leaves = tokens.map Token.id ∧
      List.Forall₂ (fun u call => u.rule = call.1 ∧ tokens[u.position]? = some call.2)
        (tree.preorder 0).reverse calls ∧
      (∀ (o : Origin) (s : σ),
        g.parse o tokens s =
          (calls.foldlM (fun s call => g.actionAt call.1 call.2 s) s).mapError .fault) ∧
      ∀ {δ τ : Type} (act : Nat → Token → τ → Except δ τ) (o : Origin) (s : τ),
        (g.withActions act).parse o tokens s =
          (calls.foldlM (fun s call => act call.1 call.2 s) s).mapError .fault := by
  obtain ⟨n, hn⟩ := accepted_of_parse hne h
  -- The uses found are the preorder of a tree, each at a position before the end of the input.
  obtain ⟨us, hus, hrev⟩ := completes_of_accepted hn
  obtain ⟨tree, hleaves, rfl, hpos⟩ := hus.exists_forest
  rw [List.length_map, Nat.zero_add] at hpos
  obtain ⟨calls, hcalls⟩ :=
    exists_calls fun u hu => hpos u (List.mem_reverse.1 hu)
  have hparse : ∀ {δ τ : Type} (act : Nat → Token → τ → Except δ τ) (o : Origin) (s : τ),
      (g.withActions act).parse o tokens s =
        (calls.foldlM (fun s call => act call.1 call.2 s) s).mapError .fault := by
    intro δ τ act o s
    rw [parse_of_accepted hne ((search_withActions act).trans hn), hrev, replay_withActions act
      (fun u hu => tree.rule_lt_length 0 u (List.mem_reverse.1 hu)) hcalls]
  refine ⟨tree, calls, hleaves, hcalls, fun o s => ?_, hparse⟩
  -- The actions of the grammar itself are given by the indices of its rules, too.
  rw [← hparse g.actionAt o s, withActions_actionAt]

theorem parse_replays_tree_parentheses :
    let tokens : List Token := [⟨17, "(", ⟨0, 1⟩, .nowhere⟩, ⟨18, ")", ⟨1, 2⟩, .nowhere⟩]
    tokens ≠ [] ∧
      Parentheses.grammar.parse ⟨.unknown, "grammar"⟩ tokens [] =
        .ok ["Sequence ::= Nested", "Nested ::= ()"] ∧
      ∃ tree : Parentheses.grammar.Tree Parentheses.sequence, tree.leaves = [17, 18] := by
  intro tokens
  have hparse : Parentheses.grammar.parse ⟨.unknown, "grammar"⟩ tokens [] =
      .ok ["Sequence ::= Nested", "Nested ::= ()"] := by cbv
  refine ⟨List.cons_ne_nil _ _, hparse, ?_⟩
  obtain ⟨tree, _, hleaves, -⟩ :=
    parse_replays_tree Parentheses.grammar _ tokens [] _ (List.cons_ne_nil _ _) hparse
  exact ⟨tree, hleaves⟩

end Grammar

end Frontend
