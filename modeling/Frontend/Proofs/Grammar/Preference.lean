import Frontend.Proofs.Grammar.Language

/-!
# The preferred derivation

If a grammar is ambiguous, the search finds one derivation of several. A derivation is told from
the others by the indices of its rules: of two leftmost derivations of the same tokens, neither
goes on where the other one ends, so there is a first step at which they use different rules. The
one that uses the rule with the greater index there *outranks* the other one, and the derivation
that is found outranks all others (`parse_prefers_later_rules`).

The alternatives for a nonterminal are tried from the last one of the table on, and the worklist
is a stack. So everything that can become of a node is settled before the next node is looked at:
what is accepted is the best way to finish the first node of the worklist that can be finished at
all (`Chosen`). Every step of the search keeps this, since a node is finished best by the best
way to finish the first of its branches that can be finished (`chosen_fork`).
-/

namespace Frontend.Grammar

variable {ε σ : Type} {g : Grammar ε σ} {tokens : List Token} {n : Node}

/-- Where the two sequences of rules first differ, they use rules for the same symbol, the first
    one with the greater index. -/
def Outranks (g : Grammar ε σ) (is is' : List Nat) : Prop :=
  ∃ before i i' after after' r r', is = before ++ i :: after ∧ is' = before ++ i' :: after' ∧
    i' < i ∧ g.rules[i]? = some r ∧ g.rules[i']? = some r' ∧ r'.lhs.id = r.lhs.id

theorem Outranks.cons {is is' : List Nat} (h : g.Outranks is is') (i : Nat) :
    g.Outranks (i :: is) (i :: is') := by
  obtain ⟨before, j, j', after, after', r, r', rfl, rfl, hrules⟩ := h
  exact ⟨i :: before, j, j', after, after', r, r', rfl, rfl, hrules⟩

/-- What outranks another sequence is greater in the lexicographical order. -/
theorem Outranks.lt {is is' : List Nat} (h : g.Outranks is is') : is' < is := by
  obtain ⟨before, i, i', after, after', -, -, rfl, rfl, hlt, -⟩ := h
  exact List.Lex.append_left _ (.rel hlt) before

/-! ## The best completion -/

/-- The uses `us` complete a derivation, and outrank all other ways to complete it. -/
structure Best (g : Grammar ε σ) (c : Nat) (ids : List Nat) (ss : List Symbol) (us : List Use) :
    Prop where
  completes : g.Completes c ids ss us
  outranks : ∀ us', g.Completes c ids ss us' →
    us' = us ∨ g.Outranks (us.map Use.rule) (us'.map Use.rule)

namespace Best

variable {c : Nat} {ids : List Nat} {ss : List Symbol} {us : List Use}

theorem nil : g.Best c [] [] [] where
  completes := .done
  outranks _ h := .inl (completes_nil_iff.1 h).2

/-- The best way behind a token is the best way with it. -/
theorem terminal (h : g.Best (c + 1) ids ss us) (id : Nat) :
    g.Best c (id :: ids) (.terminal id :: ss) us where
  completes := .shift h.completes
  outranks us' h' := by
    cases h' with
    | shift h' => exact h.outranks us' h'

/-- A nonterminal is completed best by the last of its rules with which it can be completed. -/
theorem nonterminal {i : Nat} {r : Rule ε σ} (hne : ids ≠ []) (hi : g.rules[i]? = some r)
    (h : g.Best c ids (r.rhs ++ ss) us)
    (hlater : ∀ j r', i < j → g.rules[j]? = some r' → r'.lhs.id = r.lhs.id →
      ∀ us', ¬g.Completes c ids (r'.rhs ++ ss) us') :
    g.Best c ids (.nonterminal r.lhs.id :: ss) (⟨i, c⟩ :: us) where
  completes := .expand hne hi rfl h.completes
  outranks us' hus' := by
    obtain ⟨-, j, r', us', hj, hid, rfl, h'⟩ := completes_nonterminal_iff.1 hus'
    rcases Nat.lt_trichotomy j i with hlt | rfl | hgt
    · exact .inr ⟨[], i, j, _, _, r, r', rfl, rfl, hlt, hi, hj, hid⟩
    · obtain rfl : r' = r := Option.some.inj (hj.symm.trans hi)
      rcases h.outranks us' h' with rfl | hout
      · exact .inl rfl
      · exact .inr (hout.cons j)
    · exact absurd h' (hlater j r' hgt hj hid us')

end Best

/-! ## The worklist -/

/-- A node finishes best with the uses `us`, the latest first. -/
def Wins (g : Grammar ε σ) (tokens : List Token) (n : Node) (us : List Use) : Prop :=
  ∃ later, g.Best n.cursor (n.remaining tokens) n.pending later ∧ us = later.reverse ++ n.uses

/-- The uses are the best way to finish the first node that can be finished. -/
inductive Chosen (g : Grammar ε σ) (tokens : List Token) : List Node → List Use → Prop
  | first {n : Node} {rest : List Node} {us : List Use} :
      g.Wins tokens n us → Chosen g tokens (n :: rest) us
  | skip {n : Node} {rest : List Node} {us : List Use} :
      (∀ us', ¬g.Finishes tokens n us') → Chosen g tokens rest us →
      Chosen g tokens (n :: rest) us

/-- The best way to finish a node is the best way behind its next token. -/
theorem wins_of_shift {ss : List Symbol} {t : Token} {us : List Use}
    (hp : n.pending = .terminal t.id :: ss) (ht : tokens[n.cursor]? = some t)
    (h : g.Wins tokens n.shift us) : g.Wins tokens n us := by
  obtain ⟨later, hlater, rfl⟩ := h
  refine ⟨later, ?_, by rw [Node.uses_shift]⟩
  rw [Node.pending_shift, hp] at hlater
  rw [hp, Node.remaining_shift ht]
  exact hlater.terminal t.id

/-- What is chosen among some nodes and others behind them: the best way to finish one of the
    first, before which there is none that can be finished, or else what is chosen among the
    others. -/
theorem Chosen.append_cases {ms rest : List Node} {us : List Use}
    (h : g.Chosen tokens (ms ++ rest) us) :
    (∃ before m after, ms = before ++ m :: after ∧ g.Wins tokens m us ∧
      ∀ b ∈ before, ∀ us', ¬g.Finishes tokens b us') ∨
    (∀ m ∈ ms, ∀ us', ¬g.Finishes tokens m us') ∧ g.Chosen tokens rest us := by
  induction ms with
  | nil => exact .inr ⟨nofun, h⟩
  | cons m ms ih =>
    cases h with
    | first hm => exact .inl ⟨[], m, ms, rfl, hm, nofun⟩
    | skip hm h =>
      rcases ih h with ⟨before, m', after, rfl, hwins, hbefore⟩ | ⟨hms, hrest⟩
      · exact .inl ⟨m :: before, m', after, rfl, hwins, List.forall_mem_cons.2 ⟨hm, hbefore⟩⟩
      · exact .inr ⟨List.forall_mem_cons.2 ⟨hm, hms⟩, hrest⟩

/-- The branches before one of them are those of the rules with greater indices. -/
theorem mem_of_branches_eq {id i j : Nat} {rhs : List Symbol} {r : Rule ε σ}
    {before after : List Node} (h : g.branches n id = before ++ n.expand i rhs :: after)
    (hlt : i < j) (hj : g.rules[j]? = some r) (hid : r.lhs.id = id) :
    n.expand j r.rhs ∈ before := by
  rw [branches, ← List.map_reverse] at h
  obtain ⟨as, bs, hparts, rfl, hbs⟩ := List.map_eq_append_iff.1 h
  obtain ⟨a, cs, rfl, ha, -⟩ := List.map_eq_cons_iff.1 hbs
  have hai : a.2 = i := congrArg Use.rule (List.cons.inj (congrArg Node.uses ha)).1
  have hsorted := List.pairwise_reverse.2 (g.pairwise_alternatives (.nonterminal id))
  rw [hparts, List.pairwise_append, List.pairwise_cons] at hsorted
  have hmem : (r, j) ∈ (g.alternatives (.nonterminal id)).reverse :=
    List.mem_reverse.2 (mem_alternatives.2 ⟨hj, hid⟩)
  rw [hparts, List.mem_append, List.mem_cons] at hmem
  rcases hmem with hmem | rfl | hmem
  · exact List.mem_map_of_mem (f := fun r => n.expand r.2 r.1.rhs) hmem
  · exact absurd hai (Nat.ne_of_gt hlt)
  · have : j < a.2 := hsorted.2.1.1 _ hmem
    omega

/-- The best way to finish a node is that of its first branch that can be finished. -/
theorem wins_of_branch {id : Nat} {ss : List Symbol} {t : Token} {us : List Use}
    {before after : List Node} {m : Node} (hp : n.pending = .nonterminal id :: ss)
    (ht : tokens[n.cursor]? = some t) (hb : g.branches n id = before ++ m :: after)
    (hm : g.Wins tokens m us) (hbefore : ∀ b ∈ before, ∀ us', ¬g.Finishes tokens b us') :
    g.Wins tokens n us := by
  obtain ⟨i, r, hi, rfl, rfl⟩ : ∃ i r, g.rules[i]? = some r ∧ r.lhs.id = id ∧
      m = n.expand i r.rhs := mem_branches.1 (by simp [hb])
  obtain ⟨later, hlater, rfl⟩ := hm
  rw [Node.remaining_expand, Node.cursor_expand, Node.pending_expand, hp, List.tail_cons]
    at hlater
  refine ⟨⟨i, n.cursor⟩ :: later, ?_, by simp⟩
  rw [hp]
  refine hlater.nonterminal ?_ hi fun j r' hlt hj hid us' hus' => ?_
  · rw [Node.remaining_eq_cons ht]
    exact List.cons_ne_nil _ _
  · -- A rule with a greater index would have been tried before.
    refine hbefore _ (mem_of_branches_eq hb hlt hj hid) (us'.reverse ++ _) ⟨us', ?_, rfl⟩
    rwa [Node.remaining_expand, Node.cursor_expand, Node.pending_expand, hp, List.tail_cons]

theorem chosen_fork {id : Nat} {ss : List Symbol} {t : Token} {us : List Use} {rest : List Node}
    (hp : n.pending = .nonterminal id :: ss) (ht : tokens[n.cursor]? = some t)
    (h : g.Chosen tokens (g.branches n id ++ rest) us) : g.Chosen tokens (n :: rest) us := by
  rcases h.append_cases with ⟨before, m, after, hb, hwins, hbefore⟩ | ⟨hnone, hrest⟩
  · exact .first (wins_of_branch hp ht hb hwins hbefore)
  · refine .skip (fun us' hus' => ?_) hrest
    obtain ⟨m, hm, hfinishes⟩ := (finishes_fork_iff hp ht).1 hus'
    exact hnone m hm us' hfinishes

/-- A search accepts what is chosen from its worklist. -/
theorem chosen_of_explore {worklist : List Node} {best : Option Node} {out : Outcome}
    (h : g.explore tokens.toArray worklist best = some out) :
    ∀ n, out = .accepted n → g.Chosen tokens worklist n.uses := by
  refine explore_induction
    (motive := fun worklist _ out => ∀ n, out = .accepted n → g.Chosen tokens worklist n.uses)
    ?empty ?accept ?dead ?shift ?fork h
  case empty => exact fun best n hn => nomatch hn
  case accept =>
    rintro n rest best hp hc _ ⟨⟩
    refine .first ⟨[], ?_, rfl⟩
    rw [hp, Node.remaining_eq_nil_iff.2 hc]
    exact .nil
  case dead =>
    intro n rest best out hs ih m hm
    exact .skip (fun us => not_finishes_of_dead hs) (ih m hm)
  case shift =>
    intro n rest best out t ss hp ht ih m hm
    cases ih m hm with
    | first hwins => exact .first (wins_of_shift hp ht hwins)
    | skip hnot hrest =>
      exact .skip (fun us hus => hnot us ((finishes_shift_iff hp ht).1 hus)) hrest
  case fork =>
    intro n rest best out t id ss hp ht _ ih m hm
    exact chosen_fork hp ht (ih m hm)

/-- An accepted node has used the rules of the best derivation, the latest first. -/
theorem best_of_accepted (h : g.search tokens = some (.accepted n)) :
    ∃ us, g.Best 0 (tokens.map Token.id) [g.start] us ∧ n.uses = us.reverse := by
  cases chosen_of_explore h n rfl with
  | first hwins =>
    obtain ⟨us, hus, hn⟩ := hwins
    rw [remaining_initial] at hus
    exact ⟨us, hus, hn.trans (List.append_nil _)⟩
  | skip _ hrest => exact nomatch hrest

/-! ## What is replayed -/

/-- The actions of an accepted derivation are called for its uses, the last one first. -/
theorem exists_calls_of_accepted (hne : tokens ≠ []) (h : g.search tokens = some (.accepted n)) :
    ∃ calls : List (Nat × Token), calls.map Prod.fst = n.uses.map Use.rule ∧
      ∀ {δ τ : Type} (act : Nat → Token → τ → Except δ τ) (o : Origin) (s : τ),
        (g.withActions act).parse o tokens s =
          (calls.foldlM (fun s call => act call.1 call.2 s) s).mapError .fault := by
  obtain ⟨us, hus, hrev⟩ := completes_of_accepted h
  obtain ⟨tree, -, rfl, hpos⟩ := hus.exists_forest
  rw [List.length_map, Nat.zero_add] at hpos
  obtain ⟨calls, hcalls⟩ := exists_calls fun u hu => hpos u (List.mem_reverse.1 hu)
  refine ⟨calls, ?_, fun act o s => ?_⟩
  · rw [hrev, ← List.forall₂_eq_eq_eq, List.forall₂_map_left_iff, List.forall₂_map_right_iff]
    exact hcalls.flip.imp fun call u hu => hu.1.symm
  · rw [parse_of_accepted hne ((search_withActions act).trans h), hrev, replay_withActions act
      (fun u hu => tree.rule_lt_length 0 u (List.mem_reverse.1 hu)) hcalls]

/-- The actions that run are those of a leftmost derivation that outranks all others of the same
    tokens. Where they first differ, it uses the rule that was added later. -/
theorem parse_prefers_later_rules (g : Grammar ε σ) (o : Origin) (tokens : List Token) (s : σ)
    (hne : tokens ≠ []) (h : g.Accepts o tokens s) :
    ∃ (is : List Nat) (calls : List (Nat × Token)),
      calls.map Prod.fst = is.reverse ∧
      (∀ (o : Origin) (s : σ), g.parse o tokens s =
        (calls.foldlM (fun s call => g.actionAt call.1 call.2 s) s).mapError .fault) ∧
      (∀ {δ τ : Type} (act : Nat → Token → τ → Except δ τ) (o : Origin) (s : τ),
        (g.withActions act).parse o tokens s =
          (calls.foldlM (fun s call => act call.1 call.2 s) s).mapError .fault) ∧
      IsGreatest {is | g.DerivesBy is (tokens.map Token.id)} is ∧
      ∀ is', g.DerivesBy is' (tokens.map Token.id) → is' ≠ is →
        ∃ before i i' after after' r r',
          is = before ++ i :: after ∧ is' = before ++ i' :: after' ∧ i' < i ∧
          g.rules[i]? = some r ∧ g.rules[i']? = some r' ∧ r'.lhs.id = r.lhs.id ∧
          ∀ added, g = .ofRules g.start added → [r', r].Sublist added := by
  obtain ⟨n, hn⟩ := (accepts_iff_search hne).1 h
  obtain ⟨us, hbest, hrev⟩ := best_of_accepted hn
  obtain ⟨calls, hcalls, hparse⟩ := exists_calls_of_accepted hne hn
  have hderives : g.DerivesBy (us.map Use.rule) (tokens.map Token.id) :=
    derivesBy_iff.2 ⟨us, hbest.completes, rfl⟩
  have houtranks : ∀ is', g.DerivesBy is' (tokens.map Token.id) → is' ≠ us.map Use.rule →
      g.Outranks (us.map Use.rule) is' := by
    intro is' his' hdiff
    obtain ⟨us', hus', rfl⟩ := derivesBy_iff.1 his'
    rcases hbest.outranks us' hus' with rfl | hout
    · exact absurd rfl hdiff
    · exact hout
  refine ⟨us.map Use.rule, calls, ?_, fun o s => ?_, hparse, ⟨hderives, fun is' his' => ?_⟩,
    fun is' his' hdiff => ?_⟩
  · rw [hcalls, hrev, List.map_reverse]
  · rw [← hparse g.actionAt o s, withActions_actionAt]
  · rcases eq_or_ne is' (us.map Use.rule) with rfl | hdiff
    · exact le_rfl
    · exact (houtranks is' his' hdiff).lt.le
  · obtain ⟨before, i, i', after, after', r, r', heq, heq', hlt, hr, hr', hlhs⟩ :=
      houtranks is' his' hdiff
    refine ⟨before, i, i', after, after', r, r', heq, heq', hlt, hr, hr', hlhs, ?_⟩
    intro added hadded
    rw [hadded] at hr hr'
    exact sublist_added hr hr' hlhs hlt

/-- Two derivations of `(`, by `S -> A` and by `S -> B`, of which the second one is replayed. -/
theorem parse_prefers_later_rules_ambiguous :
    let s : Symbol := .nonterminal 100
    let a : Symbol := .nonterminal 101
    let b : Symbol := .nonterminal 102
    let g : Grammar Empty (List String) := .ofRules s
      [Parentheses.rule s [a] "S -> A", Parentheses.rule s [b] "S -> B",
        Parentheses.rule a [.terminal 17] "A -> (", Parentheses.rule b [.terminal 17] "B -> ("]
    let tokens : List Token := [⟨17, "(", ⟨0, 1⟩, .nowhere⟩]
    tokens ≠ [] ∧ g.parse ⟨.unknown, "grammar"⟩ tokens [] = .ok ["S -> B", "B -> ("] ∧
      g.DerivesBy [0, 2] [17] ∧ ∃ is, IsGreatest {is | g.DerivesBy is [17]} is ∧ [0, 2] ≤ is := by
  intro s a b g tokens
  have hparse : g.parse ⟨.unknown, "grammar"⟩ tokens [] = .ok ["S -> B", "B -> ("] := by cbv
  have hother : g.DerivesBy [0, 2] [17] := by
    refine derivesBy_iff.2 ⟨[⟨0, 0⟩, ⟨2, 0⟩], ?_, rfl⟩
    have hne : [17] ≠ [] := List.cons_ne_nil _ _
    have hrules : g.rules = [Parentheses.rule s [a] "S -> A", Parentheses.rule s [b] "S -> B",
      Parentheses.rule a [.terminal 17] "A -> (", Parentheses.rule b [.terminal 17] "B -> ("] := by
      cbv
    have hfirst : g.rules[0]? = some (Parentheses.rule s [a] "S -> A") := by
      rw [hrules]
      rfl
    have hsecond : g.rules[2]? = some (Parentheses.rule a [.terminal 17] "A -> (") := by
      rw [hrules]
      rfl
    exact .expand hne hfirst rfl (.expand hne hsecond rfl (.shift .done))
  obtain ⟨is, -, -, -, -, hgreatest, -⟩ := parse_prefers_later_rules g _ tokens []
    (List.cons_ne_nil _ _) ⟨.ok _, hparse⟩
  exact ⟨List.cons_ne_nil _ _, hparse, hother, is, hgreatest, hgreatest.2 hother⟩

end Frontend.Grammar
