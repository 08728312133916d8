import Frontend.Proofs.Grammar.Furthest
import Frontend.Proofs.Grammar.Table

/-!
# Where the input runs out

If the input runs out before a derivation is complete, several derivations may have matched all of
it, with different symbols pending, and the failure that is reported is the one found first. The
rules of a nonterminal are tried from the last one on, so it is found by using, wherever a rule is
chosen, the last one with which the end of the input can be reached (`Arrives`).

Until it is found, the nodes before it in the worklist do not get to the end (`FirstArrives`), and
afterwards no dead end is further, so it is kept (`Expects`). Every step of the search keeps to
this, and the search ends with what is expected (`pending_of_arrives`).
-/

namespace Frontend.Grammar

variable {ε σ : Type} {g : Grammar ε σ} {tokens : List Token} {ids : List Nat}
  {ss ts : List Symbol} {k : Nat} {n : Node} {rest : List Node} {best : Option Node}

/-- The pending symbols `ss` are made to match all of `ids`, after which `ts` are pending. Every
    rule is the last one with which something that begins with `ids` can be derived. -/
inductive Arrives (g : Grammar ε σ) : List Nat → List Symbol → List Symbol → Prop
  | here {ss : List Symbol} : Arrives g [] ss ss
  | shift {id : Nat} {ids : List Nat} {ss ts : List Symbol} :
      Arrives g ids ss ts → Arrives g (id :: ids) (.terminal id :: ss) ts
  | expand {i : Nat} {r : Rule ε σ} {ids : List Nat} {ss ts : List Symbol} :
      ids ≠ [] → g.rules[i]? = some r →
      (∀ j r', i < j → g.rules[j]? = some r' → r'.lhs.id = r.lhs.id →
        ∀ f : Forest g (r'.rhs ++ ss), ¬ids <+: f.leaves) →
      Arrives g ids (r.rhs ++ ss) ts → Arrives g ids (.nonterminal r.lhs.id :: ss) ts

/-- What arrives at the end of the input has advanced to it. -/
theorem Arrives.advances (h : g.Arrives ids ss ts) : g.Advances ids ss ids.length ts := by
  induction h with
  | here => exact .here
  | shift _ ih => exact .shift ih
  | expand hne hi _ _ ih => exact .expand hne (List.mem_of_getElem? hi) ih

/-- A node from which nothing derives that begins with the tokens left does not get to the end. -/
theorem Reaches.lt_length (hg : g.Productive) (h : g.Reaches tokens n k ts)
    (hc : n.cursor ≤ tokens.length) (hp : ∀ s ∈ n.pending, g.Mentions s)
    (hnot : ∀ f : Forest g n.pending, ¬n.remaining tokens <+: f.leaves) : k < tokens.length := by
  obtain ⟨j, h, rfl⟩ := h
  have hlen : (n.remaining tokens).length = tokens.length - n.cursor := by simp [Node.remaining]
  have hle := h.le_length
  refine Nat.lt_of_not_le fun hge => ?_
  obtain rfl : j = (n.remaining tokens).length := by omega
  -- If it did, what is pending at the end could be derived to make a forest of the whole.
  obtain ⟨f⟩ := hg.exists_forest (h.mentions hp)
  obtain ⟨f', hf'⟩ := h.exists_forest f
  rw [List.take_length] at hf'
  exact hnot f' (hf' ▸ List.prefix_append _ _)

/-! ## The worklist -/

/-- The first of the nodes that gets to the end of the input does so with `ts` pending. -/
inductive FirstArrives (g : Grammar ε σ) (tokens : List Token) (ts : List Symbol) :
    List Node → Prop
  | first {n : Node} {rest : List Node} : (∀ s ∈ n.pending, g.Mentions s) →
      g.Arrives (n.remaining tokens) n.pending ts → FirstArrives g tokens ts (n :: rest)
  | skip {n : Node} {rest : List Node} :
      (∀ k ts', g.Reaches tokens n k ts' → k < tokens.length) →
      FirstArrives g tokens ts rest → FirstArrives g tokens ts (n :: rest)

/-- The dead end that is found first at the end of the input has `ts` pending: it has been found,
    or none has and one of the nodes will lead to it. -/
inductive Expects (g : Grammar ε σ) (tokens : List Token) (ts : List Symbol)
    (worklist : List Node) : Option Node → Prop
  | found {b : Node} : b.cursor = tokens.length → b.pending = ts →
      Expects g tokens ts worklist (some b)
  | coming {best : Option Node} : (∀ b ∈ best, b.cursor < tokens.length) →
      FirstArrives g tokens ts worklist → Expects g tokens ts worklist best

/-- The node that arrives first does so behind its next token. -/
theorem FirstArrives.shift {t : Token} (hp : n.pending = .terminal t.id :: ss)
    (ht : tokens[n.cursor]? = some t) (h : g.FirstArrives tokens ts (n :: rest)) :
    g.FirstArrives tokens ts (n.shift :: rest) := by
  cases h with
  | first hm h =>
    rw [hp] at hm
    rw [hp, Node.remaining_shift ht] at h
    cases h with
    | shift h =>
      refine .first ?_ ?_
      · rw [Node.pending_shift, hp]
        exact (List.forall_mem_cons.1 hm).2
      · rwa [Node.pending_shift, hp]
  | skip hnot h =>
    refine .skip (fun k ts' hreach => hnot k ts' ?_) h
    exact (continues_shift hp ht).back _ (List.mem_singleton_self _) k ts' hreach

/-- Nodes that do not get to the end change nothing when they are put in front. -/
theorem FirstArrives.append_of_not {ms : List Node}
    (hnot : ∀ m ∈ ms, ∀ k ts', g.Reaches tokens m k ts' → k < tokens.length)
    (h : g.FirstArrives tokens ts rest) : g.FirstArrives tokens ts (ms ++ rest) := by
  induction ms with
  | nil => exact h
  | cons m ms ih =>
    obtain ⟨hm, hms⟩ := List.forall_mem_cons.1 hnot
    exact .skip hm (ih hms)

/-- Of some alternatives by decreasing index, the one with the last rule that gets to the end is
    the first to get there. -/
theorem firstArrives_of_alternatives (hg : g.Productive) {i : Nat} {r : Rule ε σ}
    (hc : n.cursor ≤ tokens.length) (hp : n.pending = .nonterminal r.lhs.id :: ss)
    (hm : ∀ s ∈ ss, g.Mentions s) (h : g.Arrives (n.remaining tokens) (r.rhs ++ ss) ts)
    (hlater : ∀ j r', i < j → g.rules[j]? = some r' → r'.lhs.id = r.lhs.id →
      ∀ f : Forest g (r'.rhs ++ ss), ¬n.remaining tokens <+: f.leaves)
    {alternatives : List (Rule ε σ × Nat)} (hmem : (r, i) ∈ alternatives)
    (hsorted : alternatives.Pairwise fun a b => b.2 < a.2)
    (hrules : ∀ a ∈ alternatives, g.rules[a.2]? = some a.1 ∧ a.1.lhs.id = r.lhs.id)
    (rest : List Node) :
    g.FirstArrives tokens ts (alternatives.map (fun a => n.expand a.2 a.1.rhs) ++ rest) := by
  induction alternatives with
  | nil => exact absurd hmem List.not_mem_nil
  | cons a alternatives ih =>
    obtain ⟨ha, hsorted⟩ := List.pairwise_cons.1 hsorted
    obtain ⟨⟨hrule, hid⟩, hrules⟩ := List.forall_mem_cons.1 hrules
    have hmentions : ∀ s ∈ a.1.rhs ++ ss, g.Mentions s :=
      List.forall_mem_append.2 ⟨fun s hs => .inr ⟨a.1, List.mem_of_getElem? hrule, hs⟩, hm⟩
    have hpending : (n.expand a.2 a.1.rhs).pending = a.1.rhs ++ ss := by
      rw [Node.pending_expand, hp, List.tail_cons]
    rcases List.mem_cons.1 hmem with rfl | hmem
    · refine .first (hpending ▸ hmentions) ?_
      rwa [hpending, Node.remaining_expand]
    · refine .skip (fun k ts' hreach => ?_) (ih hmem hsorted hrules)
      refine hreach.lt_length hg (by rwa [Node.cursor_expand]) (hpending ▸ hmentions) ?_
      rw [hpending, Node.remaining_expand]
      exact hlater a.2 a.1 (ha _ hmem) hrule hid

/-- The node that arrives first does so through one of its branches. -/
theorem FirstArrives.fork (hg : g.Productive) {t : Token} {id : Nat}
    (hc : n.cursor ≤ tokens.length) (hp : n.pending = .nonterminal id :: ss)
    (ht : tokens[n.cursor]? = some t) (hb : g.branches n id ≠ [])
    (h : g.FirstArrives tokens ts (n :: rest)) :
    g.FirstArrives tokens ts (g.branches n id ++ rest) := by
  cases h with
  | first hm h =>
    rw [hp] at hm h
    generalize hids : n.remaining tokens = ids at h
    cases h with
    | here => exact absurd (hids.symm.trans (Node.remaining_eq_cons ht)) (List.cons_ne_nil _ _).symm
    | @expand i r _ _ _ _ hi hlater h =>
      subst hids
      rw [branches, ← List.map_reverse]
      refine firstArrives_of_alternatives hg hc hp (List.forall_mem_cons.1 hm).2 h hlater
        ?_ ?_ ?_ rest
      · exact List.mem_reverse.2 (mem_alternatives.2 ⟨hi, rfl⟩)
      · exact List.pairwise_reverse.2 (g.pairwise_alternatives _)
      · exact fun a ha => mem_alternatives.1 (List.mem_reverse.1 ha)
  | skip hnot h =>
    exact h.append_of_not fun m hm k ts' hreach =>
      hnot k ts' ((continues_fork hp ht hb).back m hm k ts' hreach)

/-! ## The search -/

theorem further_eq_of_lt (h : ∀ b ∈ best, b.cursor < n.cursor) : further best n = some n := by
  cases best with
  | none => rfl
  | some b => exact if_neg (Nat.not_le_of_lt (h b rfl))

/-- A dead end that gets to the end of the input is there. -/
theorem Arrives.eq_of_dead (hs : g.Stepped tokens n .dead)
    (h : g.Arrives (n.remaining tokens) n.pending ts) :
    tokens.length ≤ n.cursor ∧ n.pending = ts := by
  have hreach : g.Reaches tokens n (n.cursor + (n.remaining tokens).length) ts :=
    ⟨_, h.advances, rfl⟩
  have hnil : n.remaining tokens = [] :=
    List.length_eq_zero_iff.1 (Nat.add_eq_left.1 (hreach.eq_cursor hs))
  refine ⟨Node.remaining_eq_nil_iff.1 hnil, ?_⟩
  rw [hnil] at h
  generalize n.pending = ss at h ⊢
  cases h with
  | here => rfl
  | expand hne => exact absurd rfl hne

/-- A dead end is the expected one, or it is not as far and the expected one is still to come. -/
theorem Expects.dead (hs : g.Stepped tokens n .dead) (hc : n.cursor ≤ tokens.length)
    (h : g.Expects tokens ts (n :: rest) best) : g.Expects tokens ts rest (further best n) := by
  cases h with
  | @found b hb hpending =>
    -- A later dead end replaces an earlier one only if it is strictly further.
    have hkeep : further (some b) n = some b := if_pos (hb ▸ hc)
    rw [hkeep]
    exact .found hb hpending
  | coming hbest h =>
    cases h with
    | first _ h =>
      obtain ⟨hge, hpending⟩ := h.eq_of_dead hs
      have hend : n.cursor = tokens.length := Nat.le_antisymm hc hge
      rw [further_eq_of_lt (hend ▸ hbest)]
      exact .found hend hpending
    | skip hnot h =>
      have hlt := hnot _ _ (reaches_self g tokens n)
      refine .coming (fun b hb => ?_) h
      rcases Records.mem_further hb with hb | rfl
      · exact hbest b hb
      · exact hlt

/-- A search without success ends with the dead end that is expected. -/
theorem pending_of_explore (hg : g.Productive) {worklist : List Node} {out : Outcome}
    (h : g.explore tokens.toArray worklist best = some out) :
    (∀ m ∈ worklist, m.cursor ≤ tokens.length) → g.Expects tokens ts worklist best →
      ∀ furthest, out = .rejected furthest →
        ∃ n, furthest = some n ∧ n.cursor = tokens.length ∧ n.pending = ts := by
  refine explore_induction (motive := fun worklist best out =>
    (∀ m ∈ worklist, m.cursor ≤ tokens.length) → g.Expects tokens ts worklist best →
      ∀ furthest, out = .rejected furthest →
        ∃ n, furthest = some n ∧ n.cursor = tokens.length ∧ n.pending = ts)
    ?empty ?accept ?dead ?shift ?fork h
  case empty =>
    rintro best - hexpects _ ⟨⟩
    cases hexpects with
    | found hb hpending => exact ⟨_, rfl, hb, hpending⟩
    | coming _ h => exact nomatch h
  case accept => exact fun n rest best _ _ _ _ furthest hout => nomatch hout
  case dead =>
    intro n rest best out hs ih hc hexpects
    obtain ⟨hn, hrest⟩ := List.forall_mem_cons.1 hc
    exact ih hrest (hexpects.dead hs hn)
  case shift =>
    intro n rest best out t ss hp ht ih hc hexpects
    obtain ⟨-, hrest⟩ := List.forall_mem_cons.1 hc
    have hlt := (List.getElem?_eq_some_iff.1 ht).1
    refine ih (List.forall_mem_cons.2 ⟨hlt, hrest⟩) ?_
    cases hexpects with
    | found hb hpending => exact .found hb hpending
    | coming hbest h => exact .coming hbest (h.shift hp ht)
  case fork =>
    intro n rest best out t id ss hp ht hb ih hc hexpects
    obtain ⟨hn, hrest⟩ := List.forall_mem_cons.1 hc
    refine ih (List.forall_mem_append.2 ⟨fun m hm => ?_, hrest⟩) ?_
    · obtain ⟨i, r, -, -, rfl⟩ := mem_branches.1 hm
      rwa [Node.cursor_expand]
    · cases hexpects with
      | found hb hpending => exact .found hb hpending
      | coming hbest h => exact .coming hbest (h.fork hg hn hp ht hb)

/-- Where a search is rejected at the end of the input, the symbols pending there are those of the
    first derivation that gets there. -/
theorem pending_of_arrives (hg : g.Productive) {furthest : Option Node}
    (hs : g.search tokens = some (.rejected furthest))
    (h : g.Arrives (tokens.map Token.id) [g.start] ts) :
    ∃ n, furthest = some n ∧ n.cursor = tokens.length ∧ n.pending = ts := by
  refine pending_of_explore hg hs (List.forall_mem_singleton.2 (Nat.zero_le _))
    (.coming nofun (.first (List.forall_mem_singleton.2 (.inl rfl)) ?_)) furthest rfl
  rwa [remaining_initial]

end Frontend.Grammar
