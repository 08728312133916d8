import Frontend.Proofs.Grammar.Furthest
import Frontend.Proofs.Grammar.Table
import Frontend.Proofs.Grammar.Termination
import Frontend.Proofs.Grammar.Unambiguous

/-!
# The order of the rules

Grammars with the same rules in different orders (`SameRules`) differ in the indices of their rules
and in the order in which the search tries them. A derivation with one of them is a derivation with
the other, rule by rule (`SameRules.exists_forest`), so both accept the same tokens. Which
derivation is found may depend on the order, but not if the grammar is unambiguous: then the same
actions run.

If there is no derivation, the dead end to report may depend on the order even so, but the number
of tokens matched before it does not, since no derivation gets further. So both parses end in the
same state or report a failure at the same place (`SameRules.agrees`).
-/

namespace Frontend.Grammar

variable {ε σ : Type} {g g' : Grammar ε σ} {tokens : List Token} {ids : List Nat}
  {ss ts : List Symbol} {k : Nat}

/-! ## Grammars with the same rules -/

/-- The grammars have the same start symbol and the same rules, in any order. -/
structure SameRules (g g' : Grammar ε σ) : Prop where
  start : g.start = g'.start
  mem_iff : ∀ r, r ∈ g.rules ↔ r ∈ g'.rules

theorem SameRules.symm (h : SameRules g g') : SameRules g' g :=
  ⟨h.start.symm, fun r => (h.mem_iff r).symm⟩

/-- The rules of a grammar are those that were added. -/
theorem mem_rules_ofRules {start : Symbol} {added : List (Rule ε σ)} {r : Rule ε σ} :
    r ∈ (ofRules start added).rules ↔ r ∈ added := by
  have h := congrArg (r ∈ ·) (filter_rules_ofRules start added r.lhs.id)
  simpa [List.mem_filter] using h

theorem start_ofRules (start : Symbol) (added : List (Rule ε σ)) :
    (ofRules start added).start = start := by
  suffices h : ∀ g : Grammar ε σ, (added.foldl add g).start = g.start from h _
  induction added with
  | nil => exact fun g => rfl
  | cons rule added ih => exact fun g => ih (g.add rule)

/-- The order in which rules are added makes no difference to which rules there are. -/
theorem sameRules_of_perm {start : Symbol} {added added' : List (Rule ε σ)}
    (h : added.Perm added') : SameRules (ofRules start added) (ofRules start added') := by
  refine ⟨?_, fun r => ?_⟩
  · rw [start_ofRules, start_ofRules]
  · rw [mem_rules_ofRules, mem_rules_ofRules, h.mem_iff]

/-- Uses of the same rule at the same place. -/
def SameUse (g g' : Grammar ε σ) (u u' : Use) : Prop :=
  u.position = u'.position ∧ ∃ r, g.rules[u.rule]? = some r ∧ g'.rules[u'.rule]? = some r

theorem SameUse.symm {u u' : Use} (h : SameUse g g' u u') : SameUse g' g u' u := by
  obtain ⟨hpos, r, hr, hr'⟩ := h
  exact ⟨hpos.symm, r, hr', hr⟩

theorem forall_position_lt_of_sameUse {us us' : List Use} (h : List.Forall₂ (SameUse g g') us us')
    (hus : ∀ u ∈ us, u.position < k) : ∀ u' ∈ us', u'.position < k := by
  induction h with
  | nil => exact nofun
  | cons hu _ ih =>
    obtain ⟨hlt, hus⟩ := List.forall_mem_cons.1 hus
    exact List.forall_mem_cons.2 ⟨hu.1 ▸ hlt, ih hus⟩

/-- The same uses run the same actions. -/
theorem replay_eq_of_sameUse {us us' : List Use} (h : List.Forall₂ (SameUse g g') us us')
    (s : σ) : g.replay tokens.toArray us s = g'.replay tokens.toArray us' s := by
  induction h generalizing s with
  | nil => rfl
  | cons hu _ ih =>
    obtain ⟨hpos, r, hr, hr'⟩ := hu
    rw [replay, replay, List.foldlM_cons, List.foldlM_cons, hr, hr', hpos]
    exact bind_congr fun s => ih s

namespace SameRules

/-! ## Derivations -/

/-- What advances with the rules of one grammar advances with those of the other. -/
theorem advances (h : SameRules g g') (ha : g.Advances ids ss k ts) : g'.Advances ids ss k ts := by
  induction ha with
  | here => exact .here
  | shift _ ih => exact .shift ih
  | expand hne hr _ ih => exact .expand hne ((h.mem_iff _).1 hr) ih

/-- A forest of one grammar is one of the other, apart from the indices of the rules. -/
theorem exists_forest (h : SameRules g g') (f : Forest g ss) :
    ∃ f' : Forest g' ss, f'.leaves = f.leaves ∧
      ∀ c, List.Forall₂ (SameUse g g') (f.preorder c) (f'.preorder c) := by
  induction f with
  | nil => exact ⟨.nil, rfl, fun c => .nil⟩
  | leaf id rest ih =>
    obtain ⟨rest', hleaves, huses⟩ := ih
    exact ⟨.leaf id rest', congrArg (id :: ·) hleaves, fun c => huses (c + 1)⟩
  | @node i id r ss hi hid children rest ihc ih =>
    obtain ⟨children', hleaves, huses⟩ := ihc
    obtain ⟨rest', hleaves', huses'⟩ := ih
    obtain ⟨j, hj⟩ := List.mem_iff_getElem?.1 ((h.mem_iff r).1 (List.mem_of_getElem? hi))
    refine ⟨.node hj hid children' rest', ?_, fun c => ?_⟩
    · rw [Forest.leaves, Forest.leaves, hleaves, hleaves']
    · rw [Forest.preorder, Forest.preorder, hleaves]
      exact .cons ⟨rfl, r, hi, hj⟩ (List.rel_append (huses c) (huses' _))

/-- A rank for one grammar is a rank for the other. -/
theorem leftRanked (h : SameRules g g') {rank : Nat → Nat} (hrank : g.LeftRanked rank) :
    g'.LeftRanked rank := by
  rintro r hr before id after hrhs ⟨f, hf⟩
  obtain ⟨f', hf', -⟩ := h.symm.exists_forest f
  exact hrank r ((h.mem_iff r).2 hr) before id after hrhs ⟨f', hf'.trans hf⟩

/-! ## Searches -/

variable {n n' : Node}

/-- What one grammar accepts, the other one accepts, if the search ends. -/
theorem exists_accepted (h : SameRules g g') (hends : g'.search tokens ≠ none)
    (hn : g.search tokens = some (.accepted n)) :
    ∃ n', g'.search tokens = some (.accepted n') := by
  obtain ⟨us, hus, -⟩ := completes_of_accepted hn
  obtain ⟨f, hleaves, rfl, hguard⟩ := completes_iff_forest.1 hus
  obtain ⟨f', hleaves', huses⟩ := h.exists_forest f
  have hcompletes : g'.Completes 0 (tokens.map Token.id) [g'.start] (f'.preorder 0) := by
    rw [← h.start]
    exact completes_iff_forest.2 ⟨f', hleaves'.trans hleaves, rfl,
      forall_position_lt_of_sameUse (huses 0) hguard⟩
  cases hs : g'.search tokens with
  | none => exact absurd hs hends
  | some out =>
    cases out with
    | accepted n' => exact ⟨n', rfl⟩
    | rejected furthest => exact absurd hcompletes (not_completes_of_rejected hs _)

/-- If there is one derivation only, both grammars run the same actions. -/
theorem replay_eq (h : SameRules g g') (hg : g.Unambiguous g.start)
    (hn : g.search tokens = some (.accepted n)) (hn' : g'.search tokens = some (.accepted n'))
    (s : σ) : g.replay tokens.toArray n.uses s = g'.replay tokens.toArray n'.uses s := by
  obtain ⟨us, hus, hrev⟩ := completes_of_accepted hn
  obtain ⟨f, hleaves, rfl, -⟩ := hus.exists_forest
  obtain ⟨us', hus', hrev'⟩ := completes_of_accepted hn'
  rw [← h.start] at hus'
  obtain ⟨f', hleaves', rfl, -⟩ := hus'.exists_forest
  -- The derivation that `g'` finds is one of `g` too, so it is the one that `g` finds.
  obtain ⟨f₁, hleaves₁, huses⟩ := h.symm.exists_forest f'
  obtain rfl : f₁ = f := hg f₁ f (hleaves₁.trans (hleaves'.trans hleaves.symm))
  have hsame := (huses 0).flip.imp fun _ _ hu => SameUse.symm hu
  rw [hrev, hrev']
  exact replay_eq_of_sameUse (List.rel_reverse hsame) s

/-- Either both searches find the same derivation, or both end at the same place. -/
theorem search_cases (h : SameRules g g') (hg : g.Unambiguous g.start) {rank : Nat → Nat}
    (hrank : g.LeftRanked rank) (tokens : List Token) :
    (∃ n n', g.search tokens = some (.accepted n) ∧ g'.search tokens = some (.accepted n') ∧
      ∀ s, g.replay tokens.toArray n.uses s = g'.replay tokens.toArray n'.uses s) ∨
    ∃ n n', g.search tokens = some (.rejected (some n)) ∧
      g'.search tokens = some (.rejected (some n')) ∧ n.cursor = n'.cursor := by
  have hends := search_ne_none hrank tokens
  have hends' := search_ne_none (h.leftRanked hrank) tokens
  obtain ⟨out, hout⟩ := Option.ne_none_iff_exists'.1 hends
  obtain ⟨out', hout'⟩ := Option.ne_none_iff_exists'.1 hends'
  cases out with
  | accepted n =>
    obtain ⟨n', hn'⟩ := h.exists_accepted hends' hout
    exact .inl ⟨n, n', hout, hn', h.replay_eq hg hout hn'⟩
  | rejected furthest =>
    cases out' with
    | accepted n' =>
      obtain ⟨n, hn⟩ := h.symm.exists_accepted hends hout'
      exact nomatch hout.symm.trans hn
    | rejected furthest' =>
      obtain ⟨n, rfl, -, hreach, hmost⟩ := furthest_of_rejected hout
      obtain ⟨n', rfl, -, hreach', hmost'⟩ := furthest_of_rejected hout'
      rw [← h.start] at hreach' hmost'
      -- Each grammar gets as far as the other one, and both report how far they got.
      refine .inr ⟨n, n', hout, hout', Nat.le_antisymm ?_ ?_⟩
      · exact hmost' _ _ (h.advances hreach)
      · exact hmost _ _ (h.symm.advances hreach')

end SameRules

/-! ## Parses -/

/-- Both parses end in the same state, or both report a failure at the same place. -/
inductive Agrees (g g' : Grammar ε σ) (o : Origin) (tokens : List Token) (s : σ) : Prop
  | accepted {s' : σ} : g.parse o tokens s = .ok s' → g'.parse o tokens s = .ok s' →
      Agrees g g' o tokens s
  | rejected {n n' : Node} {d d' : Diagnostic} :
      g.search tokens = some (.rejected (some n)) →
      g'.search tokens = some (.rejected (some n')) →
      (n.failure tokens.toArray).position = (n'.failure tokens.toArray).position →
      g.parse o tokens s = .error (.reported d) → g'.parse o tokens s = .error (.reported d') →
      d.span = d'.span → Agrees g g' o tokens s

/-- Every rule puts a failure into words without moving it. -/
def KeepsPlace (g : Grammar ε σ) : Prop :=
  ∀ r ∈ g.rules, ∀ f o, (r.diagnose f o).span = f.span

/-- If no rule moves a failure, it is reported where it is. -/
theorem KeepsPlace.span_diagnose (hg : g.KeepsPlace) (o : Origin) (n : Node) :
    (g.diagnose o tokens (some n)).span = (n.failure tokens.toArray).span := by
  rcases g.diagnose_some o tokens n with ⟨r, hr, heq⟩ | heq
  · rw [heq, hg r hr]
  · rw [heq]
    rfl

/-- Without ambiguity and left recursion, and with actions that do not fail, the order of the rules
    does not matter. -/
theorem SameRules.agrees (h : SameRules g g') (hg : g.Unambiguous g.start) {rank : Nat → Nat}
    (hrank : g.LeftRanked rank) (hplace : g.KeepsPlace) {s : σ}
    (hreplay : ∀ n, g.search tokens = some (.accepted n) →
      ∃ s', g.replay tokens.toArray n.uses s = .ok s') (o : Origin) :
    g.Agrees g' o tokens s := by
  by_cases hne : tokens = []
  · subst hne
    exact .accepted rfl rfl
  · have hplace' : g'.KeepsPlace := fun r hr => hplace r ((h.mem_iff r).2 hr)
    rcases h.search_cases hg hrank tokens with ⟨n, n', hn, hn', hsame⟩ | ⟨n, n', hn, hn', hcursor⟩
    · obtain ⟨s', hs'⟩ := hreplay n hn
      have hparse : g.parse o tokens s = .ok s' := by
        rw [parse_of_accepted hne hn, hs']
        rfl
      have hparse' : g'.parse o tokens s = .ok s' := by
        rw [parse_of_accepted hne hn', ← hsame, hs']
        rfl
      exact .accepted hparse hparse'
    · refine .rejected hn hn' hcursor (parse_of_rejected hne hn o s)
        (parse_of_rejected hne hn' o s) ?_
      rw [hplace.span_diagnose, hplace'.span_diagnose, Node.failure, Node.failure, hcursor]

end Frontend.Grammar
