import Frontend.Proofs.Grammar.Furthest

/-!
# The rule to blame

A dead end is put into words by the rule that brought in the symbol wanted next. A node does not
know this rule symbol by symbol: its owners say how many of the pending symbols belong to one use of
a rule, and a count is taken off, or the owner with it, whenever a symbol is dealt with.

`Traced` follows a derivation and keeps, for every pending symbol, the use that brought it in. This
is told from other uses of the same rule by the uses before it, so a symbol is annotated with all
uses up to its own, the latest first, and the start symbol with none. The annotations of the symbols
that a rule brings in are longer than all others, so they make a run of their own in front
(`runs_replicate_append`); a symbol that is dealt with is taken from the first run (`runs_tail`). So
the owners are at any time the run-length encoding of the annotations (`Attributed`, which
`attributed_of_traced` derives step by step).

`owner_introduces_pending` draws the conclusion for every node that a search can visit and, as the
furthest dead end is one of them, for the diagnostic of a search without success.
-/

namespace Frontend

/-! ## Runs -/

section

variable {α : Type} [DecidableEq α] {a b : α} {l : List α} {k : Nat} {rest : List (α × Nat)}

/-- The runs of a list with one more element in front. -/
def extendRuns (a : α) : List (α × Nat) → List (α × Nat)
  | [] => [(a, 1)]
  | (b, k) :: rest => if a = b then (b, k + 1) :: rest else (a, 1) :: (b, k) :: rest

/-- The run-length encoding of a list. -/
def runs (l : List α) : List (α × Nat) := l.foldr extendRuns []

theorem runs_cons (a : α) (l : List α) : runs (a :: l) = extendRuns a (runs l) := rfl

theorem head?_extendRuns (a : α) (rs : List (α × Nat)) :
    ((extendRuns a rs).map Prod.fst).head? = some a := by
  cases rs with
  | nil => rfl
  | cons r rest =>
    rw [extendRuns]
    split
    · next h => rw [h, List.map_cons, List.head?_cons]
    · rfl

/-- The first run is one of the first element. -/
theorem head?_runs (l : List α) : ((runs l).map Prod.fst).head? = l.head? := by
  cases l with
  | nil => rfl
  | cons a l => rw [runs_cons, head?_extendRuns, List.head?_cons]

/-- There are no empty runs. -/
theorem pos_of_mem_runs (l : List α) : ∀ x ∈ runs l, 0 < x.2 := by
  induction l with
  | nil => exact fun x hx => absurd hx List.not_mem_nil
  | cons a l ih =>
    rw [runs_cons]
    cases hl : runs l with
    | nil => exact List.forall_mem_singleton.2 Nat.one_pos
    | cons r rest =>
      rw [hl] at ih
      rw [extendRuns]
      split
      · exact List.forall_mem_cons.2 ⟨Nat.succ_pos _, (List.forall_mem_cons.1 ih).2⟩
      · exact List.forall_mem_cons.2 ⟨Nat.one_pos, ih⟩

/-- The runs are as long as the list. -/
theorem sum_runs (l : List α) : ((runs l).map Prod.snd).sum = l.length := by
  induction l with
  | nil => rfl
  | cons a l ih =>
    rw [runs_cons, List.length_cons, ← ih]
    cases runs l with
    | nil => rfl
    | cons r rest =>
      rw [extendRuns]
      split <;> simp only [List.map_cons, List.sum_cons] <;> omega

/-- Without the first element, the first run is shorter by one, or gone. -/
theorem runs_tail (h : runs (a :: l) = (b, k) :: rest) :
    runs l = if k - 1 = 0 then rest else (b, k - 1) :: rest := by
  have hpos := pos_of_mem_runs l
  rw [runs_cons] at h
  cases hl : runs l with
  | nil =>
    rw [hl] at h
    cases h
    rfl
  | cons r rest' =>
    rw [hl, extendRuns] at h
    rw [hl] at hpos
    split at h
    · cases h
      exact (if_neg (Nat.ne_of_gt (hpos r List.mem_cons_self))).symm
    · cases h
      rfl

/-- Equal elements in front of a list that begins with another one are a run. -/
theorem runs_replicate_append (hl : a ∉ l.head?) (n : Nat) :
    runs (List.replicate (n + 1) a ++ l) = (a, n + 1) :: runs l := by
  induction n with
  | zero =>
    rw [← head?_runs] at hl
    rw [List.replicate_one, List.singleton_append, runs_cons]
    cases hrs : runs l with
    | nil => rfl
    | cons r rest =>
      rw [hrs, List.map_cons, List.head?_cons, Option.mem_some_iff] at hl
      exact if_neg (Ne.symm hl)
  | succ n ih =>
    rw [List.replicate_succ, List.cons_append, runs_cons, ih]
    exact if_pos rfl

end

namespace Grammar

variable {ε σ : Type} {g : Grammar ε σ} {tokens : List Token} {n m : Node}
  {sources : List (Symbol × List Use)} {us last : List Use} {s : Symbol}

/-! ## Nodes of a search -/

/-- One step makes `m` of `n`, alone or together with other nodes. -/
inductive Makes (g : Grammar ε σ) (tokens : List Token) (n : Node) : Node → Prop
  | shift {m : Node} : g.step tokens.toArray n = .shift m → Makes g tokens n m
  | fork {m : Node} {nodes : List Node} :
      g.step tokens.toArray n = .fork nodes → m ∈ nodes → Makes g tokens n m

/-- A search for a derivation of the tokens may visit the node. -/
def Visits (g : Grammar ε σ) (tokens : List Token) (n : Node) : Prop :=
  Relation.ReflTransGen (g.Makes tokens) (.initial g.start) n

/-- The node is made from the start symbol, with the pending symbols and their annotations
    `sources`: each stands with the uses of rules up to the one that brought it in, the latest
    first, and the start symbol with none. The symbol that was dealt with last is accounted for by
    the uses `last`, up to the one that expanded it to nothing, or else up to the one that brought
    it in. -/
inductive Traced (g : Grammar ε σ) (tokens : List Token) :
    Node → List (Symbol × List Use) → List Use → Prop
  | initial : Traced g tokens (.initial g.start) [(g.start, [])] []
  | shift {n m : Node} {s : Symbol} {us last : List Use} {sources : List (Symbol × List Use)} :
      Traced g tokens n ((s, us) :: sources) last → g.step tokens.toArray n = .shift m →
      Traced g tokens m sources us
  | expand {n : Node} {s : Symbol} {us last : List Use} {sources : List (Symbol × List Use)}
      {nodes : List Node} {i : Nat} {r : Rule ε σ} :
      Traced g tokens n ((s, us) :: sources) last → g.step tokens.toArray n = .fork nodes →
      n.expand i r.rhs ∈ nodes → g.rules[i]? = some r →
      Traced g tokens (n.expand i r.rhs)
        (r.rhs.map (·, (n.expand i r.rhs).uses) ++ sources)
        (if r.rhs = [] then (n.expand i r.rhs).uses else us)

/-- A node has one kind of step only. -/
theorem step_eq_iff {step : Step} :
    g.step tokens.toArray n = step ↔ g.Stepped tokens n step := by
  constructor
  · rintro rfl
    exact g.step_stepped tokens n
  · intro h
    cases h with
    | accept hp hc => simp [Grammar.step, hp, hc]
    | surplus hp ht => simp [Grammar.step, hp, ht]
    | missing hp hc => simp [Grammar.step, hp, hc]
    | mismatch hp ht hid => simp [Grammar.step, hp, ht, hid]
    | shift hp ht => simp [Grammar.step, hp, ht]
    | @stuck id _ _ hp ht hb =>
      cases halternatives : g.alternatives (.nonterminal id) with
      | nil => simp [Grammar.step, hp, ht, halternatives]
      | cons a rest => simp [branches, halternatives] at hb
    | @fork id _ _ hp ht hb =>
      cases halternatives : g.alternatives (.nonterminal id) with
      | nil => simp [branches, halternatives] at hb
      | cons a rest => simp [Grammar.step, hp, ht, branches, halternatives]

/-! ## Owners -/

/-- The rule of the latest of some uses. -/
def latestRule (us : List Use) : Option Nat := us.head?.map Use.rule

/-- What a node knows of the sources of its pending symbols. -/
structure Attributed (g : Grammar ε σ) (n : Node) (sources : List (Symbol × List Use))
    (last : List Use) : Prop where
  pending_eq : n.pending = sources.map Prod.fst
  owners_eq : n.owners = (runs (sources.map Prod.snd)).map (Prod.map latestRule id)
  latest_eq : n.latest = latestRule last
  /-- The start symbol is pending before anything is dealt with, and never again. -/
  starts : sources = [(g.start, [])] ∧ last = [] ∨ ∀ x ∈ sources, x.2 ≠ []
  suffix : ∀ x ∈ sources, x.2 <:+ n.uses
  last_suffix : last <:+ n.uses
  rules : ∀ u ∈ n.uses, ∃ r, g.rules[u.rule]? = some r

namespace Attributed

theorem initial (g : Grammar ε σ) : g.Attributed (.initial g.start) [(g.start, [])] [] where
  pending_eq := rfl
  owners_eq := rfl
  latest_eq := rfl
  starts := .inl ⟨rfl, rfl⟩
  suffix := List.forall_mem_singleton.2 (List.suffix_refl [])
  last_suffix := List.suffix_refl []
  rules := fun _ hu => absurd hu List.not_mem_nil

/-- The first of the owners is the rule that brought in the next symbol. -/
theorem owners_cons (h : g.Attributed n ((s, us) :: sources) last) :
    ∃ k rest, runs (us :: sources.map Prod.snd) = (us, k) :: rest ∧
      n.owners = (latestRule us, k) :: rest.map (Prod.map latestRule id) := by
  have howners := h.owners_eq
  have hhead := head?_runs (us :: sources.map Prod.snd)
  rw [List.map_cons] at howners
  cases hruns : runs (us :: sources.map Prod.snd) with
  | nil => simp [hruns] at hhead
  | cons x rest =>
    rw [hruns] at howners hhead
    obtain rfl : x.1 = us := Option.some.inj hhead
    exact ⟨x.2, rest, rfl, howners⟩

/-- When the next symbol is dealt with, it is taken from the rule that brought it in. -/
theorem resolve (h : g.Attributed n ((s, us) :: sources) last) :
    n.resolve.owners = (runs (sources.map Prod.snd)).map (Prod.map latestRule id) ∧
      n.resolve.latest = latestRule us := by
  obtain ⟨k, rest, hruns, howners⟩ := h.owners_cons
  rw [runs_tail hruns, Node.resolve, howners]
  refine ⟨?_, rfl⟩
  dsimp only
  split <;> rfl

/-- No symbol but the start symbol that is still pending was brought in by no rule. -/
theorem tail (h : g.Attributed n ((s, us) :: sources) last) : ∀ x ∈ sources, x.2 ≠ [] := by
  rcases h.starts with ⟨hsources, -⟩ | hne
  · rw [(List.cons.inj hsources).2]
    exact fun x hx => absurd hx List.not_mem_nil
  · exact (List.forall_mem_cons.1 hne).2

/-- What is known of the sources is still known when a token is matched. -/
theorem shift (h : g.Attributed n ((s, us) :: sources) last) : g.Attributed n.shift sources us where
  pending_eq := by rw [Node.pending_shift, h.pending_eq, List.map_cons, List.tail_cons]
  owners_eq := h.resolve.1
  latest_eq := h.resolve.2
  starts := .inr h.tail
  suffix := by
    rw [Node.uses_shift]
    exact (List.forall_mem_cons.1 h.suffix).2
  last_suffix := by
    rw [Node.uses_shift]
    exact (List.forall_mem_cons.1 h.suffix).1
  rules := by
    rw [Node.uses_shift]
    exact h.rules

section

variable (h : g.Attributed n ((s, us) :: sources) last) (i : Nat) (rhs : List Symbol)
include h

/-- No other symbol was brought in by a new use: there is one more use than before. -/
theorem uses_expand_notMem : (n.expand i rhs).uses ∉ (sources.map Prod.snd).head? := by
  intro hmem
  obtain ⟨x, hx, hxuses⟩ := List.mem_map.1 (List.mem_of_mem_head? hmem)
  have hle := (h.suffix x (List.mem_cons_of_mem _ hx)).length_le
  rw [hxuses, Node.uses_expand, List.length_cons] at hle
  exact Nat.not_succ_le_self _ hle

/-- A rule owns the symbols that it brings in, unless there are none. -/
theorem owners_expand :
    (n.expand i rhs).owners =
      (runs ((rhs.map (·, (n.expand i rhs).uses) ++ sources).map Prod.snd)).map
        (Prod.map latestRule id) := by
  have howners := h.resolve.1
  have hnew := h.uses_expand_notMem i rhs
  have hmap : (rhs.map (·, (n.expand i rhs).uses) ++ sources).map Prod.snd =
      List.replicate rhs.length (n.expand i rhs).uses ++ sources.map Prod.snd := by
    rw [List.map_append, List.map_map]
    exact congrArg (· ++ _) List.map_const'
  rw [hmap]
  cases rhs with
  | nil => exact howners
  | cons s ss =>
    rw [List.length_cons, runs_replicate_append hnew, List.map_cons, ← howners]
    rfl

end

/-- What is known of the sources is still known when a symbol is expanded. -/
theorem expand (h : g.Attributed n ((s, us) :: sources) last) {i : Nat} {r : Rule ε σ}
    (hi : g.rules[i]? = some r) :
    g.Attributed (n.expand i r.rhs) (r.rhs.map (·, (n.expand i r.rhs).uses) ++ sources)
      (if r.rhs = [] then (n.expand i r.rhs).uses else us) := by
  obtain ⟨hsuffix, hsuffixes⟩ := List.forall_mem_cons.1 h.suffix
  have huses : n.uses <:+ (n.expand i r.rhs).uses := List.suffix_cons _ _
  refine
    { pending_eq := ?_
      owners_eq := h.owners_expand i r.rhs
      latest_eq := ?_
      starts := .inr (List.forall_mem_append.2 ⟨fun x hx => ?_, h.tail⟩)
      suffix := List.forall_mem_append.2 ⟨fun x hx => ?_, fun x hx => (hsuffixes x hx).trans huses⟩
      last_suffix := ?_
      rules := List.forall_mem_cons.2 ⟨⟨r, hi⟩, h.rules⟩ }
  · rw [Node.pending_expand, h.pending_eq, List.map_cons, List.tail_cons, List.map_append,
      List.map_map]
    exact congrArg (· ++ _) (List.map_id _).symm
  · rw [Node.expand]
    split
    · rfl
    · exact h.resolve.2
  · obtain ⟨_, -, rfl⟩ := List.mem_map.1 hx
    exact List.cons_ne_nil _ _
  · obtain ⟨_, -, rfl⟩ := List.mem_map.1 hx
    exact List.suffix_refl _
  · split
    · exact List.suffix_refl _
    · exact hsuffix.trans huses

/-- The rule to blame is the one that brought in the next symbol, which is none for the start
    symbol, or accounts for the last one if no symbol is pending. -/
theorem owner_eq (h : g.Attributed n sources last) :
    n.owner = latestRule ((sources.map Prod.snd).headD last) := by
  cases sources with
  | nil =>
    rw [Node.owner, h.owners_eq]
    exact h.latest_eq
  | cons x sources =>
    obtain ⟨s, us⟩ := x
    obtain ⟨k, rest, -, howners⟩ := h.owners_cons
    rw [Node.owner, howners, List.map_cons, List.headD_cons]
    cases us with
    | cons u us => rfl
    | nil =>
      -- Only the start symbol was brought in by no rule, and nothing has been dealt with before it.
      rcases h.starts with ⟨-, rfl⟩ | hne
      · exact h.latest_eq
      · exact absurd rfl (hne _ List.mem_cons_self)

end Attributed

/-- By induction on the derivation, a node knows of the sources of its symbols what `Attributed`
    says. -/
theorem attributed_of_traced (h : g.Traced tokens n sources last) :
    g.Attributed n sources last := by
  induction h with
  | initial => exact .initial g
  | shift _ hstep ih =>
    cases step_eq_iff.1 hstep with
    | shift _ _ => exact ih.shift
  | expand _ _ _ hi ih => exact ih.expand hi

/-! ## Nodes that are visited -/

theorem Visits.of_traced (h : g.Traced tokens n sources last) : g.Visits tokens n := by
  induction h with
  | initial => exact .refl
  | shift _ hstep ih => exact ih.tail (.shift hstep)
  | expand _ hstep hmem _ ih => exact ih.tail (.fork hstep hmem)

/-- The sources of the pending symbols can be followed from a node to those that are made of it. -/
theorem Traced.exists_of_makes (h : g.Traced tokens n sources last) (hmakes : g.Makes tokens n m) :
    ∃ sources last, g.Traced tokens m sources last := by
  have hpending := (attributed_of_traced h).pending_eq
  cases sources with
  | nil =>
    -- Without a pending symbol, the node is accepted or dead.
    cases hmakes with
    | shift hstep =>
      cases step_eq_iff.1 hstep with
      | shift hp _ => exact absurd (hp.symm.trans hpending) (List.cons_ne_nil _ _)
    | fork hstep _ =>
      cases step_eq_iff.1 hstep with
      | fork hp _ _ => exact absurd (hp.symm.trans hpending) (List.cons_ne_nil _ _)
  | cons x sources =>
    cases hmakes with
    | shift hstep => exact ⟨_, _, .shift h hstep⟩
    | fork hstep hmem =>
      cases step_eq_iff.1 hstep with
      | fork _ _ _ =>
        obtain ⟨i, r, hi, -, rfl⟩ := mem_branches.1 hmem
        exact ⟨_, _, .expand h hstep hmem hi⟩

/-- Every node that is visited has sources for its pending symbols. -/
theorem Visits.exists_traced (h : g.Visits tokens n) :
    ∃ sources last, g.Traced tokens n sources last := by
  induction h with
  | refl => exact ⟨_, _, .initial⟩
  | tail _ hmakes ih =>
    obtain ⟨sources, last, htraced⟩ := ih
    exact htraced.exists_of_makes hmakes

/-- A search keeps a node that it has visited. -/
theorem visits_of_explore {worklist : List Node} {best : Option Node} {out : Outcome}
    (h : g.explore tokens.toArray worklist best = some out) :
    (∀ m ∈ worklist, g.Visits tokens m) → (∀ b ∈ best, g.Visits tokens b) →
      ∀ furthest, out = .rejected furthest → ∀ n ∈ furthest, g.Visits tokens n := by
  refine explore_induction (motive := fun worklist best out =>
    (∀ m ∈ worklist, g.Visits tokens m) → (∀ b ∈ best, g.Visits tokens b) →
      ∀ furthest, out = .rejected furthest → ∀ n ∈ furthest, g.Visits tokens n)
    ?empty ?accept ?dead ?shift ?fork h
  case empty =>
    rintro best - hbest _ ⟨⟩
    exact hbest
  case accept => exact fun n rest best _ _ _ _ furthest hout => nomatch hout
  case dead =>
    intro n rest best out _ ih hworklist hbest
    obtain ⟨hn, hrest⟩ := List.forall_mem_cons.1 hworklist
    refine ih hrest fun b hb => ?_
    rcases Records.mem_further hb with hb | rfl
    · exact hbest b hb
    · exact hn
  case shift =>
    intro n rest best out t ss hp ht ih hworklist
    obtain ⟨hn, hrest⟩ := List.forall_mem_cons.1 hworklist
    have hstep := step_eq_iff.2 (.shift (g := g) hp ht)
    exact ih (List.forall_mem_cons.2 ⟨hn.tail (.shift hstep), hrest⟩)
  case fork =>
    intro n rest best out t id ss hp ht hb ih hworklist
    obtain ⟨hn, hrest⟩ := List.forall_mem_cons.1 hworklist
    have hstep := step_eq_iff.2 (.fork hp ht hb)
    exact ih (List.forall_mem_append.2 ⟨fun m hm => hn.tail (.fork hstep hm), hrest⟩)

theorem visits_of_rejected (h : g.search tokens = some (.rejected (some n))) :
    g.Visits tokens n :=
  visits_of_explore h (List.forall_mem_singleton.2 .refl)
    (fun _ hb => absurd hb (Option.not_mem_none _)) _ rfl n rfl

/-- The rule to blame at a node that is visited is in the table. -/
theorem Visits.exists_rule (h : g.Visits tokens n) {i : Nat} (hi : n.owner = some i) :
    ∃ r, g.rules[i]? = some r := by
  obtain ⟨sources, last, htraced⟩ := h.exists_traced
  have hattributed := attributed_of_traced htraced
  have hsuffix : (sources.map Prod.snd).headD last <:+ n.uses := by
    cases sources with
    | nil => exact hattributed.last_suffix
    | cons x sources => exact hattributed.suffix x List.mem_cons_self
  rw [hattributed.owner_eq, latestRule, Option.map_eq_some_iff] at hi
  obtain ⟨u, hu, rfl⟩ := hi
  exact hattributed.rules u (hsuffix.subset (List.mem_of_mem_head? hu))

theorem diagnose_of_owner {i : Nat} {r : Rule ε σ} (hi : n.owner = some i)
    (hr : g.rules[i]? = some r) (o : Origin) :
    g.diagnose o tokens (some n) = r.diagnose (n.failure tokens.toArray) o := by
  simp [diagnose, hi, hr]

theorem diagnose_of_no_owner (g : Grammar ε σ) (h : n.owner = none) (o : Origin) :
    g.diagnose o tokens (some n) =
      Rule.plainDiagnose Symbol.describe (n.failure tokens.toArray) o := by
  simp [diagnose, h]

/-- Every node that a search may visit has the uses of rules that brought in its pending symbols,
    and its owners are their run-length encoding: all counts are positive, and their sum is the
    number of pending symbols. So the rule to blame is the one that brought in the next symbol, and
    none for the start symbol; if no symbol is pending, it is the one that expanded the last symbol
    to nothing, or else brought it in. A search without success keeps a dead end that it has
    visited, and the rule to blame for it makes the diagnostic; without one, it is put in plain
    words. -/
theorem owner_introduces_pending (g : Grammar ε σ) (tokens : List Token) :
    (∀ n, g.Visits tokens n ↔ ∃ sources last, g.Traced tokens n sources last) ∧
    (∀ n sources last, g.Traced tokens n sources last →
      n.pending = sources.map Prod.fst ∧
      n.owners = (runs (sources.map Prod.snd)).map (Prod.map latestRule id) ∧
      (∀ x ∈ n.owners, 0 < x.2) ∧
      (n.owners.map Prod.snd).sum = n.pending.length ∧
      (∀ s us rest, sources = (s, us) :: rest → n.owner = latestRule us) ∧
      (sources = [] → n.owner = latestRule last)) ∧
    (tokens ≠ [] → ∀ furthest, g.search tokens = some (.rejected furthest) →
      ∃ n, furthest = some n ∧ g.step tokens.toArray n = .dead ∧ g.Visits tokens n ∧
        (∀ i, n.owner = some i → ∃ r, g.rules[i]? = some r ∧ ∀ o s,
          g.parse o tokens s = .error (.reported (r.diagnose (n.failure tokens.toArray) o))) ∧
        (n.owner = none → ∀ o s, g.parse o tokens s = .error (.reported
          (Rule.plainDiagnose Symbol.describe (n.failure tokens.toArray) o)))) := by
  refine ⟨fun n => ⟨fun h => h.exists_traced, fun ⟨_, _, h⟩ => .of_traced h⟩,
    fun n sources last h => ?_, fun hne furthest h => ?_⟩
  · have hattributed := attributed_of_traced h
    have hcounts : n.owners.map Prod.snd = (runs (sources.map Prod.snd)).map Prod.snd := by
      rw [hattributed.owners_eq, List.map_map]
      rfl
    refine ⟨hattributed.pending_eq, hattributed.owners_eq, fun x hx => ?_, ?_, ?_, ?_⟩
    · rw [hattributed.owners_eq] at hx
      obtain ⟨y, hy, rfl⟩ := List.mem_map.1 hx
      exact pos_of_mem_runs _ y hy
    · rw [hcounts, sum_runs, hattributed.pending_eq, List.length_map, List.length_map]
    · rintro s us rest rfl
      exact hattributed.owner_eq
    · rintro rfl
      exact hattributed.owner_eq
  · obtain ⟨n, rfl, hdead, -⟩ := furthest_of_rejected h
    have hvisits := visits_of_rejected h
    refine ⟨n, rfl, step_eq_iff.2 hdead, hvisits, fun i hi => ?_, fun hnone o s => ?_⟩
    · obtain ⟨r, hr⟩ := hvisits.exists_rule hi
      refine ⟨r, hr, fun o s => ?_⟩
      rw [parse_of_rejected hne h, diagnose_of_owner hi hr]
    · rw [parse_of_rejected hne h, diagnose_of_no_owner g hnone]

/-- An identifier and something that derives nothing, before a number: the rule that derives nothing
    is to blame. -/
theorem owner_introduces_pending_empty :
    let g : Grammar Unit Unit := .ofRules (.nonterminal 100)
      [Production.toRule (.bare (.nonterminal 100) [.terminal 1, .nonterminal 101]),
        Production.toRule (.bare (.nonterminal 101) [])]
    let tokens : List Token := [⟨1, "a", ⟨0, 1⟩, .nowhere⟩, ⟨2, "1", ⟨2, 3⟩, .nowhere⟩]
    let n : Node := ⟨1, [], [], [⟨1, 1⟩, ⟨0, 0⟩], some 1⟩
    tokens ≠ [] ∧ g.search tokens = some (.rejected (some n)) ∧ g.Visits tokens n ∧
      g.Traced tokens n [] [⟨1, 1⟩, ⟨0, 0⟩] ∧ n.owner = some 1 ∧
      ∃ r, g.rules[1]? = some r ∧ ∀ o s,
        g.parse o tokens s = .error (.reported (r.diagnose (n.failure tokens.toArray) o)) := by
  intro g tokens n
  have hne : tokens ≠ [] := List.cons_ne_nil _ _
  have hsearch : g.search tokens = some (.rejected (some n)) := by cbv
  -- The identifier is matched between the two expansions.
  have htraced : g.Traced tokens n [] [⟨1, 1⟩, ⟨0, 0⟩] := by
    have hstart := @Traced.initial _ _ g tokens
    have hfirst := hstart.expand (i := 0) rfl List.mem_cons_self rfl
    exact (hfirst.shift rfl).expand (i := 1) rfl List.mem_cons_self rfl
  obtain ⟨-, howner, hreport⟩ := owner_introduces_pending g tokens
  have howner : n.owner = some 1 := (howner n _ _ htraced).2.2.2.2.2 rfl
  obtain ⟨n', hn', -, hvisits, hrule, -⟩ := hreport hne _ hsearch
  obtain rfl := Option.some.inj hn'
  exact ⟨hne, hsearch, hvisits, htraced, howner, hrule 1 howner⟩

end Grammar

end Frontend
