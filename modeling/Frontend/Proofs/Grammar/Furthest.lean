import Frontend.Proofs.Grammar.Language

/-!
# The furthest dead end

A search without success reports the dead end at which most tokens were matched. How many these
are is a matter of the derivations alone: no leftmost derivation matches more of them
(`LeftmostMatches`). If every nonterminal derives some word, what was matched is the longest
beginning of the input with which a sentence begins (`Viable`).

`Advances` follows a derivation from the pending symbols of a node through the tokens that are
left, as far as it is wanted. A step of the search neither adds a token that can be reached nor
gives one up without going on to a node that reaches it or further (`Records.exchange`); so the
dead ends of a search reach as far as its nodes do (`records_of_explore`), and there always is
one. What the failure of a dead end says about it follows from the ways in which a node can be
dead (`DeadEnd`). So a rejected input is always reported at the furthest point that a derivation
can reach (`parse_reports_furthest`).
-/

namespace Frontend

namespace Grammar

variable {ε σ : Type} {g : Grammar ε σ} {tokens : List Token} {ids v w : List Nat}
  {ss ts : List Symbol} {k : Nat} {n m : Node}

/-! ## Advancing through the input -/

/-- The pending symbols `ss` can be made to match the first `k` of `ids`, after which `ts` are
    pending. No rule is used when no token is left. -/
inductive Advances (g : Grammar ε σ) : List Nat → List Symbol → Nat → List Symbol → Prop
  | here {ids : List Nat} {ss : List Symbol} : Advances g ids ss 0 ss
  | shift {id k : Nat} {ids : List Nat} {ss ts : List Symbol} :
      Advances g ids ss k ts → Advances g (id :: ids) (.terminal id :: ss) (k + 1) ts
  | expand {k : Nat} {r : Rule ε σ} {ids : List Nat} {ss ts : List Symbol} :
      ids ≠ [] → r ∈ g.rules → Advances g ids (r.rhs ++ ss) k ts →
        Advances g ids (.nonterminal r.lhs.id :: ss) k ts

theorem Advances.le_length (h : g.Advances ids ss k ts) : k ≤ ids.length := by
  induction h with
  | here => exact Nat.zero_le _
  | shift _ ih => exact Nat.succ_le_succ ih
  | expand _ _ _ ih => exact ih

/-- Symbols may be replaced behind terminals that leave something of the input. -/
theorem Advances.replace {ss' : List Symbol} (hlt : w.length < ids.length)
    (h : g.Advances ids (w.map .terminal ++ ss') k ts)
    (hss : ∀ ids k ts, ids ≠ [] → g.Advances ids ss' k ts → g.Advances ids ss k ts) :
    ∃ ts', g.Advances ids (w.map .terminal ++ ss) k ts' := by
  induction w generalizing ids k with
  | nil => exact ⟨ts, hss ids k ts (List.length_pos_iff.1 hlt) h⟩
  | cons id w ih =>
    cases h with
    | here => exact ⟨_, .here⟩
    | shift h =>
      obtain ⟨ts', h⟩ := ih (Nat.lt_of_succ_lt_succ hlt) h
      exact ⟨ts', .shift h⟩

/-- Pending terminals advance over the tokens that they match. -/
theorem advances_take (hk : k ≤ ids.length) (ts : List Symbol) :
    g.Advances ids ((ids.take k).map .terminal ++ ts) k ts := by
  induction ids generalizing k with
  | nil =>
    obtain rfl := Nat.le_zero.1 hk
    exact .here
  | cons id ids ih =>
    cases k with
    | zero => exact .here
    | succ k => exact .shift (ih (Nat.le_of_succ_le_succ hk))

/-! ## Leftmost derivations -/

/-- Some leftmost derivation matches the first `k` of `ids`, by steps that are taken while some
    of `ids` is not yet matched. -/
def LeftmostMatches (g : Grammar ε σ) (ids : List Nat) (k : Nat) : Prop :=
  ∃ ss, Relation.ReflTransGen (g.LeftStep ids.length) [g.start]
    ((ids.take k).map .terminal ++ ss)

/-- A leftmost derivation that has matched some tokens advances over them. -/
theorem advances_of_leftSteps (hk : k ≤ ids.length)
    (h : Relation.ReflTransGen (g.LeftStep ids.length) ss ((ids.take k).map .terminal ++ ts)) :
    ∃ ts', g.Advances ids ss k ts' := by
  induction h using Relation.ReflTransGen.head_induction_on with
  | refl => exact ⟨ts, advances_take hk ts⟩
  | head hstep _ ih =>
    obtain ⟨ts', ih⟩ := ih
    cases hstep with
    | replace hr hlt => exact ih.replace hlt fun ids k ts hne h => .expand hne hr h

/-- What advances is derived step by step, behind any tokens that are there already. -/
theorem Advances.leftSteps (h : g.Advances ids ss k ts) (w : List Nat) :
    Relation.ReflTransGen (g.LeftStep (w ++ ids).length) (w.map .terminal ++ ss)
      ((w ++ ids.take k).map .terminal ++ ts) := by
  induction h generalizing w with
  | here =>
    rw [List.take_zero, List.append_nil]
  | @shift id k ids ss ts _ ih =>
    have := ih (w ++ [id])
    simp only [List.map_append, List.append_assoc] at this ⊢
    exact this
  | expand hne hr _ ih =>
    refine .head (.replace hr ?_) (ih w)
    rw [List.length_append]
    exact Nat.lt_add_of_pos_right (List.length_pos_iff.2 hne)

/-- The tokens that a leftmost derivation can match are those over which the start symbol
    advances. -/
theorem leftmostMatches_iff (hk : k ≤ ids.length) :
    g.LeftmostMatches ids k ↔ ∃ ts, g.Advances ids [g.start] k ts := by
  constructor
  · rintro ⟨ts, h⟩
    exact advances_of_leftSteps hk h
  · rintro ⟨ts, h⟩
    exact ⟨ts, h.leftSteps []⟩

/-! ## Beginnings of sentences -/

/-- A sentence begins with the word. -/
def Viable (g : Grammar ε σ) (u : List Nat) : Prop := ∃ w, u ++ w ∈ g.sentences

/-- The symbol is the start symbol or stands on the right-hand side of a rule. -/
def Mentions (g : Grammar ε σ) (s : Symbol) : Prop := s = g.start ∨ ∃ r ∈ g.rules, s ∈ r.rhs

/-- Every nonterminal that the grammar mentions derives some word. -/
def Productive (g : Grammar ε σ) : Prop :=
  ∀ id, g.Mentions (.nonterminal id) →
    ∃ w : List Nat, g.toContextFree.Derives [.nonterminal id] (w.map .terminal)

/-- The symbols can follow a word as far as the input agrees with it. -/
def Follows (g : Grammar ε σ) (ss : List Symbol) (v : List Nat) : Prop :=
  ∀ u ids, u <+: v → u <+: ids → ∃ ts, g.Advances ids ss u.length ts

/-- The symbols of a forest, and others behind them, can follow its leaves. -/
theorem Forest.follows (f : Forest g ss) (h : g.Follows ts v) :
    g.Follows (ss ++ ts) (f.leaves ++ v) := by
  induction f generalizing ts v with
  | nil => exact h
  | leaf id rest ih =>
    intro u ids hu hids
    cases u with
    | nil => exact ⟨_, .here⟩
    | cons id' u =>
      rw [leaves, List.cons_append, List.cons_prefix_cons] at hu
      obtain ⟨rfl, hu⟩ := hu
      obtain ⟨later, rfl⟩ := hids
      obtain ⟨ts', h'⟩ := ih h u (u ++ later) hu (List.prefix_append u later)
      exact ⟨ts', .shift h'⟩
  | @node i id r ss hi hid children rest ihc ih =>
    subst hid
    intro u ids hu hids
    rw [leaves, List.append_assoc] at hu
    by_cases hnil : u = []
    · subst hnil
      exact ⟨_, .here⟩
    · obtain ⟨ts', h'⟩ := ihc (ih h) u ids hu hids
      exact ⟨ts', .expand (List.IsPrefix.ne_nil hids hnil) (List.mem_of_getElem? hi) h'⟩

/-- A forest for what is pending in the end makes one for what was pending before, with the matched
    tokens in front. -/
theorem Advances.exists_forest (h : g.Advances ids ss k ts) (f : Forest g ts) :
    ∃ f' : Forest g ss, f'.leaves = ids.take k ++ f.leaves := by
  induction h with
  | here => exact ⟨f, rfl⟩
  | shift _ ih =>
    obtain ⟨f', hf'⟩ := ih f
    exact ⟨.leaf _ f', by rw [Forest.leaves, hf']; rfl⟩
  | expand _ hr _ ih =>
    obtain ⟨i, hi⟩ := List.mem_iff_getElem?.1 hr
    obtain ⟨f', hf'⟩ := ih f
    obtain ⟨children, rest, rfl⟩ := f'.exists_eq_append
    exact ⟨.node hi rfl children rest, by rw [← hf', Forest.leaves_append, Forest.leaves]⟩

/-- Only symbols that the grammar mentions become pending. -/
theorem Advances.mentions (h : g.Advances ids ss k ts) (hss : ∀ s ∈ ss, g.Mentions s) :
    ∀ s ∈ ts, g.Mentions s := by
  induction h with
  | here => exact hss
  | shift _ ih => exact ih (List.forall_mem_cons.1 hss).2
  | expand _ hr _ ih =>
    refine ih (List.forall_mem_append.2 ⟨fun s hs => .inr ⟨_, hr, hs⟩, ?_⟩)
    exact (List.forall_mem_cons.1 hss).2

/-- Only terminals that the grammar mentions come up as leaves. -/
theorem Forest.mentions_leaf (f : Forest g ss) (hss : ∀ s ∈ ss, g.Mentions s) :
    ∀ id ∈ f.leaves, g.Mentions (.terminal id) := by
  induction f with
  | nil => exact fun id hid => absurd hid List.not_mem_nil
  | leaf id rest ih =>
    obtain ⟨hid, hrest⟩ := List.forall_mem_cons.1 hss
    exact List.forall_mem_cons.2 ⟨hid, ih hrest⟩
  | node hi hid children rest ihc ih =>
    obtain ⟨-, hrest⟩ := List.forall_mem_cons.1 hss
    have hchildren := ihc fun s hs => .inr ⟨_, List.mem_of_getElem? hi, hs⟩
    exact List.forall_mem_append.2 ⟨hchildren, ih hrest⟩

/-- In a productive grammar, there is a forest for any symbols that it mentions. -/
theorem Productive.exists_forest (hg : g.Productive) (hss : ∀ s ∈ ss, g.Mentions s) :
    Nonempty (Forest g ss) := by
  induction ss with
  | nil => exact ⟨.nil⟩
  | cons s ss ih =>
    obtain ⟨hs, hss⟩ := List.forall_mem_cons.1 hss
    obtain ⟨f⟩ := ih hss
    cases s with
    | terminal id => exact ⟨.leaf id f⟩
    | nonterminal id =>
      obtain ⟨w, hw⟩ := hg id hs
      obtain ⟨tree, -⟩ : ∃ tree : g.Tree (.nonterminal id), tree.leaves = w :=
        Forest.exists_of_derives hw
      exact ⟨tree.append f⟩

/-- In a productive grammar, a sentence begins with some tokens exactly if the start symbol advances
    over them. -/
theorem viable_take_iff (hg : g.Productive) (hk : k ≤ ids.length) :
    g.Viable (ids.take k) ↔ ∃ ts, g.Advances ids [g.start] k ts := by
  constructor
  · rintro ⟨w, hw⟩
    obtain ⟨tree, hleaves⟩ := mem_sentences_iff.1 hw
    have hnil : g.Follows [] [] := fun u ids hu _ => by
      obtain rfl := List.prefix_nil.1 hu
      exact ⟨[], .here⟩
    have := tree.follows hnil (ids.take k) ids (by simp [hleaves]) (List.take_prefix k ids)
    rwa [List.length_take_of_le hk] at this
  · rintro ⟨ts, h⟩
    have hstart : ∀ s ∈ [g.start], g.Mentions s := List.forall_mem_singleton.2 (.inl rfl)
    obtain ⟨f⟩ := hg.exists_forest (h.mentions hstart)
    obtain ⟨tree, htree⟩ := h.exists_forest f
    exact ⟨f.leaves, mem_sentences_iff.2 ⟨tree, htree⟩⟩

/-! ## The nodes of a search -/

/-- The node has matched, or can be made to match, `k` tokens with `ts` pending after them. -/
def Reaches (g : Grammar ε σ) (tokens : List Token) (n : Node) (k : Nat) (ts : List Symbol) :
    Prop :=
  ∃ j, g.Advances (n.remaining tokens) n.pending j ts ∧ k = n.cursor + j

theorem reaches_self (g : Grammar ε σ) (tokens : List Token) (n : Node) :
    g.Reaches tokens n n.cursor n.pending :=
  ⟨0, .here, rfl⟩

/-- A dead end reaches no further than it has come. -/
theorem Reaches.eq_cursor (h : g.Reaches tokens n k ts) (hs : g.Stepped tokens n .dead) :
    k = n.cursor := by
  obtain ⟨j, h, rfl⟩ := h
  cases hs with
  | surplus hp ht =>
    rw [hp, Node.remaining_eq_cons ht] at h
    cases h with
    | here => rfl
  | missing hp hc =>
    rw [hp, Node.remaining_eq_nil_iff.2 hc] at h
    cases h with
    | here => rfl
    | expand hne => exact absurd rfl hne
  | mismatch hp ht hid =>
    rw [hp, Node.remaining_eq_cons ht] at h
    cases h with
    | here => rfl
    | shift => exact absurd rfl hid
  | stuck hp ht hb =>
    rw [hp, Node.remaining_eq_cons ht] at h
    cases h with
    | here => rfl
    | expand _ hr _ => exact absurd rfl (branches_eq_nil_iff.1 hb _ hr)

/-- The nodes `ms` can be searched instead of `n`: together they reach what it reaches, or
    further, and nothing else. -/
structure Continues (g : Grammar ε σ) (tokens : List Token) (n : Node) (ms : List Node) :
    Prop where
  forth : ∀ k ts, g.Reaches tokens n k ts → ∃ m ∈ ms, ∃ k' ts', k ≤ k' ∧ g.Reaches tokens m k' ts'
  back : ∀ m ∈ ms, ∀ k ts, g.Reaches tokens m k ts → g.Reaches tokens n k ts

/-- A node can be replaced by the one behind its next token. -/
theorem continues_shift {t : Token} (hp : n.pending = .terminal t.id :: ss)
    (ht : tokens[n.cursor]? = some t) : g.Continues tokens n [n.shift] where
  forth := by
    rintro k ts ⟨j, h, rfl⟩
    rw [hp, Node.remaining_shift ht] at h
    refine ⟨_, List.mem_singleton_self _, ?_⟩
    cases h with
    | here => exact ⟨_, _, Nat.le_succ _, reaches_self g tokens n.shift⟩
    | @shift _ j _ _ _ h =>
      refine ⟨_, ts, Nat.le_refl _, j, ?_, ?_⟩
      · rwa [Node.pending_shift, hp, List.tail_cons]
      · rw [Node.cursor_shift]
        omega
  back := by
    intro m hm k ts h
    obtain rfl := List.mem_singleton.1 hm
    obtain ⟨j, h, rfl⟩ := h
    rw [Node.pending_shift, hp, List.tail_cons] at h
    refine ⟨j + 1, ?_, ?_⟩
    · rw [hp, Node.remaining_shift ht]
      exact .shift h
    · rw [Node.cursor_shift]
      omega

/-- A node can be replaced by its branches. -/
theorem continues_fork {t : Token} {id : Nat} (hp : n.pending = .nonterminal id :: ss)
    (ht : tokens[n.cursor]? = some t) (hb : g.branches n id ≠ []) :
    g.Continues tokens n (g.branches n id) where
  forth := by
    rintro k ts ⟨j, h, rfl⟩
    rw [hp] at h
    generalize hids : n.remaining tokens = ids at h
    cases h with
    | here =>
      obtain ⟨m, hm⟩ := List.exists_mem_of_ne_nil _ hb
      obtain ⟨i, r, -, -, rfl⟩ := mem_branches.1 hm
      refine ⟨_, hm, _, _, ?_, reaches_self g tokens _⟩
      rw [Node.cursor_expand]
      exact Nat.le_refl _
    | expand _ hr h =>
      obtain ⟨i, hi⟩ := List.mem_iff_getElem?.1 hr
      refine ⟨_, mem_branches.2 ⟨i, _, hi, rfl, rfl⟩, _, ts, Nat.le_refl _, j, ?_, ?_⟩
      · rwa [Node.remaining_expand, Node.pending_expand, hp, List.tail_cons, hids]
      · rw [Node.cursor_expand]
  back := by
    intro m hm k ts h
    obtain ⟨i, r, hi, rfl, rfl⟩ := mem_branches.1 hm
    obtain ⟨j, h, rfl⟩ := h
    rw [Node.remaining_expand, Node.pending_expand, hp, List.tail_cons] at h
    refine ⟨j, ?_, by rw [Node.cursor_expand]⟩
    rw [hp]
    refine .expand ?_ (List.mem_of_getElem? hi) h
    rw [Node.remaining_eq_cons ht]
    exact List.cons_ne_nil _ _

/-! ## What is recorded -/

/-- The dead end kept in the end, given the nodes that the search begins with and the dead end it
    had before: none of them reaches further, and it is one that they reach or had before. -/
structure Records (g : Grammar ε σ) (tokens : List Token) (worklist : List Node)
    (best furthest : Option Node) : Prop where
  dominates : ∀ m ∈ worklist, ∀ k ts, g.Reaches tokens m k ts → ∃ n ∈ furthest, k ≤ n.cursor
  keeps : ∀ b ∈ best, ∃ n ∈ furthest, b.cursor ≤ n.cursor
  origin : ∀ n ∈ furthest, n ∈ best ∨ g.Stepped tokens n .dead ∧
    ∃ m ∈ worklist, g.Reaches tokens m n.cursor n.pending

namespace Records

variable {best furthest : Option Node} {ms rest : List Node}

/-- A node can be put in the place of those that continue it. -/
theorem exchange (hc : g.Continues tokens n ms) (h : g.Records tokens (ms ++ rest) best furthest) :
    g.Records tokens (n :: rest) best furthest where
  dominates := by
    refine List.forall_mem_cons.2 ⟨fun k ts hn => ?_, fun m hm => ?_⟩
    · obtain ⟨m, hm, k', ts', hle, hreach⟩ := hc.forth k ts hn
      obtain ⟨n', hn', hle'⟩ := h.dominates m (List.mem_append_left _ hm) k' ts' hreach
      exact ⟨n', hn', Nat.le_trans hle hle'⟩
    · exact h.dominates m (List.mem_append_right _ hm)
  keeps := h.keeps
  origin := by
    intro n' hn'
    refine (h.origin n' hn').imp_right fun ⟨hdead, m, hm, hreach⟩ => ⟨hdead, ?_⟩
    rcases List.mem_append.1 hm with hm | hm
    · exact ⟨n, List.mem_cons_self, hc.back m hm _ _ hreach⟩
    · exact ⟨m, List.mem_cons_of_mem _ hm, hreach⟩

/-- The dead end to keep has matched as many tokens as each of the two. -/
theorem further_le (best : Option Node) (n : Node) :
    ∃ f ∈ further best n, n.cursor ≤ f.cursor ∧ ∀ b ∈ best, b.cursor ≤ f.cursor := by
  unfold further
  cases best with
  | none => exact ⟨n, rfl, Nat.le_refl _, fun b hb => absurd hb (Option.not_mem_none b)⟩
  | some best =>
    dsimp only
    split
    · next h =>
      refine ⟨best, rfl, h, fun b hb => ?_⟩
      obtain rfl := Option.some.inj hb
      exact Nat.le_refl _
    · next h =>
      refine ⟨n, rfl, Nat.le_refl _, fun b hb => ?_⟩
      obtain rfl := Option.some.inj hb
      exact Nat.le_of_not_le h

theorem mem_further {f : Node} (h : f ∈ further best n) : f ∈ best ∨ f = n := by
  unfold further at h
  cases best with
  | none => exact .inr (Option.some.inj h).symm
  | some best =>
    dsimp only at h
    split at h
    · exact .inl h
    · exact .inr (Option.some.inj h).symm

/-- A dead end can be put back in front of the nodes. -/
theorem dead (hs : g.Stepped tokens n .dead)
    (h : g.Records tokens rest (further best n) furthest) :
    g.Records tokens (n :: rest) best furthest := by
  obtain ⟨f, hf, hn, hbest⟩ := further_le best n
  obtain ⟨n', hn', hle⟩ := h.keeps f hf
  refine ⟨?_, fun b hb => ⟨n', hn', Nat.le_trans (hbest b hb) hle⟩, fun n'' hn'' => ?_⟩
  · refine List.forall_mem_cons.2 ⟨fun k ts hreach => ⟨n', hn', ?_⟩, h.dominates⟩
    rw [hreach.eq_cursor hs]
    exact Nat.le_trans hn hle
  · rcases h.origin n'' hn'' with hmem | ⟨hdead, m, hm, hreach⟩
    · rcases mem_further hmem with hmem | rfl
      · exact .inl hmem
      · exact .inr ⟨hs, n'', List.mem_cons_self, reaches_self g tokens n''⟩
    · exact .inr ⟨hdead, m, List.mem_cons_of_mem _ hm, hreach⟩

end Records

/-- A search without success keeps a dead end that reaches as far as the nodes it begins with. -/
theorem records_of_explore {worklist : List Node} {best furthest : Option Node}
    (h : g.explore tokens.toArray worklist best = some (.rejected furthest)) :
    g.Records tokens worklist best furthest := by
  generalize hout : Outcome.rejected furthest = out at h
  refine explore_induction (motive := fun worklist best out => out = .rejected furthest →
    g.Records tokens worklist best furthest) ?empty ?accept ?dead ?shift ?fork h hout.symm
  case empty =>
    rintro best ⟨⟩
    exact ⟨fun m hm => absurd hm List.not_mem_nil, fun b hb => ⟨b, hb, Nat.le_refl _⟩,
      fun n hn => .inl hn⟩
  case accept => exact fun n rest best _ _ hout => nomatch hout
  case dead => exact fun n rest best out hs ih hout => (ih hout).dead hs
  case shift =>
    exact fun n rest best out t ss hp ht ih hout => .exchange (continues_shift hp ht) (ih hout)
  case fork =>
    exact fun n rest best out t id ss hp ht hb ih hout =>
      .exchange (continues_fork hp ht hb) (ih hout)

/-- A search is rejected at a dead end that no derivation gets beyond. -/
theorem furthest_of_rejected {furthest : Option Node}
    (h : g.search tokens = some (.rejected furthest)) :
    ∃ n, furthest = some n ∧ g.Stepped tokens n .dead ∧
      g.Advances (tokens.map Token.id) [g.start] n.cursor n.pending ∧
      ∀ k ts, g.Advances (tokens.map Token.id) [g.start] k ts → k ≤ n.cursor := by
  have hrecords := records_of_explore h
  have hinitial (k : Nat) (ts : List Symbol) : g.Reaches tokens (Node.initial g.start) k ts ↔
      g.Advances (tokens.map Token.id) [g.start] k ts := by
    rw [Reaches, remaining_initial]
    simp [Node.initial]
  have hmem := List.mem_singleton_self (Node.initial g.start)
  obtain ⟨n, hn, -⟩ := hrecords.dominates _ hmem _ _ (reaches_self g tokens _)
  rcases hrecords.origin n hn with hnone | ⟨hdead, m, hm, hreach⟩
  · exact absurd hnone (Option.not_mem_none n)
  · obtain rfl := List.mem_singleton.1 hm
    refine ⟨n, hn, hdead, (hinitial _ _).1 hreach, fun k ts hk => ?_⟩
    obtain ⟨n', hn', hle⟩ := hrecords.dominates _ hmem k ts ((hinitial k ts).2 hk)
    rwa [Option.mem_unique hn hn']

/-! ## What is reported -/

/-- The symbol wanted next cannot begin with the token: it is another terminal, or a nonterminal
    without rules. -/
inductive Clashes (g : Grammar ε σ) (t : Token) : Symbol → Prop
  | terminal {id : Nat} : id ≠ t.id → Clashes g t (.terminal id)
  | nonterminal {id : Nat} : (∀ r ∈ g.rules, r.lhs.id ≠ id) → Clashes g t (.nonterminal id)

/-- A failure that says of some derivation why it cannot be continued. -/
structure DeadEnd (g : Grammar ε σ) (tokens : List Token) (f : Failure) : Prop where
  /-- The derivation has matched the tokens before the failure, and the expected symbol is the
      next one pending. -/
  reached : ∃ ss, Relation.ReflTransGen (g.LeftStep tokens.length) [g.start]
    (((tokens.map Token.id).take f.position).map .terminal ++ ss) ∧ f.expected = ss.head?
  endFound_iff : f.endFound ↔ f.position = tokens.length
  endExpected_iff : f.endExpected ↔ f.expected = none
  atEnd : f.position = tokens.length → (∃ s, f.expected = some s) ∧ f.found = none ∧
    ∃ last ∈ tokens.getLast?, f.span = .empty last.span.stop
  inside : f.position ≠ tokens.length → ∃ t, tokens[f.position]? = some t ∧ f.found = some t ∧
    f.span = t.span ∧ ∀ s, f.expected = some s → g.Clashes t s

/-- Where all tokens are matched, a dead end lacks one. -/
theorem exists_pending_of_dead (hs : g.Stepped tokens n .dead) (hc : tokens.length ≤ n.cursor) :
    ∃ s ss, n.pending = s :: ss := by
  cases hs with
  | surplus _ ht => simp [List.getElem?_eq_none hc] at ht
  | missing hp _ | mismatch hp _ _ | stuck hp _ _ => exact ⟨_, _, hp⟩

/-- Before a token, a dead end wants nothing or what cannot begin with the token. -/
theorem clashes_of_dead {t : Token} {s : Symbol} (hs : g.Stepped tokens n .dead)
    (ht : tokens[n.cursor]? = some t) (hp : n.pending.head? = some s) : g.Clashes t s := by
  cases hs with
  | surplus hnil _ => simp [hnil] at hp
  | missing _ hc => simp [List.getElem?_eq_none hc] at ht
  | mismatch hp' ht' hid =>
    obtain rfl : _ = s := by simpa [hp'] using hp
    obtain rfl := Option.some.inj (ht'.symm.trans ht)
    exact .terminal hid
  | stuck hp' _ hb =>
    obtain rfl : _ = s := by simpa [hp'] using hp
    exact .nonterminal (branches_eq_nil_iff.1 hb)

/-- The failure of a dead node says why its derivation cannot be continued. -/
theorem deadEnd_of_dead (hne : tokens ≠ []) (hs : g.Stepped tokens n .dead)
    (h : g.Advances (tokens.map Token.id) [g.start] n.cursor n.pending) :
    g.DeadEnd tokens (n.failure tokens.toArray) := by
  have hle : n.cursor ≤ tokens.length := by simpa using h.le_length
  have hsteps := h.leftSteps []
  rw [List.nil_append, List.length_map] at hsteps
  have hpending (hend : n.cursor = tokens.length) : ∃ s ss, n.pending = s :: ss :=
    exists_pending_of_dead hs (Nat.le_of_eq hend.symm)
  refine
    { reached := ⟨n.pending, hsteps, rfl⟩
      endFound_iff := ⟨fun hend => ?_, fun hend => ?_⟩
      endExpected_iff := by simp [Node.failure]
      atEnd := fun hend => ?_
      inside := fun hinside => ?_ }
  · simp only [Node.failure, List.size_toArray, Bool.and_eq_true, decide_eq_true_eq] at hend
    exact Nat.le_antisymm hle hend.2
  · replace hend : n.cursor = tokens.length := hend
    obtain ⟨s, ss, hp⟩ := hpending hend
    simp [Node.failure, hp, hend]
  · replace hend : n.cursor = tokens.length := hend
    obtain ⟨s, ss, hp⟩ := hpending hend
    have hlast := List.getLast?_eq_some_getLast hne
    refine ⟨⟨s, by simp [Node.failure, hp]⟩, by simp [Node.failure, hend], _, hlast, ?_⟩
    simp [Node.failure, hend, hlast]
  · have hlt : n.cursor < tokens.length := Nat.lt_of_le_of_ne hle hinside
    have ht := List.getElem?_eq_getElem hlt
    refine ⟨tokens[n.cursor], ht, ?_, ?_, fun s hp => clashes_of_dead hs ht hp⟩
    · simp [Node.failure, ht]
    · simp [Node.failure, ht]

theorem problem_plainDiagnose_ne (name : Symbol → String) (f : Failure) (o : Origin)
    (symbol : String) : (Rule.plainDiagnose name f o).problem ≠ .noRules symbol := by
  simp only [Rule.plainDiagnose, Origin.report, Diagnostic.problem, Failure.complaint]
  split
  · exact Problem.noConfusion
  · split <;> exact Problem.noConfusion

/-- A dead end is put into words by the rule that is to blame for it, or else in plain ones. -/
theorem diagnose_some (g : Grammar ε σ) (o : Origin) (tokens : List Token) (n : Node) :
    (∃ r ∈ g.rules, g.diagnose o tokens (some n) = r.diagnose (n.failure tokens.toArray) o) ∨
      g.diagnose o tokens (some n) =
        Rule.plainDiagnose Symbol.describe (n.failure tokens.toArray) o := by
  rw [diagnose]
  split
  · next r hr =>
    obtain ⟨i, -, hi⟩ := Option.bind_eq_some_iff.1 hr
    exact .inl ⟨r, List.mem_of_getElem? hi, rfl⟩
  · exact .inr rfl

/-- Tokens for which the search ends without a derivation are reported at a dead end. No leftmost
    derivation that uses no rule after the last token matches more of them; if every nonterminal
    derives some word, no sentence begins with more of them. That the search had no way to begin
    is never reported, unless a rule has these words for a dead end. -/
theorem parse_reports_furthest (g : Grammar ε σ) (o : Origin) (tokens : List Token) (s : σ)
    (hne : tokens ≠ []) {furthest : Option Node}
    (h : g.search tokens = some (.rejected furthest)) :
    ∃ (f : Failure) (d : Diagnostic), f ∈ furthest.map (Node.failure tokens.toArray) ∧
      g.parse o tokens s = .error (.reported d) ∧
      ((∃ r ∈ g.rules, d = r.diagnose f o) ∨ d = Rule.plainDiagnose Symbol.describe f o) ∧
      IsGreatest {k | k ≤ tokens.length ∧ g.LeftmostMatches (tokens.map Token.id) k} f.position ∧
      (g.Productive → IsGreatest
        {k | k ≤ tokens.length ∧ g.Viable ((tokens.map Token.id).take k)} f.position) ∧
      g.DeadEnd tokens f ∧
      ∀ symbol, d.problem = .noRules symbol →
        ∃ r ∈ g.rules, (r.diagnose f o).problem = .noRules symbol := by
  obtain ⟨n, rfl, hdead, hn, hmost⟩ := furthest_of_rejected h
  -- Either notion of how far the tokens can be matched is that of advancing through them.
  have hgreatest {P : Nat → Prop}
      (hP : ∀ k ≤ (tokens.map Token.id).length,
        (P k ↔ ∃ ts, g.Advances (tokens.map Token.id) [g.start] k ts)) :
      IsGreatest {k | k ≤ tokens.length ∧ P k} n.cursor := by
    rw [List.length_map] at hP
    have hle : n.cursor ≤ tokens.length := by simpa using hn.le_length
    refine ⟨⟨hle, (hP _ hle).2 ⟨_, hn⟩⟩, fun k ⟨hk, hPk⟩ => ?_⟩
    obtain ⟨ts, hts⟩ := (hP k hk).1 hPk
    exact hmost k ts hts
  have hwords := g.diagnose_some o tokens n
  refine ⟨n.failure tokens.toArray, g.diagnose o tokens (some n), rfl,
    parse_of_rejected hne h o s, hwords, hgreatest fun k => leftmostMatches_iff,
    fun hg => hgreatest fun k => viable_take_iff hg, deadEnd_of_dead hne hdead hn, ?_⟩
  intro symbol hsymbol
  rcases hwords with ⟨r, hr, hd⟩ | hd
  · exact ⟨r, hr, hd ▸ hsymbol⟩
  · rw [hd] at hsymbol
    exact absurd hsymbol (problem_plainDiagnose_ne _ _ _ _)

theorem productive_parentheses : Parentheses.grammar.Productive := by
  have hrules : ∀ r ∈ Parentheses.grammar.rules, ∀ s ∈ r.rhs,
      s ∈ [Parentheses.sequence, Parentheses.nested, .terminal 17, .terminal 18] := by
    decide
  -- The group without contents, and the sequence of this group alone.
  let nested : Parentheses.grammar.Tree Parentheses.nested :=
    .node (i := 2) rfl rfl (.leaf 17 (.leaf 18 .nil)) .nil
  let sequence : Parentheses.grammar.Tree Parentheses.sequence := .node (i := 0) rfl rfl nested .nil
  intro id hid
  have hcases : .nonterminal id = Parentheses.sequence ∨ .nonterminal id = Parentheses.nested := by
    rcases hid with hstart | ⟨r, hr, hid⟩
    · exact .inl hstart
    · simpa using hrules r hr _ hid
  rcases hcases with h | h
  · obtain rfl := Symbol.nonterminal.inj h
    exact ⟨_, sequence.derives⟩
  · obtain rfl := Symbol.nonterminal.inj h
    exact ⟨_, nested.derives⟩

theorem parse_reports_furthest_parentheses :
    let tokens : List Token := [⟨17, "(", ⟨0, 1⟩, .nowhere⟩, ⟨18, ")", ⟨1, 2⟩, .nowhere⟩,
      ⟨18, ")", ⟨2, 3⟩, .nowhere⟩]
    let n : Node := ⟨2, [.terminal 17, .nonterminal 100, .terminal 18, .nonterminal 100],
      [(some 3, 3), (some 1, 1)], [⟨3, 2⟩, ⟨1, 2⟩, ⟨2, 0⟩, ⟨1, 0⟩], some 1⟩
    tokens ≠ [] ∧ Parentheses.grammar.search tokens = some (.rejected (some n)) ∧
      IsGreatest {k | k ≤ 3 ∧ Parentheses.grammar.LeftmostMatches [17, 18, 18] k} 2 ∧
      IsGreatest {k | k ≤ 3 ∧ Parentheses.grammar.Viable ([17, 18, 18].take k)} 2 ∧
      Parentheses.grammar.DeadEnd tokens (n.failure tokens.toArray) := by
  intro tokens n
  have hne : tokens ≠ [] := List.cons_ne_nil _ _
  have hsearch : Parentheses.grammar.search tokens = some (.rejected (some n)) := by
    cbv
  obtain ⟨f, d, hf, -, -, hleftmost, hviable, hdead, -⟩ :=
    parse_reports_furthest Parentheses.grammar ⟨.unknown, "grammar"⟩ tokens [] hne hsearch
  obtain rfl := Option.some.inj hf
  exact ⟨hne, hsearch, hleftmost, hviable productive_parentheses, hdead⟩

end Grammar

end Frontend
