import Frontend.Grammar.Search
import Frontend.Proofs.Grammar.Table

/-!
# What a search finds

`Grammar.Completes` says how the symbols pending in a partial derivation can be made to derive
the tokens that are left: terminals are matched, and nonterminals are expanded as long as there
is a token left. A node of the search `Finishes` with some uses of rules if it can be completed
in this way, its own uses and those to come taken together.

* `step_stepped`: all that one step can do, with the conditions under which it does it;
* `finishes_shift_iff`, `finishes_fork_iff`: a step neither loses nor adds a way to finish;
* `explains_of_explore`: so an accepted derivation is one in which some node of the worklist
  finishes, and after a rejection no node of it does.
-/

namespace Frontend

namespace Node

/-- The numbers of the tokens that are not matched. -/
def remaining (tokens : List Token) (n : Node) : List Nat :=
  (tokens.drop n.cursor).map Token.id

variable {tokens : List Token} {n : Node}

/-- Nothing remains exactly if all tokens have been matched. -/
theorem remaining_eq_nil_iff : n.remaining tokens = [] ↔ tokens.length ≤ n.cursor := by
  simp [remaining]

/-- The token at the cursor is the first one that remains. -/
theorem remaining_eq_cons {t : Token} (h : tokens[n.cursor]? = some t) :
    n.remaining tokens = t.id :: (tokens.drop (n.cursor + 1)).map Token.id := by
  obtain ⟨hlt, rfl⟩ := List.getElem?_eq_some_iff.1 h
  rw [remaining, List.drop_eq_getElem_cons hlt, List.map_cons]

@[simp]
theorem cursor_resolve : n.resolve.cursor = n.cursor := by
  unfold resolve
  split <;> rfl

@[simp]
theorem uses_resolve : n.resolve.uses = n.uses := by
  unfold resolve
  split <;> rfl

@[simp]
theorem cursor_shift : n.shift.cursor = n.cursor + 1 := rfl

@[simp]
theorem pending_shift : n.shift.pending = n.pending.tail := rfl

@[simp]
theorem uses_shift : n.shift.uses = n.uses := by
  simp [shift]

@[simp]
theorem cursor_expand {i : Nat} {rhs : List Symbol} : (n.expand i rhs).cursor = n.cursor := by
  simp [expand]

@[simp]
theorem pending_expand {i : Nat} {rhs : List Symbol} :
    (n.expand i rhs).pending = rhs ++ n.pending.tail := rfl

@[simp]
theorem uses_expand {i : Nat} {rhs : List Symbol} :
    (n.expand i rhs).uses = ⟨i, n.cursor⟩ :: n.uses := rfl

/-- Expanding a symbol matches no token. -/
@[simp]
theorem remaining_expand {i : Nat} {rhs : List Symbol} :
    (n.expand i rhs).remaining tokens = n.remaining tokens := by
  rw [remaining, cursor_expand, remaining]

/-- Matching a token leaves those behind it. -/
theorem remaining_shift {t : Token} (h : tokens[n.cursor]? = some t) :
    n.remaining tokens = t.id :: n.shift.remaining tokens :=
  remaining_eq_cons h

end Node

namespace Grammar

variable {ε σ : Type} (g : Grammar ε σ)

/-! ## Steps -/

/-- The ways to expand the next symbol of a node, to be tried in order. -/
def branches (n : Node) (id : Nat) : List Node :=
  ((g.alternatives (.nonterminal id)).map fun r => n.expand r.2 r.1.rhs).reverse

/-- What a step makes of a node, with the condition under which it does so. -/
inductive Stepped (tokens : List Token) (n : Node) : Step → Prop
  | accept : n.pending = [] → tokens.length ≤ n.cursor → Stepped tokens n .accept
  | surplus {t : Token} : n.pending = [] → tokens[n.cursor]? = some t → Stepped tokens n .dead
  | missing {s : Symbol} {ss : List Symbol} :
      n.pending = s :: ss → tokens.length ≤ n.cursor → Stepped tokens n .dead
  | mismatch {id : Nat} {ss : List Symbol} {t : Token} :
      n.pending = .terminal id :: ss → tokens[n.cursor]? = some t → id ≠ t.id →
        Stepped tokens n .dead
  | stuck {id : Nat} {ss : List Symbol} {t : Token} :
      n.pending = .nonterminal id :: ss → tokens[n.cursor]? = some t →
        g.branches n id = [] → Stepped tokens n .dead
  | shift {ss : List Symbol} {t : Token} :
      n.pending = .terminal t.id :: ss → tokens[n.cursor]? = some t →
        Stepped tokens n (.shift n.shift)
  | fork {id : Nat} {ss : List Symbol} {t : Token} :
      n.pending = .nonterminal id :: ss → tokens[n.cursor]? = some t →
        g.branches n id ≠ [] → Stepped tokens n (.fork (g.branches n id))

/-- Every step is of one of the kinds of `Stepped`. -/
theorem step_stepped (tokens : List Token) (n : Node) :
    g.Stepped tokens n (g.step tokens.toArray n) := by
  unfold step
  rw [List.getElem?_toArray]
  split
  · next hp ht => exact .accept hp (List.getElem?_eq_none_iff.1 ht)
  · next hp ht => exact .surplus hp ht
  · next hp ht => exact .missing hp (List.getElem?_eq_none_iff.1 ht)
  · next id ss t hp ht =>
    split
    · next h => exact .shift (h ▸ hp) ht
    · next h => exact .mismatch hp ht h
  · next id ss t hp ht =>
    split
    · next h => exact .stuck hp ht (by rw [branches, h]; rfl)
    · next h => exact .fork hp ht (by simpa [branches] using h)

variable {g} {tokens : List Token} {n m : Node}

/-- The branches of a node are its expansions by the rules for the next symbol. -/
theorem mem_branches {id : Nat} :
    m ∈ g.branches n id ↔
      ∃ i r, g.rules[i]? = some r ∧ r.lhs.id = id ∧ m = n.expand i r.rhs := by
  rw [branches, List.mem_reverse, List.mem_map]
  constructor
  · rintro ⟨⟨r, i⟩, hr, rfl⟩
    obtain ⟨hi, hid⟩ := mem_alternatives.1 hr
    exact ⟨i, r, hi, hid, rfl⟩
  · rintro ⟨i, r, hi, hid, rfl⟩
    exact ⟨(r, i), mem_alternatives.2 ⟨hi, hid⟩, rfl⟩

/-- A node has no branches exactly if its next symbol has no rules. -/
theorem branches_eq_nil_iff {id : Nat} :
    g.branches n id = [] ↔ ∀ r ∈ g.rules, r.lhs.id ≠ id := by
  rw [List.eq_nil_iff_forall_not_mem]
  constructor
  · intro h r hr hid
    obtain ⟨i, hi⟩ := List.mem_iff_getElem?.1 hr
    exact h _ (mem_branches.2 ⟨i, r, hi, hid, rfl⟩)
  · intro h m hm
    obtain ⟨i, r, hi, hid, -⟩ := mem_branches.1 hm
    exact h r (List.mem_of_getElem? hi) hid

/-! ## Completing a derivation -/

/-- With `c` tokens matched, the pending symbols derive the numbers of the tokens that are left,
    by some uses of rules, the first one first. No rule is used when no token is left. -/
inductive Completes (g : Grammar ε σ) : Nat → List Nat → List Symbol → List Use → Prop
  | done {c : Nat} : Completes g c [] [] []
  | shift {c id : Nat} {ids : List Nat} {ss : List Symbol} {us : List Use} :
      Completes g (c + 1) ids ss us → Completes g c (id :: ids) (.terminal id :: ss) us
  | expand {c i id : Nat} {r : Rule ε σ} {ids : List Nat} {ss : List Symbol} {us : List Use} :
      ids ≠ [] → g.rules[i]? = some r → r.lhs.id = id → Completes g c ids (r.rhs ++ ss) us →
        Completes g c ids (.nonterminal id :: ss) (⟨i, c⟩ :: us)

/-- No symbols derive no tokens, without a rule. -/
theorem completes_nil_iff {c : Nat} {ids : List Nat} {us : List Use} :
    g.Completes c ids [] us ↔ ids = [] ∧ us = [] := by
  constructor
  · intro h
    cases h with
    | done => exact ⟨rfl, rfl⟩
  · rintro ⟨rfl, rfl⟩
    exact .done

/-- A terminal derives the token of its kind and nothing else. -/
theorem completes_terminal_iff {c id : Nat} {ids : List Nat} {ss : List Symbol} {us : List Use} :
    g.Completes c ids (.terminal id :: ss) us ↔
      ∃ rest, ids = id :: rest ∧ g.Completes (c + 1) rest ss us := by
  constructor
  · intro h
    cases h with
    | shift h => exact ⟨_, rfl, h⟩
  · rintro ⟨rest, rfl, h⟩
    exact .shift h

/-- A nonterminal derives what the right-hand side of one of its rules derives, as long as tokens
    remain. -/
theorem completes_nonterminal_iff {c id : Nat} {ids : List Nat} {ss : List Symbol}
    {us : List Use} :
    g.Completes c ids (.nonterminal id :: ss) us ↔
      ids ≠ [] ∧ ∃ i r later, g.rules[i]? = some r ∧ r.lhs.id = id ∧ us = ⟨i, c⟩ :: later ∧
        g.Completes c ids (r.rhs ++ ss) later := by
  constructor
  · intro h
    cases h with
    | expand hne hi hid h => exact ⟨hne, _, _, _, hi, hid, rfl, h⟩
  · rintro ⟨hne, i, r, later, hi, hid, rfl, h⟩
    exact .expand hne hi hid h

/-- A node finishes with the uses `us`, the latest first, if it can be completed so that these
    are all uses in the end. -/
def Finishes (g : Grammar ε σ) (tokens : List Token) (n : Node) (us : List Use) : Prop :=
  ∃ later, g.Completes n.cursor (n.remaining tokens) n.pending later ∧
    us = later.reverse ++ n.uses

/-- A node without pending symbols and tokens is finished as it is. -/
theorem finishes_of_accept (hp : n.pending = []) (hc : tokens.length ≤ n.cursor) :
    g.Finishes tokens n n.uses := by
  refine ⟨[], ?_, rfl⟩
  rw [hp, Node.remaining_eq_nil_iff.2 hc]
  exact .done

/-- Nothing finishes a dead end. -/
theorem not_finishes_of_dead {us : List Use} (h : g.Stepped tokens n .dead) :
    ¬g.Finishes tokens n us := by
  rintro ⟨later, hl, -⟩
  cases h with
  | surplus hp ht =>
    rw [hp, completes_nil_iff, Node.remaining_eq_cons ht] at hl
    exact absurd hl.1 (List.cons_ne_nil _ _)
  | @missing s ss hp hc =>
    rw [hp, Node.remaining_eq_nil_iff.2 hc] at hl
    -- No rule is used at the end of the input, not even one that derives nothing.
    cases s with
    | terminal id =>
      obtain ⟨_, hids, -⟩ := completes_terminal_iff.1 hl
      exact absurd hids.symm (List.cons_ne_nil _ _)
    | nonterminal id => exact absurd rfl (completes_nonterminal_iff.1 hl).1
  | mismatch hp ht hid =>
    rw [hp, completes_terminal_iff, Node.remaining_eq_cons ht] at hl
    obtain ⟨_, hids, -⟩ := hl
    exact hid (List.cons.inj hids).1.symm
  | stuck hp ht hb =>
    rw [hp, completes_nonterminal_iff] at hl
    obtain ⟨_, i, r, _, hi, hid, -⟩ := hl
    exact branches_eq_nil_iff.1 hb r (List.mem_of_getElem? hi) hid

/-- A node and the node behind its next token are finished in the same ways. -/
theorem finishes_shift_iff {us : List Use} {ss : List Symbol} {t : Token}
    (hp : n.pending = .terminal t.id :: ss) (ht : tokens[n.cursor]? = some t) :
    g.Finishes tokens n us ↔ g.Finishes tokens n.shift us := by
  simp only [Finishes, Node.remaining_shift ht, hp, Node.pending_shift, List.tail_cons,
    Node.uses_shift, Node.cursor_shift, completes_terminal_iff, List.cons.injEq, true_and,
    exists_eq_left']

/-- A node is finished in the ways in which its branches are. -/
theorem finishes_fork_iff {us : List Use} {id : Nat} {ss : List Symbol} {t : Token}
    (hp : n.pending = .nonterminal id :: ss) (ht : tokens[n.cursor]? = some t) :
    g.Finishes tokens n us ↔ ∃ m ∈ g.branches n id, g.Finishes tokens m us := by
  have hne : n.remaining tokens ≠ [] := by
    rw [Node.remaining_eq_cons ht]
    exact List.cons_ne_nil _ _
  -- Expanding a node moves the first of the uses to come to its own uses.
  have huses : ∀ (u : Use) (later : List Use),
      (u :: later).reverse ++ n.uses = later.reverse ++ (u :: n.uses) := fun u later => by
    rw [List.reverse_cons, List.append_assoc, List.singleton_append]
  constructor
  · rintro ⟨later, hl, hus⟩
    rw [hp, completes_nonterminal_iff] at hl
    obtain ⟨_, i, r, later, hi, hid, rfl, hl⟩ := hl
    refine ⟨n.expand i r.rhs, mem_branches.2 ⟨i, r, hi, hid, rfl⟩, later, ?_, ?_⟩
    · rw [Node.remaining_expand, Node.cursor_expand, Node.pending_expand, hp]
      exact hl
    · rw [hus, Node.uses_expand, huses]
  · rintro ⟨m, hm, later, hl, hus⟩
    obtain ⟨i, r, hi, hid, rfl⟩ := mem_branches.1 hm
    rw [Node.remaining_expand, Node.cursor_expand, Node.pending_expand, hp] at hl
    refine ⟨⟨i, n.cursor⟩ :: later, ?_, ?_⟩
    · rw [hp]
      exact .expand hne hi hid hl
    · rw [hus, Node.uses_expand, huses]

/-! ## Exploring -/

/-- Induction over a search that ends, by what is done with the first node of the worklist. -/
theorem explore_induction {motive : List Node → Option Node → Outcome → Prop}
    (empty : ∀ best, motive [] best (.rejected best))
    (accept : ∀ n rest best, n.pending = [] → tokens.length ≤ n.cursor →
      motive (n :: rest) best (.accepted n))
    (dead : ∀ n rest best out, g.Stepped tokens n .dead → motive rest (further best n) out →
      motive (n :: rest) best out)
    (shift : ∀ n rest best out t ss, n.pending = .terminal t.id :: ss →
      tokens[n.cursor]? = some t → motive (n.shift :: rest) best out →
      motive (n :: rest) best out)
    (fork : ∀ n rest best out t id ss, n.pending = .nonterminal id :: ss →
      tokens[n.cursor]? = some t → g.branches n id ≠ [] →
      motive (g.branches n id ++ rest) best out → motive (n :: rest) best out)
    {worklist : List Node} {best : Option Node} {out : Outcome}
    (h : g.explore tokens.toArray worklist best = some out) : motive worklist best out := by
  -- A search that ends is approximated from below, so what is passed on from the calls to the
  -- search that made them holds of it.
  refine explore.partial_correctness g tokens.toArray motive ?_ worklist best out h
  clear h worklist best out
  intro explore ih worklist best out h
  cases worklist with
  | nil =>
    obtain rfl := Option.some.inj h
    exact empty best
  | cons n rest =>
    have hs := g.step_stepped tokens n
    dsimp only at h
    generalize g.step tokens.toArray n = step at h hs
    cases hs with
    | accept hp hc =>
      obtain rfl := Option.some.inj h
      exact accept n rest best hp hc
    | shift hp ht => exact shift n rest best out _ _ hp ht (ih _ _ _ h)
    | fork hp ht hb => exact fork n rest best out _ _ _ hp ht hb (ih _ _ _ h)
    | surplus hp ht => exact dead n rest best out (.surplus hp ht) (ih _ _ _ h)
    | missing hp hc => exact dead n rest best out (.missing hp hc) (ih _ _ _ h)
    | mismatch hp ht hid => exact dead n rest best out (.mismatch hp ht hid) (ih _ _ _ h)
    | stuck hp ht hb => exact dead n rest best out (.stuck hp ht hb) (ih _ _ _ h)

/-- What the outcome of a search says of the nodes it begins with. -/
def Explains (g : Grammar ε σ) (tokens : List Token) (worklist : List Node) : Outcome → Prop
  | .accepted n => ∃ m ∈ worklist, g.Finishes tokens m n.uses
  | .rejected _ => ∀ m ∈ worklist, ∀ us, ¬g.Finishes tokens m us

/-- Exchanging the first nodes of a worklist for others that finish in the same ways does not
    change what an outcome says. -/
theorem Explains.exchange (ns ms : List Node) {rest : List Node} {out : Outcome}
    (hsame : ∀ us, (∃ n ∈ ns, g.Finishes tokens n us) ↔ ∃ m ∈ ms, g.Finishes tokens m us)
    (h : g.Explains tokens (ns ++ rest) out) : g.Explains tokens (ms ++ rest) out := by
  cases out with
  | accepted n =>
    obtain ⟨m, hm, hf⟩ := h
    rcases List.mem_append.1 hm with hm | hm
    · obtain ⟨m, hm, hf⟩ := (hsame n.uses).1 ⟨m, hm, hf⟩
      exact ⟨m, List.mem_append_left _ hm, hf⟩
    · exact ⟨m, List.mem_append_right _ hm, hf⟩
  | rejected best =>
    intro m hm us hf
    rcases List.mem_append.1 hm with hm | hm
    · obtain ⟨n, hn, hf⟩ := (hsame us).2 ⟨m, hm, hf⟩
      exact h n (List.mem_append_left _ hn) us hf
    · exact h m (List.mem_append_right _ hm) us hf

/-- A search accepts a way in which one of its nodes finishes, and rejects only if there is
    none. -/
theorem explains_of_explore {worklist : List Node} {best : Option Node} {out : Outcome}
    (h : g.explore tokens.toArray worklist best = some out) : g.Explains tokens worklist out := by
  refine explore_induction (motive := fun worklist _ out => g.Explains tokens worklist out)
    ?empty ?accept ?dead ?shift ?fork h
  case empty => exact fun best m hm => absurd hm List.not_mem_nil
  case accept =>
    intro n rest best hp hc
    exact ⟨n, List.mem_cons_self, finishes_of_accept hp hc⟩
  case dead =>
    intro n rest best out hs ih
    -- A dead end finishes in no way, so it can be put back in front of the others.
    refine Explains.exchange [] [n] (fun us => ?_) ih
    simp [not_finishes_of_dead hs]
  case shift =>
    intro n rest best out t ss hp ht ih
    refine Explains.exchange [n.shift] [n] (fun us => ?_) ih
    simp [finishes_shift_iff hp ht]
  case fork =>
    intro n rest best out t id ss hp ht _ ih
    refine Explains.exchange _ [n] (fun us => ?_) ih
    simp [finishes_fork_iff hp ht]

theorem remaining_initial (s : Symbol) :
    (Node.initial s).remaining tokens = tokens.map Token.id := by
  rw [Node.remaining, Node.initial, List.drop_zero]

/-- An accepted node has used the rules of a derivation of all tokens, the latest first. -/
theorem completes_of_accepted (h : g.search tokens = some (.accepted n)) :
    ∃ us, g.Completes 0 (tokens.map Token.id) [g.start] us ∧ n.uses = us.reverse := by
  obtain ⟨m, hm, us, hus, hn⟩ := explains_of_explore h
  obtain rfl := List.mem_singleton.1 hm
  rw [remaining_initial] at hus
  exact ⟨us, hus, hn.trans (List.append_nil _)⟩

/-- If the search rejects the tokens, no rules derive them. -/
theorem not_completes_of_rejected {furthest : Option Node}
    (h : g.search tokens = some (.rejected furthest)) (us : List Use) :
    ¬g.Completes 0 (tokens.map Token.id) [g.start] us := by
  intro hus
  rw [← remaining_initial g.start] at hus
  exact explains_of_explore h _ (List.mem_singleton_self _) _ ⟨us, hus, rfl⟩

end Grammar

end Frontend
