import Frontend.Proofs.Grammar.Forest

/-!
# Searches that end

A search can go on forever only by expanding again and again without matching a token. This
needs a nonterminal that gets back to itself behind symbols that derive nothing. If the
nonterminals can be ranked so that this does not happen (`LeftRanked`), every search ends
(`search_ne_none`).

The search is followed node by node: a node `Returns` if the search comes back to the rest of
the worklist, or accepts, whatever that rest is. What is pending behind a symbol matters only
if the symbol can derive nothing, so a node with the first symbol `s` returns if all nodes with
the symbols behind `s` do, in case `s` is nullable; this goes by induction on the rank of `s`.
-/

namespace Frontend.Grammar

variable {ε σ : Type} (g : Grammar ε σ)

/-- The symbols can all derive nothing. -/
def Nullable (ss : List Symbol) : Prop := ∃ f : Forest g ss, f.leaves = []

/-- The rank drops from the left-hand side of a rule to every nonterminal on its right-hand side
    that stands behind symbols that can derive nothing. -/
def LeftRanked (rank : Nat → Nat) : Prop :=
  ∀ r ∈ g.rules, ∀ before id after, r.rhs = before ++ .nonterminal id :: after →
    g.Nullable before → rank id < rank r.lhs.id

/-- The search of a worklist ends. -/
def Ends (tokens : List Token) (worklist : List Node) : Prop :=
  ∀ best, g.explore tokens.toArray worklist best ≠ none

/-- The search of a worklist ends if that of its rest does, given that the node is its first. -/
def Returns (tokens : List Token) (n : Node) : Prop :=
  ∀ rest, g.Ends tokens rest → g.Ends tokens (n :: rest)

/-- Every node with `c` tokens matched and the symbols `ss` pending returns. -/
def ReturnsAt (tokens : List Token) (c : Nat) (ss : List Symbol) : Prop :=
  ∀ n : Node, n.cursor = c → n.pending = ss → g.Returns tokens n

variable {g} {tokens : List Token} {n : Node}

/-! ## Nullable symbols -/

theorem nullable_nil : g.Nullable [] := ⟨.nil, rfl⟩

theorem Nullable.append {ss ts : List Symbol} (hs : g.Nullable ss) (ht : g.Nullable ts) :
    g.Nullable (ss ++ ts) := by
  obtain ⟨f, hf⟩ := hs
  obtain ⟨f', hf'⟩ := ht
  exact ⟨f.append f', by rw [Forest.leaves_append, hf, hf']; rfl⟩

/-- A nonterminal can derive nothing if the right-hand side of one of its rules can. -/
theorem Nullable.nonterminal {i : Nat} {r : Rule ε σ} (hi : g.rules[i]? = some r)
    (h : g.Nullable r.rhs) : g.Nullable [.nonterminal r.lhs.id] := by
  obtain ⟨f, hf⟩ := h
  exact ⟨.node hi rfl f .nil, by rw [Forest.leaves, hf]; rfl⟩

/-- Without empty right-hand sides, only the first symbols of the rules have to be ranked. -/
theorem leftRanked_of_head {rank : Nat → Nat} (hrhs : ∀ r ∈ g.rules, r.rhs ≠ [])
    (hhead : ∀ r ∈ g.rules, ∀ s ∈ r.rhs.head?, s.isTerminal ∨ rank s.id < rank r.lhs.id) :
    g.LeftRanked rank := by
  intro r hr before id after heq hbefore
  obtain ⟨f, hf⟩ := hbefore
  have hlen := f.length_le_leaves hrhs
  rw [hf, List.length_nil, Nat.le_zero, List.length_eq_zero_iff] at hlen
  subst hlen
  rcases hhead r hr (.nonterminal id) (by rw [heq]; rfl) with h | h
  · exact nomatch h
  · exact h

/-! ## Nodes -/

theorem ends_nil : g.Ends tokens [] := by
  intro best
  rw [explore]
  exact Option.some_ne_none _

/-- A search ends if all nodes in front return and the search of the rest ends. -/
theorem ends_append {ns rest : List Node} (hns : ∀ n ∈ ns, g.Returns tokens n)
    (hrest : g.Ends tokens rest) : g.Ends tokens (ns ++ rest) := by
  induction ns with
  | nil => exact hrest
  | cons n ns ih =>
    obtain ⟨hn, hns⟩ := List.forall_mem_cons.1 hns
    exact hn _ (ih hns)

/-- A node returns if all nodes that it becomes do. -/
theorem returns_of_step
    (hshift : ∀ ss t, n.pending = .terminal t.id :: ss → tokens[n.cursor]? = some t →
      g.Returns tokens n.shift)
    (hfork : ∀ id ss t, n.pending = .nonterminal id :: ss → tokens[n.cursor]? = some t →
      ∀ m ∈ g.branches n id, g.Returns tokens m) : g.Returns tokens n := by
  intro rest hrest best
  have hs := g.step_stepped tokens n
  rw [explore]
  generalize g.step tokens.toArray n = step at hs
  cases hs with
  | accept => exact Option.some_ne_none _
  | shift hp ht => exact hshift _ _ hp ht rest hrest best
  | fork hp ht => exact ends_append (hfork _ _ _ hp ht) hrest best
  | surplus => exact hrest _
  | missing => exact hrest _
  | mismatch => exact hrest _
  | stuck => exact hrest _

/-- A node that has matched all tokens is not expanded any more. -/
theorem returns_of_length_le (hc : tokens.length ≤ n.cursor) : g.Returns tokens n := by
  have hnone : tokens[n.cursor]? = none := List.getElem?_eq_none hc
  refine returns_of_step (fun ss t _ ht => ?_) (fun id ss t _ ht => ?_)
  · simp [hnone] at ht
  · simp [hnone] at ht

/-! ## Expanding without matching -/

variable {c : Nat}

/-- A nonterminal returns if all right-hand sides do in its place. -/
theorem returnsAt_nonterminal {id : Nat} {ss : List Symbol}
    (h : ∀ (i : Nat) (r : Rule ε σ), g.rules[i]? = some r → r.lhs.id = id →
      g.ReturnsAt tokens c (r.rhs ++ ss)) : g.ReturnsAt tokens c (.nonterminal id :: ss) := by
  intro n hc hp
  refine returns_of_step (fun ss' t hp' => ?_) (fun id' ss' t hp' _ m hm => ?_)
  · simp [hp] at hp'
  · obtain ⟨i, r, hi, hid, rfl⟩ := mem_branches.1 hm
    have hid' : id = id' := by
      rw [hp] at hp'
      exact Symbol.nonterminal.inj (List.cons.inj hp').1
    refine h i r hi (hid.trans hid'.symm) _ (by rw [Node.cursor_expand, hc]) ?_
    rw [Node.pending_expand, hp, List.tail_cons]

section

variable (hnext : ∀ ss, g.ReturnsAt tokens (c + 1) ss)
include hnext

/-- Behind a terminal there is one token less, so the induction on the tokens goes on. -/
theorem returnsAt_terminal (id : Nat) (ss : List Symbol) :
    g.ReturnsAt tokens c (.terminal id :: ss) := by
  intro n hc hp
  refine returns_of_step (fun _ _ _ _ => ?_) (fun id' ss' t hp' => ?_)
  · exact hnext _ n.shift (by rw [Node.cursor_shift, hc]) rfl
  · simp [hp] at hp'

/-- A first symbol returns if what is behind it does, in case the symbol can derive nothing. -/
theorem returnsAt_cons {rank : Nat → Nat} (hrank : g.LeftRanked rank) (s : Symbol)
    {ss : List Symbol} (hss : g.Nullable [s] → g.ReturnsAt tokens c ss) :
    g.ReturnsAt tokens c (s :: ss) := by
  cases s with
  | terminal id => exact returnsAt_terminal hnext id ss
  | nonterminal id =>
    induction hk : rank id using Nat.strongRecOn generalizing id ss with
    | ind k ih =>
      refine returnsAt_nonterminal fun i r hi hid => ?_
      subst hid
      -- By induction on the part of the right-hand side that is still pending, when all before
      -- it has derived nothing: this is when the rank of its first symbol is known to be less.
      have hsuffix : ∀ after before, r.rhs = before ++ after → g.Nullable before →
          g.ReturnsAt tokens c (after ++ ss) := by
        intro after
        induction after with
        | nil =>
          intro before hrhs hbefore
          rw [List.append_nil] at hrhs
          exact hss (.nonterminal hi (hrhs ▸ hbefore))
        | cons s after iha =>
          intro before hrhs hbefore
          have hafter (hs : g.Nullable [s]) : g.ReturnsAt tokens c (after ++ ss) :=
            iha (before ++ [s]) (by simp [hrhs]) (hbefore.append hs)
          cases s with
          | terminal id => exact returnsAt_terminal hnext id _
          | nonterminal id =>
            have hlt := hrank r (List.mem_of_getElem? hi) before id after hrhs hbefore
            exact ih (rank id) (hk ▸ hlt) id hafter rfl
      exact hsuffix r.rhs [] rfl nullable_nil

end

/-- If the nonterminals can be ranked, all nodes return. -/
theorem returnsAt {rank : Nat → Nat} (hrank : g.LeftRanked rank) (c : Nat) (ss : List Symbol) :
    g.ReturnsAt tokens c ss := by
  -- The outer induction is on the tokens that are left, the inner one on the pending symbols.
  induction hk : tokens.length - c using Nat.strongRecOn generalizing c ss with
  | ind k ih =>
    rcases Nat.lt_or_ge c tokens.length with hlt | hge
    · have hnext : ∀ ss, g.ReturnsAt tokens (c + 1) ss := fun ss => ih _ (by omega) _ ss rfl
      induction ss with
      | nil =>
        intro n _ hp
        refine returns_of_step (fun ss t hp' => ?_) (fun id ss t hp' => ?_)
        · simp [hp] at hp'
        · simp [hp] at hp'
      | cons s ss ihs => exact returnsAt_cons hnext hrank s fun _ => ihs
    · intro n hc _
      exact returns_of_length_le (hc ▸ hge)

/-- Every search with a grammar without left recursion ends. -/
theorem search_ne_none {rank : Nat → Nat} (hrank : g.LeftRanked rank) (tokens : List Token) :
    g.search tokens ≠ none :=
  returnsAt hrank 0 [g.start] _ rfl rfl [] ends_nil none

end Frontend.Grammar
