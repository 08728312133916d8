import Frontend.Proofs.Grammar.Search

/-!
# Derivation trees

A `Forest` holds a derivation tree for each symbol of a list: a leaf for a terminal, and for a
nonterminal a node with one of its rules and the forest of the symbols on the right of that
rule. So a tree for `s` is a forest for `[s]`, and only well-formed trees can be built.

The leaves of a forest are the numbers of the tokens it derives. Its rule nodes are listed in
`preorder`, each as the use of its rule at the number of leaves before its subtree; if the
subtree has any leaves, this is the index of its first one. The rules alone (`indices`) determine
the forest (`eq_of_indices_append`).

A completion of a partial derivation is the preorder of a forest for the pending symbols in
which no subtree starts after the last leaf (`completes_iff_forest`): expanding the first
nonterminal again and again visits the nodes of the forest in preorder.
-/

namespace Frontend.Grammar

variable {ε σ : Type}

/-- A derivation tree for each symbol of a list. -/
inductive Forest (g : Grammar ε σ) : List Symbol → Type
  | nil : Forest g []
  | leaf (id : Nat) {ss : List Symbol} (rest : Forest g ss) : Forest g (.terminal id :: ss)
  | node {i id : Nat} {r : Rule ε σ} {ss : List Symbol} (hi : g.rules[i]? = some r)
      (hid : r.lhs.id = id) (children : Forest g r.rhs) (rest : Forest g ss) :
      Forest g (.nonterminal id :: ss)

/-- A derivation tree for one symbol. -/
abbrev Tree (g : Grammar ε σ) (s : Symbol) : Type := Forest g [s]

namespace Forest

variable {g : Grammar ε σ} {ss ts : List Symbol}

/-- The numbers at the leaves, from left to right. -/
def leaves {ss : List Symbol} : Forest g ss → List Nat
  | nil => []
  | leaf id rest => id :: rest.leaves
  | node _ _ children rest => children.leaves ++ rest.leaves

/-- The rule nodes, every node before its children and these from left to right. Each is given
    by the index of its rule and the number of leaves before its subtree, of which `c` stand
    before the forest. -/
def preorder (c : Nat) {ss : List Symbol} : Forest g ss → List Use
  | nil => []
  | leaf _ rest => rest.preorder (c + 1)
  | @node _ _ _ i _ _ _ _ _ children rest =>
    ⟨i, c⟩ :: (children.preorder c ++ rest.preorder (c + children.leaves.length))

/-- The rules at the nodes, by their indices, in the same order. -/
def indices {ss : List Symbol} : Forest g ss → List Nat
  | nil => []
  | leaf _ rest => rest.indices
  | @node _ _ _ i _ _ _ _ _ children rest => i :: (children.indices ++ rest.indices)

/-- The forests of two lists of symbols side by side. -/
def append {ss ts : List Symbol} (f : Forest g ss) (f' : Forest g ts) : Forest g (ss ++ ts) :=
  match f with
  | nil => f'
  | leaf id rest => leaf id (rest.append f')
  | node hi hid children rest => node hi hid children (rest.append f')

@[simp]
theorem leaves_append (f : Forest g ss) (f' : Forest g ts) :
    (f.append f').leaves = f.leaves ++ f'.leaves := by
  induction f with
  | nil => rfl
  | leaf id rest ih => simp [append, leaves, ih]
  | node hi hid children rest _ ih => simp [append, leaves, ih]

/-- The uses of two forests side by side, the second one behind the leaves of the first one. -/
theorem preorder_append (f : Forest g ss) (f' : Forest g ts) (c : Nat) :
    (f.append f').preorder c = f.preorder c ++ f'.preorder (c + f.leaves.length) := by
  induction f generalizing c with
  | nil => rfl
  | leaf id rest ih =>
    rw [append, preorder, preorder, ih, leaves, List.length_cons, Nat.add_right_comm]
    rfl
  | node hi hid children rest _ ih =>
    rw [append, preorder, preorder, ih, leaves, List.length_append, Nat.add_assoc,
      List.cons_append, List.append_assoc]

/-- A forest for two lists of symbols is made of one for each of them. -/
theorem exists_eq_append (f : Forest g (ss ++ ts)) :
    ∃ (f₁ : Forest g ss) (f₂ : Forest g ts), f = f₁.append f₂ := by
  induction ss with
  | nil => exact ⟨nil, f, rfl⟩
  | cons s ss ih =>
    cases f with
    | leaf id rest =>
      obtain ⟨f₁, f₂, rfl⟩ := ih rest
      exact ⟨leaf id f₁, f₂, rfl⟩
    | node hi hid children rest =>
      obtain ⟨f₁, f₂, rfl⟩ := ih rest
      exact ⟨node hi hid children f₁, f₂, rfl⟩

theorem map_rule_preorder (f : Forest g ss) (c : Nat) :
    (f.preorder c).map Use.rule = f.indices := by
  induction f generalizing c with
  | nil => rfl
  | leaf id rest ih => exact ih (c + 1)
  | node hi hid children rest ihc ih =>
    rw [preorder, indices, List.map_cons, List.map_append, ihc, ih]

/-- A forest is determined by its rules, and where they end is told from them. -/
theorem eq_of_indices_append (f f' : Forest g ss) {is is' : List Nat}
    (h : f.indices ++ is = f'.indices ++ is') : f = f' ∧ is = is' := by
  induction f generalizing is is' with
  | nil =>
    cases f'
    exact ⟨rfl, h⟩
  | leaf id rest ih =>
    cases f' with
    | leaf _ rest' =>
      obtain ⟨rfl, rfl⟩ := ih rest' h
      exact ⟨rfl, rfl⟩
  | @node i id r ss hi hid children rest ihc ih =>
    cases f' with
    | @node j _ r' _ hj hid' children' rest' =>
      simp only [indices, List.cons_append, List.append_assoc] at h
      obtain ⟨rfl, hnodes⟩ := List.cons.inj h
      obtain rfl : r = r' := Option.some.inj (hi.symm.trans hj)
      obtain ⟨rfl, hlater⟩ := ihc children' hnodes
      obtain ⟨rfl, hend⟩ := ih rest' hlater
      exact ⟨rfl, hend⟩

section

variable (hrhs : ∀ r ∈ g.rules, r.rhs ≠ [])
include hrhs

/-- Without empty right-hand sides, a forest has a leaf for each of its trees. -/
theorem length_le_leaves {ss : List Symbol} (f : Forest g ss) :
    ss.length ≤ f.leaves.length := by
  induction f with
  | nil => exact Nat.le_refl _
  | leaf id rest ih => exact Nat.succ_le_succ ih
  | node hi hid children rest ihc ih =>
    have := List.length_pos_iff.2 (hrhs _ (List.mem_of_getElem? hi))
    rw [List.length_cons, leaves, List.length_append]
    omega

/-- Every subtree has a leaf, so all of them start before the end. -/
theorem position_lt {ss : List Symbol} (f : Forest g ss) (c : Nat) :
    ∀ u ∈ f.preorder c, u.position < c + f.leaves.length := by
  induction f generalizing c with
  | nil => exact fun u hu => absurd hu List.not_mem_nil
  | leaf id rest ih =>
    intro u hu
    have := ih (c + 1) u hu
    rw [leaves, List.length_cons]
    omega
  | node hi hid children rest ihc ih =>
    intro u hu
    have := List.length_pos_iff.2 (hrhs _ (List.mem_of_getElem? hi))
    have := children.length_le_leaves hrhs
    rw [leaves, List.length_append]
    rw [preorder, List.mem_cons, List.mem_append] at hu
    rcases hu with rfl | hu | hu
    · -- The use of the rule stands before its children, and these have a leaf.
      exact Nat.lt_add_of_pos_right (by omega)
    · have := ihc c u hu
      omega
    · have := ih _ u hu
      omega

end

end Forest

/-! ## Tokens -/

/-- The symbols derive the tokens. -/
def Yields (g : Grammar ε σ) (ss : List Symbol) (ts : List Token) : Prop :=
  ∃ f : Forest g ss, f.leaves = ts.map Token.id

namespace Yields

variable {g : Grammar ε σ} {ss ss' : List Symbol} {ts us : List Token}

theorem nil : g.Yields [] [] := ⟨.nil, rfl⟩

/-- A token is derived from the terminal of its kind. -/
theorem token {t : Token} {k : Kind} (ht : t.is k) (h : g.Yields ss ts) :
    g.Yields (.ofKind k :: ss) (t :: ts) := by
  obtain ⟨f, hf⟩ := h
  refine ⟨.leaf k.id f, ?_⟩
  change k.id :: f.leaves = _
  rw [hf, List.map_cons, Token.is_iff.1 ht]

/-- Symbols side by side derive what they derive one after the other. -/
theorem append (h : g.Yields ss ts) (h' : g.Yields ss' us) : g.Yields (ss ++ ss') (ts ++ us) := by
  obtain ⟨f, hf⟩ := h
  obtain ⟨f', hf'⟩ := h'
  exact ⟨f.append f', by rw [Forest.leaves_append, hf, hf', List.map_append]⟩

/-- A rule derives what its right-hand side does. -/
theorem rule {r : Rule ε σ} (i : Nat) (hi : g.rules[i]? = some r) (h : g.Yields r.rhs ts) :
    g.Yields [.nonterminal r.lhs.id] ts := by
  obtain ⟨f, hf⟩ := h
  exact ⟨.node hi rfl f .nil, (List.append_nil f.leaves).trans hf⟩

end Yields

/-! ## Completions -/

variable {g : Grammar ε σ} {c : Nat} {ids : List Nat} {ss : List Symbol} {us : List Use}

/-- A completion after a forest is a completion before it, if there is a leaf or a token left
    wherever a rule is used in the forest. -/
theorem Completes.prepend (f : Forest g ss) {ts : List Symbol}
    (hguard : ∀ u ∈ f.preorder c, u.position < c + (f.leaves.length + ids.length))
    (h : g.Completes (c + f.leaves.length) ids ts us) :
    g.Completes c (f.leaves ++ ids) (ss ++ ts) (f.preorder c ++ us) := by
  induction f generalizing c ids ts us with
  | nil => exact h
  | leaf id rest ih =>
    rw [Forest.leaves, List.length_cons] at hguard h
    refine .shift (ih (fun u hu => ?_) ?_)
    · have := hguard u hu
      omega
    · rwa [Nat.add_right_comm]
  | @node i id r ss hi hid children rest ihc ih =>
    rw [Forest.leaves, List.length_append] at hguard h
    rw [Forest.preorder] at hguard ⊢
    rw [Forest.leaves, List.append_assoc, List.cons_append, List.cons_append, List.append_assoc]
    refine .expand ?_ hi hid (ihc (fun u hu => ?_) (ih (fun u hu => ?_) ?_))
    · -- The rule is used at `c`, so something is left to be matched there.
      have hc : c < c + (children.leaves.length + rest.leaves.length + ids.length) :=
        hguard _ List.mem_cons_self
      rw [← List.length_pos_iff, List.length_append, List.length_append]
      omega
    · have := hguard u (List.mem_cons_of_mem _ (List.mem_append_left _ hu))
      rw [List.length_append]
      omega
    · have := hguard u (List.mem_cons_of_mem _ (List.mem_append_right _ hu))
      omega
    · rwa [Nat.add_assoc]

/-- A completion is the preorder of a forest, and every rule is used before the last leaf. -/
theorem Completes.exists_forest (h : g.Completes c ids ss us) :
    ∃ f : Forest g ss, f.leaves = ids ∧ f.preorder c = us ∧
      ∀ u ∈ us, u.position < c + ids.length := by
  induction h with
  | done => exact ⟨.nil, rfl, rfl, fun u hu => absurd hu List.not_mem_nil⟩
  | shift _ ih =>
    obtain ⟨f, rfl, rfl, hguard⟩ := ih
    refine ⟨.leaf _ f, rfl, rfl, fun u hu => ?_⟩
    have := hguard u hu
    rw [List.length_cons]
    omega
  | expand hne hi hid _ ih =>
    obtain ⟨f, rfl, rfl, hguard⟩ := ih
    -- The symbols of the right-hand side came in front, so the first trees are the children.
    obtain ⟨children, rest, rfl⟩ := f.exists_eq_append
    refine ⟨.node hi hid children rest, ?_, ?_, fun u hu => ?_⟩
    · rw [Forest.leaves_append, Forest.leaves]
    · rw [Forest.preorder_append, Forest.preorder]
    · rcases List.mem_cons.1 hu with rfl | hu
      · exact Nat.lt_add_of_pos_right (List.length_pos_iff.2 hne)
      · exact hguard u hu

/-- The completions are the forests in which every subtree starts before the last leaf, or at
    it. -/
theorem completes_iff_forest :
    g.Completes c ids ss us ↔
      ∃ f : Forest g ss, f.leaves = ids ∧ f.preorder c = us ∧
        ∀ u ∈ us, u.position < c + ids.length := by
  constructor
  · exact Completes.exists_forest
  · rintro ⟨f, rfl, rfl, hguard⟩
    have h : g.Completes (c + f.leaves.length) [] [] [] := .done
    simpa using h.prepend f hguard

end Frontend.Grammar
