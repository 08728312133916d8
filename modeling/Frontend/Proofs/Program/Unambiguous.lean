import Frontend.Proofs.Grammar.Unambiguous
import Frontend.Proofs.Program.Building
import Mathlib

/-!
# One tree for every program

A part of a program has at most one reading, and the rule by which it is derived can be told from
its trees (`Part.ruleOf`), so the leaves of a derivation tree determine its root (`index_eq`). They
determine those of the subtrees as well, since a part is followed on a right-hand side, if at all,
by a token that cannot continue it (`splits_rhs`). Hence the grammar is unambiguous for every part
(`deterministic`).
-/

namespace Frontend.Program

variable {p : Part} {ts : List Token} {es : List Expr} {s s' : TreeStack} {ss : List Symbol}

theorem not_isOutOfRange_ofId {ids : List Nat} : ∀ t ∈ ids.map Token.ofId, ¬t.isOutOfRange := by
  have hvalue : Number.read? "0" = some 0 := by cbv
  intro t ht
  obtain ⟨id, -, rfl⟩ := List.mem_map.1 ht
  rw [Token.isOutOfRange, Token.ofId, hvalue]
  simp

/-- What a forest derives has a meaning, if its numbers are in range. -/
theorem exists_builds (f : grammar.Forest ss) (hleaves : f.leaves = ts.map Token.id)
    (hrange : ∀ t ∈ ts, ¬t.isOutOfRange) : ∃ s', Builds.All ss ts .empty s' :=
  f.exists_means rhs_ne_nil respects_builds hleaves
    (fun t ht _ => ⟨rfl, t, rfl, rfl, hrange t ht⟩) .empty

theorem Part.Builds.exists_reads (h : p.Builds ts s s') : ∃ es, Reads p ts es := by
  cases p with
  | topLevel =>
    obtain ⟨es, hes, -⟩ := h
    exact ⟨_, .topLevel hes⟩
  | compound | parameters =>
    obtain ⟨es, hes, -⟩ := h
    exact ⟨es, hes⟩
  | expression | rvalue | lvalue =>
    obtain ⟨e, he, -⟩ := h
    exact ⟨[e], he⟩

/-- The tokens at the leaves of a tree are read. -/
theorem exists_reads_of_tree (t : grammar.Tree (.nonterminal p.symbol.id))
    (hleaves : t.leaves = ts.map Token.id) (hrange : ∀ t ∈ ts, ¬t.isOutOfRange) :
    ∃ es, Reads p ts es := by
  obtain ⟨s, hs⟩ := exists_builds t hleaves hrange
  rw [← p.symbol_eq] at hs
  exact (all_single_iff.1 hs).exists_reads

/-- The tokens at the leaves of the trees of a right-hand side are read by its rule. -/
theorem exists_reads_of_forest {i : Nat} {r : Rule Fault TreeStack}
    (hi : grammar.rules[i]? = some r) (f : grammar.Forest r.rhs)
    (hleaves : f.leaves = ts.map Token.id) (hrange : ∀ t ∈ ts, ¬t.isOutOfRange) :
    ∃ p es, r.lhs = p.symbol ∧ Reads p ts es ∧ p.ruleOf es = i := by
  obtain ⟨s, hs⟩ := exists_builds f hleaves hrange
  have hpos := List.length_pos_iff.2 (rhs_ne_nil r (List.mem_of_getElem? hi))
  have hlen := f.length_le_leaves rhs_ne_nil
  rw [hleaves, List.length_map] at hlen
  obtain ⟨t, ts, rfl⟩ := List.exists_cons_of_length_pos (Nat.lt_of_lt_of_le hpos hlen)
  obtain ⟨p, es, -, hp, hread, hrule, -⟩ :=
    builds_of_rhs (r, i) (List.mk_mem_zipIdx_iff_getElem?.2 hi) t ts _ s hs
  exact ⟨p, es, hp, hread, hrule⟩

/-- The rules by which two parts with the same leaves are derived are the same. -/
theorem index_eq {i j : Nat} {r r' : Rule Fault TreeStack} (hi : grammar.rules[i]? = some r)
    (hj : grammar.rules[j]? = some r') (hlhs : r.lhs.id = r'.lhs.id) (f : grammar.Forest r.rhs)
    (f' : grammar.Forest r'.rhs) (h : f.leaves = f'.leaves) : i = j := by
  have hleaves := (Token.map_id_map_ofId f.leaves).symm
  obtain ⟨p, es, hp, hread, rfl⟩ := exists_reads_of_forest hi f hleaves not_isOutOfRange_ofId
  obtain ⟨p', es', hp', hread', rfl⟩ :=
    exists_reads_of_forest hj f' (h.symm.trans hleaves) not_isOutOfRange_ofId
  obtain rfl : p = p' := Part.symbol_id_injective (by rw [← hp, ← hp', hlhs])
  rw [hread.unique hread']

/-- On a right-hand side, a part stands at the end or before a token that cannot continue it. -/
theorem tails_rhs : ∀ r ∈ rules, ∀ rest ∈ r.rhs.tails, ∀ s ∈ rest.head?, s.isTerminal ∨
    rest.tail = [] ∨ ∃ p ∈ Part.all, s = p.symbol ∧
      ∃ k ∈ Kind.all, rest.tail.head? = some (.ofKind k) ∧ k ∉ p.continuedBy := by
  decide

theorem stops_of_leaves {k : Kind} (f : grammar.Forest (.ofKind k :: ss))
    (hk : k ∉ p.continuedBy) (hleaves : f.leaves = ts.map Token.id) : p.Stops ts := by
  cases f with
  | leaf _ rest =>
    obtain ⟨t, ts, rfl, ht, -⟩ := List.map_eq_cons_iff.1 hleaves.symm
    exact Part.stops_cons (Token.is_iff.2 ht) hk

theorem splits_rhs : ∀ r ∈ grammar.rules, grammar.Splits r.rhs := by
  intro r hr
  refine Grammar.splits_of_nonterminal fun id s rest hsuffix t t' f f' heq => ?_
  rcases tails_rhs r hr _ ((List.mem_tails _ _).2 hsuffix) _ rfl with
    hterminal | hnil | ⟨p, -, hp, k, -, hk, hstops⟩
  · exact nomatch hterminal
  · exact nomatch hnil
  · obtain rfl : s = .ofKind k := Option.some.inj hk
    obtain rfl : id = p.symbol.id := Symbol.nonterminal.inj (hp.trans p.symbol_eq)
    have htokens (ids : List Nat) : ids = (ids.map Token.ofId).map Token.id :=
      (Token.map_id_map_ofId ids).symm
    obtain ⟨es, hread⟩ := exists_reads_of_tree t (htokens _) not_isOutOfRange_ofId
    obtain ⟨es', hread'⟩ := exists_reads_of_tree t' (htokens _) not_isOutOfRange_ofId
    refine Token.map_ofId_injective (hread.settled hread' ?_
      (stops_of_leaves f hstops (htokens _)) (stops_of_leaves f' hstops (htokens _))).1
    rw [← List.map_append, heq, List.map_append]

/-- No two derivation trees for the same part of a program have the same leaves. -/
theorem deterministic : grammar.Deterministic := ⟨index_eq, splits_rhs⟩

end Frontend.Program
