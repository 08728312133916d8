import Mathlib.Data.List.DropRight
import Mathlib.Data.List.Nodup

/-!
# Lists

Two kinds of fact about lists that several parts of the theory need. A list of keys and values
in which no key stands twice is known from what is found in it (`lookup_eq_some_iff_mem`): tables of
operators and objects are such lists. What stands behind the last line feed of some characters, or
of some bytes, makes up the column of the place that they lead to (`afterLast`).
-/

namespace Frontend

section

variable {α β : Type} [DecidableEq α] {l : List (α × β)} {a : α} {b : β}

theorem mem_of_lookup (h : l.lookup a = some b) : (a, b) ∈ l := by
  obtain ⟨l₁, l₂, rfl, -⟩ := List.lookup_eq_some_iff.1 h
  exact List.mem_append_right l₁ List.mem_cons_self

/-- Some value is found for every key. -/
theorem exists_lookup (h : a ∈ l.map Prod.fst) : ∃ b, l.lookup a = some b := by
  obtain ⟨x, hx, rfl⟩ := List.mem_map.1 h
  exact Option.isSome_iff_exists.1 (List.lookup_isSome_iff.2 ⟨x, hx, beq_self_eq_true x.1⟩)

/-- If no key stands twice in a list, what is found in it is what stands in it. -/
theorem lookup_eq_some_iff_mem (hl : (l.map Prod.fst).Nodup) :
    l.lookup a = some b ↔ (a, b) ∈ l := by
  refine ⟨mem_of_lookup, fun h => ?_⟩
  obtain ⟨b', hb'⟩ := exists_lookup (List.mem_map_of_mem h)
  have heq := List.inj_on_of_nodup_map hl h (mem_of_lookup hb') rfl
  rw [(Prod.mk.inj heq).2]
  exact hb'

end

section

variable {α : Type} [DecidableEq α] {a : α} {l l' : List α}

/-- What stands behind the last `a`, or the whole list if there is no `a` in it. -/
def afterLast (a : α) (l : List α) : List α := l.rtakeWhile (· ≠ a)

theorem afterLast_append_self (a : α) (l : List α) : afterLast a (l ++ [a]) = [] :=
  List.rtakeWhile_concat_neg _ _ _ (by simp)

/-- What does not contain the element stands behind the last one. -/
theorem afterLast_append (h : a ∉ l') : afterLast a (l ++ l') = afterLast a l ++ l' := by
  have hl' : ∀ b ∈ l'.reverse, decide (b ≠ a) := fun b hb =>
    decide_eq_true (ne_of_mem_of_not_mem (List.mem_reverse.1 hb) h)
  rw [afterLast, List.rtakeWhile, List.reverse_append, List.takeWhile_append_of_pos hl',
    List.reverse_append, List.reverse_reverse]
  rfl

end

end Frontend
