import Frontend.Token.Kind

/-!
# Operator tables

How tightly an operator binds and to which side it groups. A table lists its operators by
number, each once and in increasing order, so that two tables with the same entries are
equal.
-/

namespace Frontend

/-- The side to which operators of one precedence group. -/
inductive Associativity where
  | left
  | right
deriving DecidableEq

/-- The precedence of an operator, higher binding tighter, and its associativity. -/
structure Binding where
  precedence : Int
  associativity : Associativity
deriving DecidableEq

/-- The bindings of some operators. -/
structure OperatorTable where
  /-- The operators by number, with their bindings. -/
  entries : List (Nat × Binding)
  /-- Every operator is listed once, in increasing order. -/
  sorted : entries.Pairwise fun a b => a.1 < b.1
deriving DecidableEq

namespace OperatorTable

/-- The table without operators. -/
def empty : OperatorTable := ⟨[], .nil⟩

/-- The binding of an operator. -/
def get? (t : OperatorTable) (id : Nat) : Option Binding := t.entries.lookup id

/-- The entries with the binding of one operator put in its place. -/
def insert (id : Nat) (b : Binding) : List (Nat × Binding) → List (Nat × Binding)
  | [] => [(id, b)]
  | e :: es =>
    if id < e.1 then (id, b) :: e :: es
    else if id = e.1 then (id, b) :: es
    else e :: insert id b es

theorem mem_insert {id : Nat} {b : Binding} {es : List (Nat × Binding)} {x : Nat × Binding}
    (h : x ∈ insert id b es) : x = (id, b) ∨ x ∈ es := by
  induction es with
  | nil => simpa [insert] using h
  | cons e es ih =>
    rw [insert] at h
    split at h
    · simpa using h
    · split at h
      · rcases List.mem_cons.1 h with h | h
        · exact .inl h
        · exact .inr (List.mem_cons_of_mem _ h)
      · rcases List.mem_cons.1 h with h | h
        · exact .inr (h ▸ List.mem_cons_self)
        · exact (ih h).imp_right (List.mem_cons_of_mem _)

theorem pairwise_insert {es : List (Nat × Binding)} (id : Nat) (b : Binding)
    (h : es.Pairwise fun a b => a.1 < b.1) : (insert id b es).Pairwise fun a b => a.1 < b.1 := by
  induction es with
  | nil => simp [insert]
  | cons e es ih =>
    obtain ⟨he, hes⟩ := List.pairwise_cons.1 h
    rw [insert]
    split
    · next hlt =>
      refine List.pairwise_cons.2 ⟨fun x hx => ?_, h⟩
      rcases List.mem_cons.1 hx with rfl | hx
      · exact hlt
      · exact Nat.lt_trans hlt (he x hx)
    · split
      · next heq => exact List.pairwise_cons.2 ⟨fun x hx => heq ▸ he x hx, hes⟩
      · next hlt hne =>
        refine List.pairwise_cons.2 ⟨fun x hx => ?_, ih hes⟩
        rcases mem_insert hx with rfl | hx
        · exact Nat.lt_of_le_of_ne (Nat.le_of_not_lt hlt) (Ne.symm hne)
        · exact he x hx

/-- The table with the binding of an operator added or replaced. -/
def set (t : OperatorTable) (id : Nat) (b : Binding) : OperatorTable :=
  ⟨insert id b t.entries, pairwise_insert id b t.sorted⟩

/-- The table with the given bindings, added in order. -/
def ofList (bindings : List (Nat × Binding)) : OperatorTable :=
  bindings.foldl (fun t e => t.set e.1 e.2) empty

/-- The table of the CBC language: `*` binds tightest, then `+` and `-`, then the shifts, then
    assignment, which alone groups to the right. -/
def standard : OperatorTable :=
  ofList
    [ (Kind.mul.id, ⟨8, .left⟩),
      (Kind.add.id, ⟨7, .left⟩),
      (Kind.sub.id, ⟨7, .left⟩),
      (Kind.shiftLeft.id, ⟨4, .left⟩),
      (Kind.shiftRight.id, ⟨4, .left⟩),
      (Kind.assign.id, ⟨1, .right⟩) ]

/-- Only the binding of the operator that is put in its place is found differently. -/
theorem lookup_insert (id : Nat) (b : Binding) (es : List (Nat × Binding)) (i : Nat) :
    (insert id b es).lookup i = if i = id then some b else es.lookup i := by
  have hcons (x : Nat × Binding) (xs : List (Nat × Binding)) :
      (x :: xs).lookup i = if i = x.1 then some x.2 else xs.lookup i := by
    rw [List.lookup_cons]
    split
    · next h => rw [if_pos (beq_iff_eq.1 h)]
    · next h => rw [if_neg (beq_eq_false_iff_ne.1 h)]
  induction es with
  | nil => exact hcons (id, b) []
  | cons e es ih =>
    rw [insert]
    split
    · exact hcons (id, b) (e :: es)
    · split
      · next heq =>
        rw [hcons, hcons, ← heq]
        split <;> rfl
      · next hne =>
        rw [hcons, hcons, ih]
        by_cases h : i = e.1
        · rw [if_pos h, if_neg fun hid => hne (hid.symm.trans h), if_pos h]
        · rw [if_neg h, if_neg h]

/-- An operator has the binding it was last given. -/
@[simp]
theorem get?_set (t : OperatorTable) (id : Nat) (b : Binding) (i : Nat) :
    (t.set id b).get? i = if i = id then some b else t.get? i :=
  lookup_insert id b t.entries i

end OperatorTable

end Frontend
