import Frontend.Proofs.Except
import Frontend.TreeStack
import Mathlib

/-!
# Nothing is lost on the stacks

The operations on a `TreeStack` may come in any order, and an expression may wait in several places
before it has its parent. What stays are the nodes: each of them is told by its `Expr.Head`, what it
is without its place and its children, and the heads on both stacks are at any time those of the
nodes that the operations have built (`Operation.heads_apply`, `Operation.heads_run`). A tree that
is released is all that was left, so it has these nodes and no others, each of them once
(`Operation.release_conserves`).
-/

namespace Frontend

namespace Expr

/-- What a node is, without its place and its children. -/
inductive Head where
  | name (name : String)
  | number (value : Int)
  | binary (operator : Nat) (lexeme : String)
  | group
  | call (callee : String)
  | sequence (separator : String)
deriving DecidableEq

mutual

/-- The heads of all nodes of a tree. -/
def heads : Expr → Multiset Head
  | name n _ => {.name n}
  | number v _ => {.number v}
  | binary o x l r _ => {.binary o x} + heads l + heads r
  | group e _ => {.group} + heads e
  | call f es _ => {.call f} + allHeads es
  | sequence x es _ => {.sequence x} + allHeads es

/-- The heads of all nodes of some trees. -/
def allHeads : List Expr → Multiset Head
  | [] => 0
  | e :: es => heads e + allHeads es

end

end Expr

/-- The heads of all nodes on the stacks. -/
def TreeStack.heads (s : TreeStack) : Multiset Expr.Head :=
  Expr.allHeads s.waiting + (s.arguments.map Expr.allHeads).sum

/-- An operation on the stacks. -/
inductive Operation where
  | name (t : Token)
  | number (t : Token)
  | compound (separator : String)
  | assign (lexeme : String)
  | openArguments
  | addArgument
  | call (callee : Token)
deriving DecidableEq

namespace Operation

/-- What an operation makes of the stacks. -/
def apply : Operation → TreeStack → Except Fault TreeStack
  | name t, s => .ok (s.pushName t)
  | number t, s => s.pushNumber t
  | compound separator, s => s.compound separator
  | assign lexeme, s => s.assign lexeme
  | openArguments, s => .ok s.openArguments
  | addArgument, s => s.addArgument
  | call callee, s => s.call callee

/-- What some operations make of the stacks, one after the other. -/
def run (ops : List Operation) (s : TreeStack) : Except Fault TreeStack :=
  ops.foldlM (fun s op => op.apply s) s

/-- The head of the node that an operation builds, if it builds one. -/
def head? : Operation → Option Expr.Head
  | name t => some (.name t.lexeme)
  | number t => (Number.read? t.lexeme).map .number
  | compound separator => some (.sequence separator)
  | assign lexeme => some (.binary Kind.assign.id lexeme)
  | openArguments => none
  | addArgument => none
  | call callee => some (.call callee.lexeme)

/-- The heads of the nodes that some operations build. -/
def built (ops : List Operation) : Multiset Expr.Head := ops.filterMap head?

variable {op : Operation} {ops : List Operation} {s s' : TreeStack} {e : Expr}

theorem built_cons (op : Operation) (ops : List Operation) :
    built (op :: ops) = built [op] + built ops := by
  rw [built, ← List.singleton_append, List.filterMap_append, ← Multiset.coe_add]
  rfl

theorem built_some {x : Expr.Head} (h : op.head? = some x) : built [op] = {x} := by
  rw [built, List.filterMap_cons_some h]
  rfl

theorem built_none (h : op.head? = none) : built [op] = 0 := by
  rw [built, List.filterMap_cons_none h]
  rfl

/-! ## Steps and runs -/

/-- A token that is pushed as a number has a value. -/
theorem exists_value_of_pushNumber {t : Token} (h : s.pushNumber t = .ok s') :
    ∃ v, Number.read? t.lexeme = some v ∧
      s' = { s with waiting := .number v t.span :: s.waiting } := by
  rw [TreeStack.pushNumber] at h
  split at h
  · split at h
    · next v hv =>
      cases h
      exact ⟨v, hv, rfl⟩
    · cases h
  · cases h

/-- An operation adds the node that it builds to those on the stacks, and keeps all others. -/
theorem heads_apply (h : op.apply s = .ok s') : s'.heads = s.heads + built [op] := by
  obtain ⟨waiting, arguments⟩ := s
  cases op with
  | name t =>
    cases h
    rw [built_some rfl]
    simp only [TreeStack.heads, TreeStack.pushName, Expr.allHeads, Expr.ofName, Expr.heads]
    abel
  | number t =>
    obtain ⟨v, hv, rfl⟩ := exists_value_of_pushNumber h
    have hhead : (number t).head? = some (.number v) := congrArg (Option.map _) hv
    rw [built_some hhead]
    simp only [TreeStack.heads, Expr.allHeads, Expr.heads]
    abel
  | compound separator =>
    cases waiting with
    | nil => cases h
    | cons e es =>
      cases h
      rw [built_some rfl]
      simp only [TreeStack.heads, Expr.allHeads, Expr.heads, Expr.ofElements]
      abel
  | assign lexeme =>
    rcases waiting with - | ⟨lhs, - | ⟨rhs, es⟩⟩
    · cases h
    · cases h
    · cases h
      rw [built_some rfl]
      simp only [TreeStack.heads, Expr.allHeads, Expr.heads, Expr.ofOperator]
      abel
  | openArguments =>
    cases h
    rw [built_none rfl]
    simp only [TreeStack.heads, TreeStack.openArguments, List.map_cons, List.sum_cons,
      Expr.allHeads]
    abel
  | addArgument =>
    rcases arguments with - | ⟨args, lists⟩
    · cases h
    rcases waiting with - | ⟨e, es⟩
    · cases h
    · cases h
      rw [built_none rfl]
      simp only [TreeStack.heads, List.map_cons, List.sum_cons, Expr.allHeads]
      abel
  | call callee =>
    cases arguments with
    | nil => cases h
    | cons args lists =>
      cases h
      rw [built_some rfl]
      simp only [TreeStack.heads, List.map_cons, List.sum_cons, Expr.allHeads, Expr.heads]
      abel

theorem run_cons_iff :
    run (op :: ops) s = .ok s' ↔ ∃ s₁, op.apply s = .ok s₁ ∧ run ops s₁ = .ok s' := by
  rw [run, List.foldlM_cons]
  exact bind_eq_ok_iff

/-- By induction on the operations, the heads on the stacks are those that were there and those that
    were built. -/
theorem heads_run (h : run ops s = .ok s') : s'.heads = s.heads + built ops := by
  induction ops generalizing s with
  | nil =>
    cases h
    exact (add_zero _).symm
  | cons op ops ih =>
    obtain ⟨s₁, hs₁, h⟩ := run_cons_iff.1 h
    rw [ih h, heads_apply hs₁, built_cons op ops, add_assoc]

/-- A token that an operation has made a number of has a value. -/
theorem exists_value_of_run (h : run ops s = .ok s') {t : Token} (ht : .number t ∈ ops) :
    ∃ v, Number.read? t.lexeme = some v := by
  induction ops generalizing s with
  | nil => exact absurd ht List.not_mem_nil
  | cons op ops ih =>
    obtain ⟨s₁, hs₁, h⟩ := run_cons_iff.1 h
    rcases List.mem_cons.1 ht with rfl | ht
    · obtain ⟨v, hv, -⟩ := exists_value_of_pushNumber hs₁
      exact ⟨v, hv⟩
    · exact ih h ht

/-- The tree that is released has all the heads of the stacks, which are empty then. -/
theorem heads_of_release (h : s.release = .ok (e, s')) : e.heads = s.heads ∧ s' = .empty := by
  obtain ⟨waiting, arguments⟩ := s
  rcases arguments with - | ⟨args, lists⟩
  · rcases waiting with - | ⟨e', - | ⟨e'', es⟩⟩
    · cases h
    · cases h
      simp [TreeStack.heads, Expr.allHeads]
    · cases h
  · cases h

/-- The nodes of a tree that is released after some operations are exactly those that the operations
    have built: a variable for each name, a number with its value for each number, a call for each
    callee, an assignment for each assignment, and a sequence for each compound expression. Nothing
    is left on the stacks. -/
theorem release_conserves (hrun : run ops .empty = .ok s) (hrelease : s.release = .ok (e, s')) :
    e.heads = built ops ∧ (∀ t, .number t ∈ ops → ∃ v, Number.read? t.lexeme = some v) ∧
      s' = .empty := by
  obtain ⟨hheads, hempty⟩ := heads_of_release hrelease
  refine ⟨?_, fun t ht => exists_value_of_run hrun ht, hempty⟩
  rw [hheads, heads_run hrun]
  exact zero_add _

/-- Statements `z` and `y = f(g(x), 5)`, with a call in an argument list that is open. -/
theorem release_conserves_nested :
    let token (k : Kind) (lexeme : String) : Token := ⟨k.id, lexeme, .zero, .nowhere⟩
    let identifier := token .identifier
    let ops : List Operation := [.number (token .number "5"), .openArguments, .addArgument,
      .name (identifier "x"), .openArguments, .addArgument, .call (identifier "g"), .addArgument,
      .call (identifier "f"), .name (identifier "y"), .assign "=", .name (identifier "z"),
      .compound ";"]
    let nodes : List Expr.Head := [.number 5, .name "x", .call "g", .call "f", .name "y",
      .binary Kind.assign.id "=", .name "z", .sequence ";"]
    ∃ s e, run ops .empty = .ok s ∧ s.release = .ok (e, .empty) ∧ e.heads = nodes := by
  intro token identifier ops nodes
  obtain ⟨s, e, hrun, hrelease⟩ : ∃ s e, run ops .empty = .ok s ∧ s.release = .ok (e, .empty) :=
    ⟨_, _, by cbv, by cbv⟩
  have hnodes : ops.filterMap head? = nodes := by cbv
  refine ⟨s, e, hrun, hrelease, ?_⟩
  rw [(release_conserves hrun hrelease).1, built, hnodes]

end Operation

end Frontend
