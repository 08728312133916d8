import Frontend.Diagnostic
import Frontend.Operator.Table

/-!
# Operator overrides

An override gives an operator, by its spelling, a new precedence and possibly a new
associativity. Overrides apply one after the other, so the last one for an operator wins; an
operator that no override names keeps its binding.
-/

namespace Frontend

/-- A new binding for an operator. -/
structure Override where
  operator : String
  precedence : Int
  /-- Without an associativity, the operator keeps the one it has, or groups to the left if it
      has none. -/
  associativity : Option Associativity
deriving DecidableEq

namespace Override

/-- The complaint about an override for something that is not a binary operator. -/
def refusal (operator : String) : Complaint :=
  (Problem.invalidConfig ("'" ++ operator ++ "' is not a binary operator")).unplaced

/-- A table with one override applied. -/
def apply (table : OperatorTable) (o : Override) : Except Complaint OperatorTable :=
  match Kind.operator? o.operator with
  | none => .error (refusal o.operator)
  | some k =>
    let current := (table.get? k.id).map Binding.associativity
    let associativity := (o.associativity.or current).getD .left
    .ok (table.set k.id ⟨o.precedence, associativity⟩)

/-- A table with some overrides applied in order. -/
def applyAll (overrides : List Override) (table : OperatorTable) :
    Except Complaint OperatorTable :=
  overrides.foldlM apply table

/-- The origin of diagnostics about overrides that cannot be applied. -/
def origin : Origin := ⟨.fallback "operator configuration", "config"⟩

/-- A table with some overrides applied, or the diagnostic for the first that cannot be. -/
def adjust (overrides : List Override) (table : OperatorTable) :
    Except Diagnostic OperatorTable :=
  (applyAll overrides table).mapError origin.report

end Override

end Frontend
