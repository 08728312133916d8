import Frontend.Expr
import Frontend.Json
import Frontend.Number

/-!
# Trees as JSON

A node is an object whose member `node` tells its shape, with one more member for each field.
`Expr.toJson` writes this form. `Expr.ofJson?` reads it, in any order of the members and with
members it does not know ignored; it also reads a node or a span that is written as a list, the
shape first and then the fields in their order, and below the root a shape that is given by its
number. The bounds of spans have to fit in 64 bits, operators in 32 and numbers in 64 with sign.
-/

namespace Frontend

/-- The shapes of nodes. -/
inductive Shape where
  | name
  | number
  | binary
  | group
  | call
  | sequence
deriving DecidableEq

namespace Shape

/-- All shapes, in the order of their numbers. -/
def all : List Shape := [name, number, binary, group, call, sequence]

/-- How a shape is written. -/
def tag : Shape → String
  | name => "Variable"
  | number => "IntegralNumber"
  | binary => "BinaryExpression"
  | group => "ParenthesizedExpression"
  | call => "CallExpression"
  | sequence => "ExpressionSequence"

/-- The fields of a node, in their order. -/
def fields : Shape → List String
  | name => ["name", "span"]
  | number => ["value", "span"]
  | binary => ["operator", "lexeme", "lhs", "rhs", "span"]
  | group => ["inner", "span"]
  | call => ["callee", "args", "span"]
  | sequence => ["separator", "elements", "span"]

/-- Reads a shape; `numbered` allows its number in place of its name. -/
def ofJson? (numbered : Bool) : Json → Option Shape
  | .str s => all.find? fun shape => shape.tag == s
  | .int n => if numbered && 0 ≤ n then all[n.toNat]? else none
  | _ => none

end Shape

/-- The JSON form of a span. -/
def Span.toJson (s : Span) : Json := .obj [("start", .int s.start), ("end", .int s.stop)]

/-- A node of the given shape. -/
def Shape.node (shape : Shape) (values : List Json) : Json :=
  .obj (("node", .str shape.tag) :: shape.fields.zip values)

namespace Expr

mutual

/-- The JSON form of a tree. -/
def toJson : Expr → Json
  | name n s => Shape.name.node [.str n, s.toJson]
  | number v s => Shape.number.node [.int v, s.toJson]
  | binary o x l r s => Shape.binary.node [.int o, .str x, toJson l, toJson r, s.toJson]
  | group e s => Shape.group.node [toJson e, s.toJson]
  | call f es s => Shape.call.node [.str f, .arr (toJsonAll es), s.toJson]
  | sequence x es s => Shape.sequence.node [.str x, .arr (toJsonAll es), s.toJson]

/-- The JSON forms of some trees. -/
def toJsonAll : List Expr → List Json
  | [] => []
  | e :: es => toJson e :: toJsonAll es

end

end Expr

namespace Json

/-- A string. -/
def str? : Json → Option String
  | str s => some s
  | _ => none

/-- A whole number from `least` to `greatest`. -/
def int? (least greatest : Int) : Json → Option Int
  | int n => if least ≤ n ∧ n ≤ greatest then some n else none
  | _ => none

/-- A whole number without sign that fits in the given number of bits. -/
def nat? (bits : Nat) (j : Json) : Option Nat := (j.int? 0 (Int.pow 2 bits - 1)).map Int.toNat

/-- A part of a value, smaller than the whole. -/
abbrev Part (j : Json) := { p : Json // sizeOf p < sizeOf j }

theorem sizeOf_part_lt {j : Json} (p : Part j) : sizeOf p.1 < sizeOf j := p.2

/-- The named members of an object. -/
def members? (ms : List (String × Json)) : List String → Option (List (Part (.obj ms)))
  | [] => some []
  | key :: keys =>
    match h : find? key ms with
    | none => none
    | some p =>
      (members? ms keys).map fun ps =>
        ⟨p, by have := sizeOf_find?_lt h; simp only [obj.sizeOf_spec]; omega⟩ :: ps

/-- All items of a list. -/
def items (js : List Json) : List (Part (.arr js)) :=
  js.attach.map fun p =>
    ⟨p.1, by have := List.sizeOf_lt_of_mem p.2; simp only [arr.sizeOf_spec]; omega⟩

/-- The fields of a structure, written as an object or as a list of exactly these fields. -/
def fields? (keys : List String) : (j : Json) → Option (List (Part j))
  | obj ms => members? ms keys
  | arr js => if js.length = keys.length then some (items js) else none
  | _ => none

/-- A node taken apart: its shape, and the fields of that shape. -/
def node? (numbered : Bool) : (j : Json) → Option (Shape × List (Part j))
  | obj ms => do
    let tag ← find? "node" ms
    let shape ← Shape.ofJson? numbered tag
    let values ← members? ms shape.fields
    return (shape, values)
  | arr (tag :: js) => do
    let shape ← Shape.ofJson? numbered tag
    if js.length = shape.fields.length then
      return (shape, (items (tag :: js)).tail)
    else none
  | _ => none

end Json

/-- Reads a span. -/
def Span.ofJson? (j : Json) : Option Span :=
  match j.fields? ["start", "end"] with
  | some [a, b] => do
    let start ← a.1.nat? 64
    let stop ← b.1.nat? 64
    return ⟨start, stop⟩
  | _ => none

namespace Expr

mutual

/-- Reads a node, at the root of a tree or below it. -/
def decode? (below : Bool) (j : Json) : Option Expr :=
  match j.node? below with
  | some (.name, [n, s]) => do
    return name (← n.1.str?) (← Span.ofJson? s.1)
  | some (.number, [v, s]) => do
    return number (← v.1.int? Number.least Number.greatest) (← Span.ofJson? s.1)
  | some (.binary, [o, x, l, r, s]) => do
    return binary (← o.1.nat? 32) (← x.1.str?) (← decode? true l.1) (← decode? true r.1)
      (← Span.ofJson? s.1)
  | some (.group, [e, s]) => do
    return group (← decode? true e.1) (← Span.ofJson? s.1)
  | some (.call, [f, es, s]) => do
    return call (← f.1.str?) (← decodeList? es.1) (← Span.ofJson? s.1)
  | some (.sequence, [x, es, s]) => do
    return sequence (← x.1.str?) (← decodeList? es.1) (← Span.ofJson? s.1)
  | _ => none
termination_by sizeOf j
decreasing_by all_goals exact Json.sizeOf_part_lt _

/-- Reads a list of nodes below the root. -/
def decodeList? : Json → Option (List Expr)
  | .arr js => decodeAll? js
  | _ => none
termination_by j => sizeOf j

/-- Reads the items of a list of nodes. -/
def decodeAll? : List Json → Option (List Expr)
  | [] => some []
  | j :: js => do
    return (← decode? true j) :: (← decodeAll? js)
termination_by js => sizeOf js

end

/-- Reads a tree. -/
def ofJson? (j : Json) : Option Expr := decode? false j

end Expr

end Frontend
