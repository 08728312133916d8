import Frontend.Expr

/-!
# Trees as text

A tree has two forms for people to read: the *compact* form is a nested list on one line,
such as `(+ a (* b c))`, and the *outline* has one line for each node, below its parent and
indented by its depth.

An outline is written from the top to the bottom. The depth is kept beside what is written: it
goes up before the children of a node and down again behind them.
-/

namespace Frontend

namespace Expr

/-- A list in parentheses. -/
def listText (head : String) (items : List String) : String :=
  "(" ++ head ++ String.join (items.map (" " ++ ·)) ++ ")"

mutual

/-- The compact form. -/
def compact : Expr → String
  | name n _ => n
  | number v _ => toString v
  | binary _ x l r _ => listText x [compact l, compact r]
  | group e _ => listText "paren" [compact e]
  | call f es _ => listText ("call " ++ f) (compactAll es)
  | sequence _ es _ => listText "seq" (compactAll es)

/-- The compact forms of some expressions. -/
def compactAll : List Expr → List String
  | [] => []
  | e :: es => compact e :: compactAll es

end

/-- The word that a node shows. -/
def word : Expr → String
  | name n _ => n
  | number v _ => toString v
  | binary _ x _ _ _ => x
  | group _ _ => "()"
  | call f _ _ => f
  | sequence x _ _ => x

/-- The text of a node on its own: its sort and its word. -/
def label (e : Expr) : String := e.sort ++ " '" ++ e.word ++ "'"

end Expr

/-- An outline as far as it is written, and the depth at which it goes on. -/
structure Outline where
  text : String
  depth : Nat

namespace Outline

/-- What stands before a node at some depth. -/
def indent (depth : Nat) : String := String.join (List.replicate depth "|--")

/-- Some text is written. -/
def write (o : Outline) (s : String) : Outline := { o with text := o.text ++ s }

/-- The line of a child is begun. -/
def startLine (o : Outline) : Outline := o.write ("\n" ++ indent o.depth)

/-- A node is written, and its children come next. -/
def enter (o : Outline) (label : String) : Outline :=
  { o.write label with depth := o.depth + 1 }

/-- The children of a node are finished. -/
def leave (o : Outline) : Outline := { o with depth := o.depth - 1 }

mutual

/-- A tree is written on a line that is begun already. -/
def tree (o : Outline) : Expr → Outline
  | .name n s => o.write (Expr.label (.name n s))
  | .number v s => o.write (Expr.label (.number v s))
  | .binary op x l r s =>
    (tree (startLine (tree (startLine (o.enter (Expr.label (.binary op x l r s)))) l)) r).leave
  | .group e s => (tree (startLine (o.enter (Expr.label (.group e s)))) e).leave
  | .call f es s => (children (o.enter (Expr.label (.call f es s))) es).leave
  | .sequence x es s => (children (o.enter (Expr.label (.sequence x es s))) es).leave

/-- Some children are written, each on a line of its own. -/
def children (o : Outline) : List Expr → Outline
  | [] => o
  | e :: es => children (tree o.startLine e) es

end

end Outline

/-- The outline of a tree. -/
def Expr.outline (e : Expr) : String := (Outline.tree ⟨"", 0⟩ e).text

end Frontend
