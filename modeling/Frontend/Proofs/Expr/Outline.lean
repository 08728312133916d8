import Frontend.Proofs.Expr.Compact
import Mathlib

/-!
# Reading the outline

An outline has one line for each node, in pre-order (`Expr.nodes`): the depth of the node, drawn
as so many bars, and its label. Every tree is written in the same way, its label first and then its
children, one level deeper (`Outline.tree_eq`). This adds the lines of its nodes to what is written
already, and leaves the depth as it was (`Outline.depth_tree`, `Outline.text_tree`).

The children of a node are the nodes behind it that are one level deeper, up to the first one that
is not deeper than itself. So a tree is told by the depths and labels of its nodes, whatever nodes
follow that are not deeper (`Expr.told`). If no label has a line feed in it, these can be read off
the lines of the text (`Expr.readLine_line`), and the outline shows all of a tree but its spans and
the numbers of operators (`Expr.outline_shows`).
-/

namespace Frontend

namespace Expr

mutual

/-- The nodes of a tree in pre-order, each with its depth; the root has the depth `d`. -/
def nodes (d : Nat) : Expr → List (Nat × Expr)
  | name n s => [(d, name n s)]
  | number v s => [(d, number v s)]
  | binary o x l r s => (d, binary o x l r s) :: (nodes (d + 1) l ++ nodes (d + 1) r)
  | group e s => (d, group e s) :: nodes (d + 1) e
  | call f es s => (d, call f es s) :: allNodes (d + 1) es
  | sequence x es s => (d, sequence x es s) :: allNodes (d + 1) es

/-- The nodes of some trees, one tree after the other. -/
def allNodes (d : Nat) : List Expr → List (Nat × Expr)
  | [] => []
  | e :: es => nodes d e ++ allNodes d es

end

/-- The line of a node. -/
def line (node : Nat × Expr) : String := Outline.indent node.1 ++ node.2.label

variable {c e e' : Expr} {es es' : List Expr} {d : Nat}

/-- The nodes of a tree are its root and, one level deeper, the nodes of its children. -/
theorem nodes_eq (d : Nat) (e : Expr) : e.nodes d = (d, e) :: allNodes (d + 1) e.children := by
  cases e <;> simp [nodes, allNodes, children]

theorem sizeOf_lt_of_mem_children (h : c ∈ e.children) : sizeOf c < sizeOf e := by
  cases e with
  | name | number => exact absurd h List.not_mem_nil
  | binary o x l r s =>
    simp only [children, List.mem_cons, List.not_mem_nil, or_false] at h
    rcases h with rfl | rfl <;> simp only [binary.sizeOf_spec] <;> omega
  | group e s =>
    obtain rfl := List.mem_singleton.1 h
    simp only [group.sizeOf_spec]
    omega
  | call f es s =>
    have hlt : sizeOf c < sizeOf es := List.sizeOf_lt_of_mem h
    simp only [call.sizeOf_spec]
    omega
  | sequence x es s =>
    have hlt : sizeOf c < sizeOf es := List.sizeOf_lt_of_mem h
    simp only [sequence.sizeOf_spec]
    omega

/-- What holds of a tree if it holds of its children holds of all trees. -/
@[elab_as_elim]
theorem children_induction {P : Expr → Prop} (node : ∀ e, (∀ c ∈ e.children, P c) → P e)
    (e : Expr) : P e := by
  induction hn : sizeOf e using Nat.strongRecOn generalizing e with
  | ind n ih => exact node e fun c hc => ih _ (hn ▸ sizeOf_lt_of_mem_children hc) c rfl

end Expr

namespace Outline

/-! ## What is written -/

/-- Some nodes, each on a new line. -/
def newLines (nodes : List (Nat × Expr)) : String :=
  String.join (nodes.map fun node => "\n" ++ Expr.line node)

variable {es : List Expr}

/-- A tree is written as its label and, one level deeper, its children. -/
theorem tree_eq (o : Outline) (e : Expr) :
    o.tree e = ((o.enter e.label).children e.children).leave := by
  cases e <;> rfl

theorem depth_children (h : ∀ e ∈ es, ∀ o : Outline, (o.tree e).depth = o.depth) (o : Outline) :
    (o.children es).depth = o.depth := by
  induction es generalizing o with
  | nil => rfl
  | cons e es ih =>
    obtain ⟨he, hes⟩ := List.forall_mem_cons.1 h
    rw [children, ih hes, he]
    rfl

/-- Behind a tree, the depth is what it was before. -/
theorem depth_tree (e : Expr) (o : Outline) : (o.tree e).depth = o.depth := by
  induction e using Expr.children_induction generalizing o with
  | node e ih =>
    rw [tree_eq, leave, depth_children ih]
    rfl

theorem text_children
    (h : ∀ e ∈ es, ∀ o : Outline, (o.tree e).text =
      o.text ++ e.label ++ newLines (Expr.allNodes (o.depth + 1) e.children)) (o : Outline) :
    (o.children es).text = o.text ++ newLines (Expr.allNodes o.depth es) := by
  induction es generalizing o with
  | nil => simp [children, Expr.allNodes, newLines]
  | cons e es ih =>
    obtain ⟨he, hes⟩ := List.forall_mem_cons.1 h
    rw [children, ih hes, he, depth_tree, Expr.allNodes, Expr.nodes_eq]
    simp [newLines, startLine, write, Expr.line, String.append_assoc]

/-- A tree adds its label and the lines of what is below its root. -/
theorem text_tree (e : Expr) (o : Outline) :
    (o.tree e).text =
      o.text ++ e.label ++ newLines (Expr.allNodes (o.depth + 1) e.children) := by
  induction e using Expr.children_induction generalizing o with
  | node e ih =>
    rw [tree_eq, leave, text_children ih]
    rfl

end Outline

namespace Expr

variable {c e e' : Expr} {es es' : List Expr} {d d' : Nat}

/-! ## The lines of the text -/

theorem intercalate_cons {α : Type} (x : α) (l : List α) (ls : List (List α)) :
    [x].intercalate (l :: ls) = l ++ ls.flatMap (x :: ·) := by
  induction ls generalizing l with
  | nil => simp
  | cons l' ls ih =>
    rw [List.intercalate_cons_cons, ih, List.flatMap_cons, List.append_assoc]
    rfl

/-- The outline is the lines of the nodes with line feeds between them. -/
theorem outline_eq (e : Expr) :
    e.outline.toList = ['\n'].intercalate ((e.nodes 0).map fun node => (line node).toList) := by
  rw [outline, Outline.text_tree, nodes_eq, List.map_cons, intercalate_cons]
  simp [line, Outline.newLines, Outline.indent, List.flatMap_map]

/-- No label has a line feed in it. -/
inductive OneLine : Expr → Prop
  | name {n : String} {s : Span} : '\n' ∉ n.toList → OneLine (.name n s)
  | number {v : Int} {s : Span} : OneLine (.number v s)
  | binary {o : Nat} {x : String} {l r : Expr} {s : Span} : '\n' ∉ x.toList → OneLine l →
      OneLine r → OneLine (.binary o x l r s)
  | group {e : Expr} {s : Span} : OneLine e → OneLine (.group e s)
  | call {f : String} {es : List Expr} {s : Span} : '\n' ∉ f.toList → (∀ e ∈ es, OneLine e) →
      OneLine (.call f es s)
  | sequence {x : String} {es : List Expr} {s : Span} : '\n' ∉ x.toList →
      (∀ e ∈ es, OneLine e) → OneLine (.sequence x es s)

/-- No label has a line feed in it. -/
theorem OneLine.newline_not_mem_label (h : e.OneLine) : '\n' ∉ e.label.toList := by
  have hsort : '\n' ∉ e.sort.toList := by cases e <;> simp [sort]
  have hword : '\n' ∉ e.word.toList := by
    cases h with
    | name h | binary h _ _ | call h _ | sequence h _ => exact h
    | number =>
      intro hmem
      rcases isDigit_or_minus _ _ hmem with h | h <;> exact absurd h (by decide)
    | group => simp [word]
  simp [label, hsort, hword]

theorem OneLine.of_mem_children (h : e.OneLine) (hc : c ∈ e.children) : c.OneLine := by
  cases h with
  | name | number => exact absurd hc List.not_mem_nil
  | binary _ hl hr =>
    simp only [children, List.mem_cons, List.not_mem_nil, or_false] at hc
    rcases hc with rfl | rfl
    · exact hl
    · exact hr
  | group he => exact List.mem_singleton.1 hc ▸ he
  | call _ hes | sequence _ hes => exact hes c hc

theorem mem_allNodes {node : Nat × Expr} (h : node ∈ allNodes d es) :
    ∃ e ∈ es, node ∈ e.nodes d := by
  induction es with
  | nil => exact absurd h List.not_mem_nil
  | cons e es ih =>
    rw [allNodes] at h
    rcases List.mem_append.1 h with h | h
    · exact ⟨e, List.mem_cons_self, h⟩
    · obtain ⟨e', he', hnode⟩ := ih h
      exact ⟨e', List.mem_cons_of_mem e he', hnode⟩

theorem OneLine.of_mem_nodes {node : Nat × Expr} (h : e.OneLine) (hnode : node ∈ e.nodes d) :
    node.2.OneLine := by
  induction e using children_induction generalizing d with
  | node e ih =>
    rw [nodes_eq] at hnode
    rcases List.mem_cons.1 hnode with rfl | hnode
    · exact h
    · obtain ⟨c, hc, hnode⟩ := mem_allNodes hnode
      exact ih c hc (h.of_mem_children hc) hnode

theorem OneLine.newline_not_mem_line {node : Nat × Expr} (h : node.2.OneLine) :
    '\n' ∉ (line node).toList := by
  have hindent : '\n' ∉ (Outline.indent node.1).toList := by simp [Outline.indent]
  rw [line, String.toList_append]
  exact List.not_mem_append hindent h.newline_not_mem_label

/-- If no label has a line feed in it, the lines of the outline are those of the nodes. -/
theorem OneLine.splitOn_outline (h : e.OneLine) :
    e.outline.toList.splitOn '\n' = (e.nodes 0).map fun node => (line node).toList := by
  rw [outline_eq]
  refine List.splitOn_intercalate _ ?_ ?_
  · intro l hl
    obtain ⟨node, hnode, rfl⟩ := List.mem_map.1 hl
    exact (h.of_mem_nodes hnode).newline_not_mem_line
  · rw [nodes_eq]
    exact List.cons_ne_nil _ _

/-! ## Depths and labels -/

/-- The depth and the label that a line shows. -/
def readLine : List Char → Nat × List Char
  | '|' :: '-' :: '-' :: cs => ((readLine cs).1 + 1, (readLine cs).2)
  | cs => (0, cs)

/-- The depth and the label of a node can be read off its line. -/
theorem readLine_line (node : Nat × Expr) :
    readLine (line node).toList = (node.1, node.2.label.toList) := by
  obtain ⟨d, e⟩ := node
  induction d with
  | zero =>
    -- No label begins with a bar.
    cases e <;> simp [line, Outline.indent, label, sort, readLine]
  | succ d ih =>
    have hline : (line (d + 1, e)).toList = '|' :: '-' :: '-' :: (line (d, e)).toList := by
      simp [line, Outline.indent, List.replicate_succ]
    rw [hline, readLine, ih]

/-- The depths and the labels of some nodes. -/
def shown (nodes : List (Nat × Expr)) : List (Nat × List Char) :=
  nodes.map fun node => (node.1, node.2.label.toList)

/-- What follows, if anything does, is not as deep as `d`. -/
def Leaves (d : Nat) (rest : List (Nat × List Char)) : Prop := ∀ x ∈ rest.head?, x.1 < d

/-- The tree is told by what its nodes show, whatever follows on its own depth or above. -/
def Told (e : Expr) : Prop :=
  ∀ (d : Nat) (e' : Expr) (rest rest' : List (Nat × List Char)),
    Leaves (d + 1) rest → Leaves (d + 1) rest' →
    shown (e.nodes d) ++ rest = shown (e'.nodes d) ++ rest' → e.bare id = e'.bare id ∧ rest = rest'

variable {rest rest' : List (Nat × List Char)}

/-- The label of a node tells its sort and its word. -/
theorem sort_word_of_label (h : e.label = e'.label) : e.sort = e'.sort ∧ e.word = e'.word := by
  have htext : e.label.toList = e'.label.toList := by rw [h]
  have hsort : e.sort = e'.sort := by
    cases e <;> cases e' <;> simp [label, sort] at htext ⊢
  refine ⟨hsort, String.toList_inj.1 ?_⟩
  simpa [label, hsort] using htext

/-- A node is told by its label and its children. -/
theorem bare_eq_of_label (hlabel : e.label = e'.label)
    (hchildren : bareAll id e.children = bareAll id e'.children) : e.bare id = e'.bare id := by
  obtain ⟨hsort, hword⟩ := sort_word_of_label hlabel
  cases e <;> cases e' <;> simp [sort] at hsort <;>
    simp_all [word, children, bareAll, bare]

theorem leaves_allNodes (h : Leaves d rest) : Leaves (d + 1) (shown (allNodes d es) ++ rest) := by
  cases es with
  | nil => exact fun x hx => Nat.lt_succ_of_lt (h x hx)
  | cons e es =>
    rw [allNodes, nodes_eq]
    rintro x ⟨⟩
    exact Nat.lt_succ_self d

theorem bareAll_eq_of_shown (hes : ∀ e ∈ es, e.Told) (hrest : Leaves d rest)
    (hrest' : Leaves d rest')
    (h : shown (allNodes d es) ++ rest = shown (allNodes d es') ++ rest') :
    bareAll id es = bareAll id es' ∧ rest = rest' := by
  induction es generalizing es' with
  | nil =>
    cases es' with
    | nil => exact ⟨rfl, h⟩
    | cons e' es' =>
      -- What follows would be as deep as the children.
      rw [allNodes, allNodes, nodes_eq] at h
      obtain rfl : rest = _ := h
      exact absurd (hrest _ rfl) (Nat.lt_irrefl d)
  | cons e es ih =>
    cases es' with
    | nil =>
      rw [allNodes, allNodes, nodes_eq] at h
      obtain rfl : _ = rest' := h
      exact absurd (hrest' _ rfl) (Nat.lt_irrefl d)
    | cons e' es' =>
      obtain ⟨he, hes⟩ := List.forall_mem_cons.1 hes
      simp only [allNodes, shown, List.map_append, List.append_assoc] at h
      obtain ⟨hhead, htail⟩ :=
        he d e' _ _ (leaves_allNodes hrest) (leaves_allNodes hrest') h
      obtain ⟨hbare, hend⟩ := ih hes htail
      exact ⟨by rw [bareAll, bareAll, hhead, hbare], hend⟩

/-- Every tree is told, by induction on its children. -/
theorem told (e : Expr) : e.Told := by
  induction e using children_induction with
  | node e ih =>
    intro d e' rest rest' hrest hrest' h
    rw [nodes_eq, nodes_eq] at h
    obtain ⟨hroot, hbelow⟩ := List.cons.inj h
    obtain ⟨hchildren, hend⟩ := bareAll_eq_of_shown ih hrest hrest' hbelow
    exact ⟨bare_eq_of_label (String.toList_inj.1 (Prod.mk.inj hroot).2) hchildren, hend⟩

/-- Trees with the same lines are equal but for what the lines do not show. -/
theorem bare_eq_of_lines
    (h : (e.nodes 0).map (fun node => (line node).toList) =
      (e'.nodes 0).map fun node => (line node).toList) : e.bare id = e'.bare id := by
  have hread (e : Expr) :
      ((e.nodes 0).map fun node => (line node).toList).map readLine = shown (e.nodes 0) := by
    simp [shown, readLine_line]
  have hshown : shown (e.nodes 0) ++ [] = shown (e'.nodes 0) ++ [] := by
    rw [← hread, ← hread, h]
  have hnil : Leaves 1 [] := nofun
  exact (told e 0 e' [] [] hnil hnil hshown).1

/-- The outline of a tree has the lines of its nodes, the depth is the same before and behind
    every tree, and two trees with the same outline are equal up to spans and the numbers of
    operators. -/
theorem outline_shows (e : Expr) (h : e.OneLine) :
    e.outline.toList.splitOn '\n' = (e.nodes 0).map (fun node => (line node).toList) ∧
      (∀ (c : Expr) (o : Outline), (o.tree c).depth = o.depth) ∧
      ∀ e' : Expr, e'.OneLine → e.outline = e'.outline → e.bare id = e'.bare id := by
  refine ⟨h.splitOn_outline, Outline.depth_tree, fun e' h' heq => bare_eq_of_lines ?_⟩
  rw [← h.splitOn_outline, ← h'.splitOn_outline, heq]

/-- The outline of an assignment, which does not show the number of its operator. -/
theorem outline_shows_assignment :
    let add : Expr := .call "add" [.name "y" .zero, .number 2 .zero] .zero
    let assignment (o : Nat) : Expr :=
      .sequence ";" [.binary o "=" (.name "x" .zero) add .zero] .zero
    (assignment 5).outline = "Expression Sequence ';'\n|--Binary Expression '='\n" ++
        "|--|--Variable 'x'\n|--|--Call Expression 'add'\n" ++
        "|--|--|--Variable 'y'\n|--|--|--Integral Number '2'" ∧
      (assignment 5).outline.toList.splitOn '\n' =
        ((assignment 5).nodes 0).map (fun node => (line node).toList) ∧
      (assignment 5).outline = (assignment 7).outline ∧
      (assignment 5).bare id = (assignment 7).bare id := by
  intro add assignment
  have hadd : add.OneLine := by
    refine .call (by simp) (List.forall_mem_cons.2 ⟨.name (by simp), ?_⟩)
    exact List.forall_mem_singleton.2 .number
  have h (o : Nat) : (assignment o).OneLine :=
    .sequence (by simp) (List.forall_mem_singleton.2 (.binary (by simp) (.name (by simp)) hadd))
  have htext : (assignment 5).outline = (assignment 7).outline := by cbv
  obtain ⟨hlines, -, hunique⟩ := outline_shows (assignment 5) (h 5)
  exact ⟨by decide +kernel, hlines, htext, hunique _ (h 7) htext⟩

end Expr

end Frontend
