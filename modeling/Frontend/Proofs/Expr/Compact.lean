import Frontend.Expr.Text
import Frontend.Proofs.Token.Lexeme
import Mathlib

/-!
# Reading the compact form

The compact form of an expression is a nested list of words (`Expr.nested`): a list begins with
the word that tells its sort, and every other item has a blank before it. If no blank and no
parenthesis stands in a word, nested lists are told apart by their text, even with other text
behind them (`NestedList.Legible.told`).

Names, numbers and operators are such words. The same word can be the name of a variable and begin
a list, but not at the same place, so the compact form shows all of an expression except for spans,
the numbers of operators and the separators of sequences (`Expr.compact_eq_iff`).
-/

namespace Frontend

/-- A word, or a list of words and lists that begins with a word. -/
inductive NestedList where
  | word (text : List Char)
  | list (head : List Char) (items : List NestedList)

namespace NestedList

mutual

/-- The text of a nested list. -/
def text : NestedList → List Char
  | word w => w
  | list head items => '(' :: (head ++ itemsText items)

/-- The text of a list behind its head. -/
def itemsText : List NestedList → List Char
  | [] => [')']
  | x :: xs => ' ' :: (text x ++ itemsText xs)

end

/-- The characters that end a word. -/
def EndsWord (c : Char) : Prop := c = ' ' ∨ c = '(' ∨ c = ')'

/-- In no word is there a character that would end it. -/
inductive Legible : NestedList → Prop
  | word {w : List Char} : (∀ c ∈ w, ¬EndsWord c) → Legible (.word w)
  | list {head : List Char} {items : List NestedList} : (∀ c ∈ head, ¬EndsWord c) →
      (∀ x ∈ items, Legible x) → Legible (.list head items)

/-- What stands behind an item of a list: nothing, a blank or the end of the list. -/
def IsBehind (cs : List Char) : Prop := ∀ c ∈ cs.head?, c = ' ' ∨ c = ')'

/-- The nested list is told by its text, whatever stands behind it. -/
def Told (x : NestedList) : Prop :=
  ∀ y cs cs', y.Legible → IsBehind cs → IsBehind cs' → x.text ++ cs = y.text ++ cs' →
    x = y ∧ cs = cs'

variable {c : Char} {w w' cs cs' : List Char} {x y : NestedList} {xs ys : List NestedList}

theorem IsBehind.endsWord (h : IsBehind (c :: cs)) : EndsWord c := (h c rfl).imp_right .inr

theorem isBehind_itemsText (xs : List NestedList) (cs : List Char) :
    IsBehind (itemsText xs ++ cs) := by
  cases xs <;> simp [itemsText, IsBehind]

/-- A word ends where it ends. -/
theorem eq_of_word_append (hw : ∀ c ∈ w, ¬EndsWord c) (hw' : ∀ c ∈ w', ¬EndsWord c)
    (hcs : IsBehind cs) (hcs' : IsBehind cs') (h : w ++ cs = w' ++ cs') : w = w' ∧ cs = cs' := by
  induction w generalizing w' with
  | nil =>
    cases w' with
    | nil => exact ⟨rfl, h⟩
    | cons c w' =>
      rw [List.nil_append, List.cons_append] at h
      subst h
      exact absurd hcs.endsWord (hw' c List.mem_cons_self)
  | cons c w ih =>
    obtain ⟨hc, hw⟩ := List.forall_mem_cons.1 hw
    cases w' with
    | nil =>
      rw [List.nil_append, List.cons_append] at h
      subst h
      exact absurd hcs'.endsWord hc
    | cons c' w' =>
      rw [List.cons_append, List.cons_append] at h
      obtain ⟨rfl, htail⟩ := List.cons.inj h
      obtain ⟨rfl, hrest⟩ := ih hw (List.forall_mem_cons.1 hw').2 htail
      exact ⟨rfl, hrest⟩

/-- A word does not begin like a list. -/
theorem word_append_ne (hw : ∀ c ∈ w, ¬EndsWord c) (hcs : IsBehind cs) : w ++ cs ≠ '(' :: cs' := by
  cases w with
  | nil =>
    rintro rfl
    rcases hcs '(' rfl with h | h <;> exact absurd h (by decide)
  | cons c w =>
    intro h
    rw [List.cons_append] at h
    obtain ⟨rfl, -⟩ := List.cons.inj h
    exact hw _ List.mem_cons_self (.inr (.inl rfl))

theorem eq_of_itemsText_append (hxs : ∀ x ∈ xs, x.Told) (hys : ∀ y ∈ ys, y.Legible)
    (h : itemsText xs ++ cs = itemsText ys ++ cs') : xs = ys ∧ cs = cs' := by
  induction xs generalizing ys with
  | nil =>
    cases ys with
    | nil => exact ⟨rfl, List.append_cancel_left h⟩
    | cons y ys => simp [itemsText] at h
  | cons x xs ih =>
    obtain ⟨hx, hxs⟩ := List.forall_mem_cons.1 hxs
    cases ys with
    | nil => simp [itemsText] at h
    | cons y ys =>
      obtain ⟨hy, hys'⟩ := List.forall_mem_cons.1 hys
      simp only [itemsText, List.cons_append, List.append_assoc] at h
      obtain ⟨rfl, htail⟩ := hx y _ _ hy (isBehind_itemsText xs cs) (isBehind_itemsText ys cs')
        (List.cons.inj h).2
      obtain ⟨rfl, hrest⟩ := ih hxs hys' htail
      exact ⟨rfl, hrest⟩

/-- A nested list is told by its text if all of its words are. -/
theorem Legible.told (hx : x.Legible) : x.Told := by
  induction hx with
  | word hw =>
    intro y cs cs' hy hcs hcs' h
    cases hy with
    | word hw' =>
      obtain ⟨rfl, hrest⟩ := eq_of_word_append hw hw' hcs hcs' h
      exact ⟨rfl, hrest⟩
    | list _ _ => exact absurd h (word_append_ne hw hcs)
  | @list head items hhead _ ih =>
    intro y cs cs' hy hcs hcs' h
    cases hy with
    | word hw' => exact absurd h.symm (word_append_ne hw' hcs')
    | @list head' items' hhead' hitems' =>
      -- Behind the head there is a blank or the end of the list, as behind any word.
      simp only [text, List.cons_append, List.append_assoc] at h
      obtain ⟨rfl, htail⟩ := eq_of_word_append hhead hhead' (isBehind_itemsText items cs)
        (isBehind_itemsText items' cs') (List.cons.inj h).2
      obtain ⟨rfl, hrest⟩ := eq_of_itemsText_append ih hitems' htail
      exact ⟨rfl, hrest⟩

/-- Nested lists are told apart by their texts. -/
theorem eq_of_text_eq (hx : x.Legible) (hy : y.Legible) (h : x.text = y.text) : x = y := by
  have hnil : IsBehind [] := nofun
  exact (hx.told y [] [] hy hnil hnil (by rw [h])).1

end NestedList

namespace Expr

/-! ## The nested list of an expression -/

mutual

/-- The nested list that is the compact form of an expression. -/
def nested : Expr → NestedList
  | name n _ => .word n.toList
  | number v _ => .word (toString v).toList
  | binary _ x l r _ => .list x.toList [nested l, nested r]
  | group e _ => .list "paren".toList [nested e]
  | call f es _ => .list "call".toList (.word f.toList :: nestedAll es)
  | sequence _ es _ => .list "seq".toList (nestedAll es)

/-- The nested lists of some expressions. -/
def nestedAll : List Expr → List NestedList
  | [] => []
  | e :: es => nested e :: nestedAll es

end

mutual

/-- The compact form is the text of a nested list. -/
theorem text_nested : ∀ e : Expr, e.nested.text = e.compact.toList
  | name _ _ | number _ _ => rfl
  | binary _ _ l r _ => by
    simp [nested, compact, listText, NestedList.text, NestedList.itemsText, text_nested l,
      text_nested r]
  | group e _ => by
    simp [nested, compact, listText, NestedList.text, NestedList.itemsText, text_nested e]
  | call _ es _ => by
    simp [nested, compact, listText, NestedList.text, NestedList.itemsText, itemsText_nestedAll es]
  | sequence _ es _ => by
    simp [nested, compact, listText, NestedList.text, itemsText_nestedAll es]

theorem itemsText_nestedAll : ∀ es : List Expr,
    NestedList.itemsText (nestedAll es) =
      (String.join ((compactAll es).map (" " ++ ·))).toList ++ [')']
  | [] => rfl
  | e :: es => by
    simp [nestedAll, compactAll, NestedList.itemsText, text_nested e, itemsText_nestedAll es]

end

/-! ## What the compact form shows -/

mutual

/-- The expression without spans and the numbers of operators, and with other separators. -/
def bare (separator : String → String) : Expr → Expr
  | name n _ => name n .zero
  | number v _ => number v .zero
  | binary _ x l r _ => binary 0 x (bare separator l) (bare separator r) .zero
  | group e _ => group (bare separator e) .zero
  | call f es _ => call f (bareAll separator es) .zero
  | sequence x es _ => sequence (separator x) (bareAll separator es) .zero

/-- The expressions without spans and the numbers of operators, and with other separators. -/
def bareAll (separator : String → String) : List Expr → List Expr
  | [] => []
  | e :: es => bare separator e :: bareAll separator es

end

/-- A name begins with a letter or an underscore, and continues with letters, digits and
    underscores. -/
def IsName (n : String) : Prop :=
  ∃ c cs, n.toList = c :: cs ∧ Lexeme.startsWord c ∧ ∀ d ∈ cs, Lexeme.continuesWord d

/-- Variables and functions have names, and operators are those of the language. -/
inductive Legible : Expr → Prop
  | name {n : String} {s : Span} : IsName n → Legible (.name n s)
  | number {v : Int} {s : Span} : Legible (.number v s)
  | binary {o : Nat} {x : String} {l r : Expr} {s : Span} {k : Kind} :
      isBinaryOperator k.id → k.spelling? = some x → Legible l → Legible r →
      Legible (.binary o x l r s)
  | group {e : Expr} {s : Span} : Legible e → Legible (.group e s)
  | call {f : String} {es : List Expr} {s : Span} : IsName f → (∀ e ∈ es, Legible e) →
      Legible (.call f es s)
  | sequence {x : String} {es : List Expr} {s : Span} : (∀ e ∈ es, Legible e) →
      Legible (.sequence x es s)

variable {n x : String} {k : Kind} {v : Int} {e e' : Expr} {es es' : List Expr}

/-! ### Words -/

theorem not_endsWord_of_continuesWord {c : Char} (h : Lexeme.continuesWord c) :
    ¬NestedList.EndsWord c := by
  rintro (rfl | rfl | rfl) <;> exact absurd h (by decide)

theorem IsName.not_endsWord (h : IsName n) : ∀ c ∈ n.toList, ¬NestedList.EndsWord c := by
  obtain ⟨c, cs, hn, hc, hcs⟩ := h
  have hc' : Lexeme.continuesWord c :=
    Lexeme.continuesWord_iff.2
      ((Lexeme.startsWord_iff.1 hc).imp_left fun h => by simp [Char.isAlphanum, h])
  rw [hn]
  exact List.forall_mem_cons.2 ⟨not_endsWord_of_continuesWord hc', fun d hd =>
    not_endsWord_of_continuesWord (hcs d hd)⟩

/-- A number is written with digits, and a minus sign at most. -/
theorem isDigit_or_minus (v : Int) : ∀ c ∈ (toString v).toList, c.isDigit ∨ c = '-' := by
  have hdigits (n : Nat) : ∀ c ∈ n.repr.toList, c.isDigit := by
    intro c hc
    rw [Nat.repr, String.toList_ofList] at hc
    exact Nat.isDigit_of_mem_toDigits (by decide) (by decide) hc
  rw [Int.toString_eq_repr, Int.repr_eq_if]
  split
  · exact fun c hc => .inl (hdigits _ c hc)
  · rw [String.toList_append]
    refine List.forall_mem_append.2 ⟨?_, fun c hc => .inl (hdigits _ c hc)⟩
    simp

theorem not_endsWord_number (v : Int) : ∀ c ∈ (toString v).toList, ¬NestedList.EndsWord c := by
  intro c hc
  rcases isDigit_or_minus v c hc with h | rfl
  · refine not_endsWord_of_continuesWord (Lexeme.continuesWord_iff.2 (.inl ?_))
    rw [Char.isAlphanum, h, Bool.or_true]
  · unfold NestedList.EndsWord
    decide

theorem not_endsWord_operator (hop : isBinaryOperator k.id) (hx : k.spelling? = some x) :
    ∀ c ∈ x.toList, ¬NestedList.EndsWord c := by
  unfold NestedList.EndsWord
  cases k <;> cases hx <;> simp [isBinaryOperator, Kind.id] at hop ⊢

/-- No name is a number. -/
theorem IsName.ne_number (h : IsName n) (v : Int) : n.toList ≠ (toString v).toList := by
  obtain ⟨c, cs, hn, hc, -⟩ := h
  intro heq
  have hmem : c ∈ (toString v).toList := by
    rw [← heq, hn]
    exact List.mem_cons_self
  rcases isDigit_or_minus v c hmem with hdigit | rfl
  · exact Lexeme.not_startsWord_of_isDigit hdigit hc
  · exact absurd hc (by decide)

/-- No operator is written like one of the words that lists begin with. -/
theorem operator_ne (hop : isBinaryOperator k.id) (hx : k.spelling? = some x) :
    x ≠ "paren" ∧ x ≠ "call" ∧ x ≠ "seq" := by
  cases k <;> cases hx <;> simp [isBinaryOperator, Kind.id] at hop ⊢

/-! ### Expressions -/

theorem legible_nestedAll (h : ∀ e ∈ es, e.nested.Legible) : ∀ x ∈ nestedAll es, x.Legible := by
  induction es with
  | nil => exact nofun
  | cons e es ih =>
    obtain ⟨he, hes⟩ := List.forall_mem_cons.1 h
    exact List.forall_mem_cons.2 ⟨he, ih hes⟩

/-- A legible expression has a legible nested list. -/
theorem legible_nested (h : e.Legible) : e.nested.Legible := by
  induction h with
  | name hn => exact .word hn.not_endsWord
  | number => exact .word (not_endsWord_number _)
  | binary hop hx _ _ ihl ihr =>
    exact .list (not_endsWord_operator hop hx)
      (List.forall_mem_cons.2 ⟨ihl, List.forall_mem_singleton.2 ihr⟩)
  | group _ ih =>
    exact .list (by simp [NestedList.EndsWord]) (List.forall_mem_singleton.2 ih)
  | call hf _ ih =>
    exact .list (by simp [NestedList.EndsWord])
      (List.forall_mem_cons.2 ⟨.word hf.not_endsWord, legible_nestedAll ih⟩)
  | sequence _ ih => exact .list (by simp [NestedList.EndsWord]) (legible_nestedAll ih)

theorem bareAll_eq_of_nestedAll_eq {separator : String → String}
    (hes : ∀ e ∈ es, ∀ e' : Expr, e'.Legible → e.nested = e'.nested →
      e.bare separator = e'.bare separator)
    (hes' : ∀ e ∈ es', e.Legible) (h : nestedAll es = nestedAll es') :
    bareAll separator es = bareAll separator es' := by
  induction es generalizing es' with
  | nil =>
    cases es' with
    | nil => rfl
    | cons e' es' => exact nomatch h
  | cons e es ih =>
    cases es' with
    | nil => exact nomatch h
    | cons e' es' =>
      obtain ⟨he, hes⟩ := List.forall_mem_cons.1 hes
      obtain ⟨he', hes'⟩ := List.forall_mem_cons.1 hes'
      obtain ⟨hhead, htail⟩ := List.cons.inj h
      rw [bareAll, bareAll, he e' he' hhead, ih hes hes' htail]

/-- Expressions with the same nested list are equal but for what it does not show. -/
theorem Legible.bare_eq (h : e.Legible) (h' : e'.Legible) (heq : e.nested = e'.nested) :
    e.bare (fun _ => "") = e'.bare fun _ => "" := by
  induction h generalizing e' with
  | name hn =>
    cases h' with
    | name _ => rw [bare, bare, String.toList_inj.1 (NestedList.word.inj heq)]
    | number => exact absurd (NestedList.word.inj heq) (hn.ne_number _)
    | binary | group | call | sequence => cases heq
  | number =>
    cases h' with
    | name hn => exact absurd (NestedList.word.inj heq).symm (hn.ne_number _)
    | number =>
      have hv := String.toList_inj.1 (NestedList.word.inj heq)
      rw [Int.toString_eq_repr, Int.toString_eq_repr, Int.repr_inj] at hv
      rw [bare, bare, hv]
    | binary | group | call | sequence => cases heq
  | binary hop hx _ _ ihl ihr =>
    -- The other lists begin with words that are no operators.
    obtain ⟨hparen, hcall, hseq⟩ := operator_ne hop hx
    cases h' with
    | name | number => cases heq
    | binary _ _ hl hr =>
      obtain ⟨hlexeme, hitems⟩ := NestedList.list.inj heq
      obtain ⟨hleft, hitems⟩ := List.cons.inj hitems
      obtain ⟨hright, -⟩ := List.cons.inj hitems
      rw [bare, bare, String.toList_inj.1 hlexeme, ihl hl hleft, ihr hr hright]
    | group => exact absurd (String.toList_inj.1 (NestedList.list.inj heq).1) hparen
    | call => exact absurd (String.toList_inj.1 (NestedList.list.inj heq).1) hcall
    | sequence => exact absurd (String.toList_inj.1 (NestedList.list.inj heq).1) hseq
  | group _ ih =>
    cases h' with
    | name | number => cases heq
    | binary hop hx =>
      exact absurd (String.toList_inj.1 (NestedList.list.inj heq).1.symm) (operator_ne hop hx).1
    | group he =>
      rw [bare, bare, ih he (List.cons.inj (NestedList.list.inj heq).2).1]
    | call | sequence => simp [nested] at heq
  | call hf _ ih =>
    cases h' with
    | name | number => cases heq
    | binary hop hx =>
      exact absurd (String.toList_inj.1 (NestedList.list.inj heq).1.symm) (operator_ne hop hx).2.1
    | call _ hes =>
      obtain ⟨hcallee, hitems⟩ := List.cons.inj (NestedList.list.inj heq).2
      rw [bare, bare, String.toList_inj.1 (NestedList.word.inj hcallee),
        bareAll_eq_of_nestedAll_eq (fun e he e' => ih e he) hes hitems]
    | group | sequence => simp [nested] at heq
  | sequence _ ih =>
    cases h' with
    | name | number => cases heq
    | binary hop hx =>
      exact absurd (String.toList_inj.1 (NestedList.list.inj heq).1.symm) (operator_ne hop hx).2.2
    | sequence hes =>
      rw [bare, bare, bareAll_eq_of_nestedAll_eq (fun e he e' => ih e he) hes
        (NestedList.list.inj heq).2]
    | group | call => simp [nested] at heq

mutual

/-- What is left out of the bare expression is not in the compact form. -/
theorem compact_bare (separator : String → String) :
    ∀ e : Expr, (e.bare separator).compact = e.compact
  | name _ _ | number _ _ => rfl
  | binary _ _ l r _ => by
    rw [bare, compact, compact, compact_bare separator l, compact_bare separator r]
  | group e _ => by rw [bare, compact, compact, compact_bare separator e]
  | call _ es _ => by rw [bare, compact, compact, compactAll_bareAll separator es]
  | sequence _ es _ => by rw [bare, compact, compact, compactAll_bareAll separator es]

theorem compactAll_bareAll (separator : String → String) :
    ∀ es : List Expr, compactAll (bareAll separator es) = compactAll es
  | [] => rfl
  | e :: es => by
    rw [bareAll, compactAll, compactAll, compact_bare separator e, compactAll_bareAll separator es]

end

/-- Two expressions have the same compact form exactly if they are equal up to spans, the numbers
    of operators and the separators of sequences. -/
theorem compact_eq_iff (e e' : Expr) (h : e.Legible) (h' : e'.Legible) :
    e.compact = e'.compact ↔ e.bare (fun _ => "") = e'.bare fun _ => "" := by
  constructor
  · intro hcompact
    have htext : e.nested.text = e'.nested.text := by rw [text_nested, text_nested, hcompact]
    exact h.bare_eq h' (NestedList.eq_of_text_eq (legible_nested h) (legible_nested h') htext)
  · intro hbare
    rw [← compact_bare (fun _ => "") e, hbare, compact_bare]

/-- A variable may be named like the word that groups begin with, and a negative number be a right
    operand of `-`. -/
theorem compact_eq_iff_paren :
    let x : Expr := .name "x" .zero
    let difference (o : Nat) (separator : String) : Expr :=
      .sequence separator [.binary o "-" x (.number (-1) .zero) .zero] .zero
    let group : Expr := .call "call" [.group x .zero] .zero
    let names : Expr := .call "call" [.name "paren" .zero, x] .zero
    (difference 8 ";").compact = "(seq (- x -1))" ∧
      (difference 8 ";").bare (fun _ => "") = (difference 6 ",").bare (fun _ => "") ∧
      group.compact = "(call call (paren x))" ∧ names.compact = "(call call paren x)" ∧
      group.bare (fun _ => "") ≠ names.bare fun _ => "" := by
  intro x difference group names
  have hx : x.Legible := .name ⟨'x', [], by simp, by decide, nofun⟩
  have hparen : (Expr.name "paren" .zero).Legible := by
    refine .name ⟨'p', ['a', 'r', 'e', 'n'], by simp, by decide, ?_⟩
    simp only [List.mem_cons, List.not_mem_nil, or_false]
    rintro d (rfl | rfl | rfl | rfl) <;> decide
  have hcall : IsName "call" := by
    refine ⟨'c', ['a', 'l', 'l'], by simp, by decide, ?_⟩
    simp only [List.mem_cons, List.not_mem_nil, or_false]
    rintro d (rfl | rfl | rfl) <;> decide
  have hdifference (o : Nat) (separator : String) : (difference o separator).Legible :=
    .sequence (List.forall_mem_singleton.2 (.binary (k := .sub) rfl rfl hx .number))
  have hgroup : group.Legible := .call hcall (List.forall_mem_singleton.2 (.group hx))
  have hnames : names.Legible :=
    .call hcall (List.forall_mem_cons.2 ⟨hparen, List.forall_mem_singleton.2 hx⟩)
  have hgroupText : group.compact = "(call call (paren x))" := by cbv
  have hnamesText : names.compact = "(call call paren x)" := by cbv
  refine ⟨by cbv, ?_, hgroupText, hnamesText, fun hbare => ?_⟩
  · exact (compact_eq_iff _ _ (hdifference 8 ";") (hdifference 6 ",")).1 (by cbv)
  · have hsame := (compact_eq_iff group names hgroup hnames).2 hbare
    rw [hgroupText, hnamesText] at hsame
    exact absurd hsame (by decide)

end Expr

end Frontend
