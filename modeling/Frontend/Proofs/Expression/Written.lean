import Frontend.Proofs.Expression.Built
import Mathlib

/-!
# Writing back

An expression is written out as a list of `Mark`s, one for each token: its names and operators
as they stand in the tree, a number by its value, parentheses and commas by their kind
(`Expr.marks`). Written out in this way, an expression that was built gives the tokens that it
was built from, none of them lost, doubled or moved (`build_writes_back`).

The lexemes of parentheses and commas are not kept in the tree, so nothing tells how they were
spelled (`build_misspelled`). If they were spelled as usual, all lexemes come back, up to the
different spellings of a number.
-/

namespace Frontend

/-- What is to be written in the place of a token. -/
inductive Mark where
  /-- A name or an operator. -/
  | word (id : Nat) (lexeme : String)
  /-- A number of some value. -/
  | number (value : Int)
  /-- A parenthesis or a comma. -/
  | punctuation (kind : Kind)

namespace Expr

mutual

/-- The expression written out. -/
def marks : Expr → List Mark
  | name n _ => [.word Kind.identifier.id n]
  | number v _ => [.number v]
  | binary o x l r _ => marks l ++ .word o x :: marks r
  | group e _ => .punctuation .openParen :: (marks e ++ [.punctuation .closeParen])
  | call f es _ =>
    .word Kind.identifier.id f :: .punctuation .openParen ::
      (marksSeparated es ++ [.punctuation .closeParen])
  | sequence x es _ => marksEnded x es

/-- The expressions written out with commas between them. -/
def marksSeparated : List Expr → List Mark
  | [] => []
  | [e] => marks e
  | e :: e' :: es => marks e ++ .punctuation .comma :: marksSeparated (e' :: es)

/-- The expressions written out, each with a separator after it. -/
def marksEnded (x : String) : List Expr → List Mark
  | [] => []
  | e :: es => marks e ++ .word Kind.separator.id x :: marksEnded x es

end

end Expr

/-- A parenthesis or comma is spelled as usual. -/
def Token.WellSpelled (t : Token) : Prop :=
  ∀ k ∈ [Kind.openParen, .closeParen, .comma], t.is k → k.spelling? = some t.lexeme

namespace Mark

/-- The token is one for the mark, if the spelling of parentheses and commas does not matter. -/
def Fits : Mark → Token → Prop
  | word id lexeme, t => t.id = id ∧ t.lexeme = lexeme
  | number v, t => t.is .number ∧ Number.read? t.lexeme = some v
  | punctuation k, t => t.is k

/-- The token is one for the mark, with a lexeme of its kind. -/
def IsExactly : Mark → Token → Prop
  | punctuation k, t => t.is k ∧ k.spelling? = some t.lexeme
  | m, t => m.Fits t

/-- The token is one for the mark, and exactly so if it is spelled as usual. -/
def Gives (m : Mark) (t : Token) : Prop := m.Fits t ∧ (t.WellSpelled → m.IsExactly t)

theorem gives_word {t : Token} {k : Kind} (ht : t.is k) : (word k.id t.lexeme).Gives t :=
  ⟨⟨Token.is_iff.1 ht, rfl⟩, fun _ => ⟨Token.is_iff.1 ht, rfl⟩⟩

theorem gives_punctuation {t : Token} {k : Kind} (ht : t.is k)
    (hk : k ∈ [Kind.openParen, .closeParen, .comma]) : (punctuation k).Gives t :=
  ⟨ht, fun hspelled => ⟨ht, hspelled k hk ht⟩⟩

end Mark

namespace Expression

variable {table : OperatorTable} {es : List Expr} {e : Expr} {ts : List Token}

/-- The tokens that spell some expressions are written when these are written out. -/
theorem Spells.marks (h : Spells es ts) :
    List.Forall₂ Mark.Gives (Expr.marksSeparated es) ts := by
  induction h with
  | name ht => exact .cons (Mark.gives_word ht) .nil
  | number ht hv => exact .cons ⟨⟨ht, hv⟩, fun _ => ⟨ht, hv⟩⟩ .nil
  | binary _ _ _ ihl ihr =>
    exact List.rel_append ihl (.cons ⟨⟨rfl, rfl⟩, fun _ => ⟨rfl, rfl⟩⟩ ihr)
  | group ho _ hc ih =>
    refine .cons (Mark.gives_punctuation ho (by decide)) (List.rel_append ih ?_)
    exact .cons (Mark.gives_punctuation hc (by decide)) .nil
  | emptyCall hf ho hc =>
    refine .cons (Mark.gives_word hf) (.cons (Mark.gives_punctuation ho (by decide)) ?_)
    exact .cons (Mark.gives_punctuation hc (by decide)) .nil
  | call hf ho _ hc ih =>
    refine .cons (Mark.gives_word hf) (.cons (Mark.gives_punctuation ho (by decide)) ?_)
    exact List.rel_append ih (.cons (Mark.gives_punctuation hc (by decide)) .nil)
  | @comma e es t ts us _ ht hes ih ihes =>
    obtain ⟨e', es, rfl⟩ := List.exists_cons_of_ne_nil hes.exprs_ne_nil
    exact List.rel_append ih (.cons (Mark.gives_punctuation ht (by decide)) ihes)

/-- Writing out what was built gives back the tokens that it was built from: as many of them, of
    the same kinds and in the same order, with the same lexemes, or with lexemes of the same
    value in case of numbers. Only the spelling of parentheses and commas is not known, unless it
    is the usual one. -/
theorem build_writes_back (table : OperatorTable) (ts : List Token) (e : Expr)
    (h : build table ts = .ok e) :
    List.Forall₂ Mark.Fits e.marks ts ∧
      ((∀ t ∈ ts, t.WellSpelled) → List.Forall₂ Mark.IsExactly e.marks ts) := by
  have hmarks : List.Forall₂ Mark.Gives e.marks ts := (built_of_build h).spells.marks
  refine ⟨hmarks.imp fun _ _ hm => hm.1, fun hspelled => ?_⟩
  have hboth := (List.forall₂_and_left _ _).2 ⟨hspelled, hmarks.flip⟩
  exact (hboth.imp fun t m ht => ht.2.2 ht.1).flip

theorem build_writes_back_call :
    let token (k : Kind) (lexeme : String) (s : Span) : Token := ⟨k.id, lexeme, s, .nowhere⟩
    let tokens := [token .identifier "f" ⟨0, 1⟩, token .openParen "(" ⟨1, 2⟩,
      token .number "007" ⟨2, 5⟩, token .comma "," ⟨5, 6⟩, token .identifier "a" ⟨6, 7⟩,
      token .mul "*" ⟨7, 8⟩, token .identifier "b" ⟨8, 9⟩, token .closeParen ")" ⟨9, 10⟩]
    let product : Expr := .binary Kind.mul.id "*" (.name "a" ⟨6, 7⟩) (.name "b" ⟨8, 9⟩) ⟨6, 9⟩
    let e : Expr := .call "f" [.number 7 ⟨2, 5⟩, product] ⟨0, 10⟩
    build .standard tokens = .ok e ∧ List.Forall₂ Mark.Fits e.marks tokens := by
  intro token tokens product e
  have hbuild : build .standard tokens = .ok e := by cbv
  exact ⟨hbuild, (build_writes_back .standard tokens e hbuild).1⟩

/-- Another spelling of a parenthesis makes no difference to what is built, so it is not
    written back. -/
theorem build_misspelled :
    let token (k : Kind) (lexeme : String) (s : Span) : Token := ⟨k.id, lexeme, s, .nowhere⟩
    let tokens (opening : String) := [token .openParen opening ⟨0, 1⟩,
      token .identifier "a" ⟨2, 3⟩, token .closeParen ")" ⟨4, 5⟩]
    let e : Expr := .group (.name "a" ⟨2, 3⟩) ⟨0, 5⟩
    build .empty (tokens "(") = .ok e ∧ build .empty (tokens "x") = .ok e ∧
      ¬List.Forall₂ Mark.IsExactly e.marks (tokens "x") := by
  intro token tokens e
  refine ⟨rfl, rfl, fun h => ?_⟩
  cases h with
  | cons hopening _ => exact absurd hopening.2 (by decide)

end Expression

end Frontend
