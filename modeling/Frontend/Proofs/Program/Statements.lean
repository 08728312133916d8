import Frontend.Proofs.Program.Building
import Frontend.Proofs.Token.Joining
import Mathlib

/-!
# Programs as lists of statements

A text is a program if its tokens are statements, of which there may be none
(`parseProgram_eq_ok_iff`). So programs can be put together: the statements of one and the
statements of another are the statements of a program. A part of a program stays what it is when
its tokens are moved, and its trees are moved with them (`Reads.move`), so the second of two
programs with a line feed between them keeps its trees, with their spans moved behind the first
one (`parseProgram_append_line`).
-/

namespace Frontend

/-! ## Moved trees -/

namespace Expr

mutual

/-- The expression with all its spans moved so many bytes further into a text. -/
def shift (offset : Nat) : Expr → Expr
  | name n s => name n (s.shift offset)
  | number v s => number v (s.shift offset)
  | binary o x l r s => binary o x (shift offset l) (shift offset r) (s.shift offset)
  | group e s => group (shift offset e) (s.shift offset)
  | call f es s => call f (shiftAll offset es) (s.shift offset)
  | sequence x es s => sequence x (shiftAll offset es) (s.shift offset)

/-- The expressions with all their spans moved. -/
def shiftAll (offset : Nat) : List Expr → List Expr
  | [] => []
  | e :: es => shift offset e :: shiftAll offset es

end

variable {offset : Nat}

theorem shiftAll_eq_map (es : List Expr) : shiftAll offset es = es.map (shift offset) := by
  induction es with
  | nil => rfl
  | cons e es ih => rw [shiftAll, ih, List.map_cons]

theorem span_shift (e : Expr) : (e.shift offset).span = e.span.shift offset := by
  cases e <;> rfl

theorem map_span_shift (es : List Expr) :
    (es.map (shift offset)).map span = (es.map span).map (Span.shift offset) := by
  simp only [List.map_map, Function.comp_def, span_shift]

end Expr

theorem Span.shift_joinAll (offset : Nat) (s : Span) (spans : List Span) :
    (s.joinAll spans).shift offset = (s.shift offset).joinAll (spans.map (Span.shift offset)) := by
  induction spans generalizing s with
  | nil => rfl
  | cons s' spans ih => exact (ih (s.join s')).trans (by rw [Span.shift_join]; rfl)

namespace Program

variable {p : Part} {ts us : List Token} {es fs : List Expr} {offset lines : Nat}

/-- A part that is moved is the same part, and its trees are moved with it. -/
theorem Reads.move (h : Reads p ts es) (offset lines : Nat) :
    Reads p (ts.map (Token.move offset lines)) (es.map (Expr.shift offset)) := by
  induction h with
  | @topLevel ts es hes ih =>
    obtain ⟨e, es, rfl⟩ := hes.exists_cons
    have hspan : (Expr.spanAll (e :: es)).shift offset =
        Expr.spanAll ((e :: es).map (Expr.shift offset)) := by
      rw [Expr.spanAll, Span.shift_joinAll, ← Expr.map_span_shift, ← Expr.span_shift]
      rfl
    rw [List.map_singleton, Expr.shift, Expr.shiftAll_eq_map, hspan]
    exact .topLevel ih
  | last _ ht ih =>
    rw [List.map_append]
    exact .last ih ht
  | more _ ht _ ih ihes =>
    rw [List.map_append]
    exact .more ih ht ihes
  | @assign ts us l r t _ ht _ ihl ihr =>
    rw [List.map_append, List.map_singleton, Expr.shift, Span.shift_join, ← Expr.span_shift,
      ← Expr.span_shift]
    exact .assign ihl ht ihr
  | rvalue _ ih => exact .rvalue ih
  | @call f o c ts args hf ho _ hc ih =>
    have htree : Expr.shift offset
          (.call f.lexeme args (f.span.joinAll (args.map Expr.span))) =
        .call f.lexeme (args.map (Expr.shift offset)) ((f.span.shift offset).joinAll
          ((args.map (Expr.shift offset)).map Expr.span)) := by
      rw [Expr.shift, Expr.shiftAll_eq_map, Span.shift_joinAll, Expr.map_span_shift]
    rw [List.map_cons, List.map_cons, List.map_append, List.map_singleton,
      List.map_singleton, htree]
    exact .call hf ho ih hc
  | emptyCall hf ho hc => exact .emptyCall hf ho hc
  | lvalue _ ih => exact .lvalue ih
  | number ht hv => exact .number ht hv
  | name ht => exact .name ht
  | argument _ ih => exact .argument ih
  | arguments _ ht _ ih ihes =>
    rw [List.map_append]
    exact .arguments ih ht ihes

/-! ## Statements -/

/-- The tokens are the given statements one after the other, of which there may be none. -/
inductive Statements : List Token → List Expr → Prop
  | none : Statements [] []
  | some {ts : List Token} {es : List Expr} : Reads .compound ts es → Statements ts es

/-- Two compounds, one after the other, are a compound. -/
theorem Reads.append (h : Reads .compound ts es) (h' : Reads .compound us fs) :
    Reads .compound (ts ++ us) (es ++ fs) := by
  generalize hp : Part.compound = p at h
  induction h with
  | last h ht _ =>
    rw [List.append_assoc]
    exact .more h ht h'
  | more h ht _ _ ih =>
    rw [List.append_assoc]
    exact .more h ht (ih hp)
  | _ => exact nomatch hp

namespace Statements

theorem append (h : Statements ts es) (h' : Statements us fs) :
    Statements (ts ++ us) (es ++ fs) := by
  cases h with
  | none => exact h'
  | some h =>
    cases h' with
    | none => simpa using Statements.some h
    | some h' => exact .some (h.append h')

theorem reads (h : Statements ts es) (hne : ts ≠ []) : Reads .compound ts es := by
  cases h with
  | none => exact absurd rfl hne
  | some h => exact h

/-- Statements further on are the same statements, shifted. -/
theorem move (h : Statements ts es) (offset lines : Nat) :
    Statements (ts.map (Token.move offset lines)) (es.map (Expr.shift offset)) := by
  cases h with
  | none => exact .none
  | some h => exact .some (h.move offset lines)

end Statements

end Program

/-- A text is parsed into the sequence of its statements. -/
theorem parseProgram_eq_ok_iff {source : Source} {e : Expr} :
    parseProgram source = .ok e ↔ ∃ tokens es, readTokens source.content = .ok tokens ∧
      Program.Statements tokens es ∧ e = .sequence ";" es (Expr.spanAll es) := by
  have hread {tokens tokens' : List Token} (h : tokenize ⟨source, "lex"⟩ = .ok tokens)
      (h' : readTokens source.content = .ok tokens') : tokens' = tokens :=
    Except.ok.inj (h'.symm.trans (tokenize_eq_ok_iff.1 h))
  constructor
  · intro h
    rcases parseProgram_cases source with ⟨d, _, hparse⟩ | ⟨htokens, hparse⟩ |
      ⟨tokens, htokens, _, ⟨e', he', hparse⟩ | ⟨d, _, hparse⟩⟩
    · exact nomatch hparse.symm.trans h
    · obtain rfl := Except.ok.inj (hparse.symm.trans h)
      exact ⟨[], [], tokenize_eq_ok_iff.1 htokens, .none, rfl⟩
    · obtain rfl := Except.ok.inj (hparse.symm.trans h)
      cases he' with
      | topLevel hes => exact ⟨tokens, _, tokenize_eq_ok_iff.1 htokens, .some hes, rfl⟩
    · exact nomatch hparse.symm.trans h
  · rintro ⟨tokens, es, htokens, hes, rfl⟩
    rcases parseProgram_cases source with ⟨d, herror, _⟩ | ⟨hnone, hparse⟩ |
      ⟨tokens', hsome, hne, hcases⟩
    · exact nomatch herror.symm.trans (tokenize_eq_ok_iff.2 htokens)
    · obtain rfl := hread hnone htokens
      cases hes with
      | none => exact hparse
      | some hes =>
        obtain ⟨t, ts, hts, -⟩ := hes.head
        exact nomatch hts
    · obtain rfl := hread hsome htokens
      cases hes with
      | none => exact absurd rfl hne
      | some hes =>
        have htop := Program.Reads.topLevel hes
        rcases hcases with ⟨e', he', hparse⟩ | ⟨d, hmem, _⟩
        · rw [hparse, List.singleton_inj.1 (he'.unique htop)]
        · exact absurd htop.mem_sentences hmem

/-- Programs with a line feed between them are a program. Its statements are those of the first
    one and those of the second one, whose spans are moved behind the line feed. -/
theorem parseProgram_append_line (a b : Source) (e f : Expr) (ha : parseProgram a = .ok e)
    (hb : parseProgram b = .ok f) :
    ∃ es fs, e = .sequence ";" es (Expr.spanAll es) ∧ f = .sequence ";" fs (Expr.spanAll fs) ∧
      let gs := es ++ fs.map (Expr.shift (a.content.utf8ByteSize + 1))
      ∀ name, parseProgram ⟨name, a.content ++ "\n" ++ b.content⟩ =
        .ok (.sequence ";" gs (Expr.spanAll gs)) := by
  obtain ⟨ts, es, hts, hes, rfl⟩ := parseProgram_eq_ok_iff.1 ha
  obtain ⟨us, fs, hus, hfs, rfl⟩ := parseProgram_eq_ok_iff.1 hb
  refine ⟨es, fs, rfl, rfl, fun name => parseProgram_eq_ok_iff.2 ?_⟩
  exact ⟨_, _, readTokens_append_line hts hus, hes.append (hfs.move _ _), rfl⟩

/-- The comment at the end of the first program ends with it, and its `é` takes two bytes. -/
theorem parseProgram_append_line_comment :
    let a : Source := ⟨"a", "x; # é"⟩
    let b : Source := ⟨"b", "f(y);"⟩
    let x : Expr := .name "x" ⟨0, 1⟩
    let call (n : Nat) : Expr := .call "f" [.name "y" ⟨n + 2, n + 3⟩] ⟨n, n + 3⟩
    parseProgram a = .ok (.sequence ";" [x] ⟨0, 1⟩) ∧
      parseProgram b = .ok (.sequence ";" [call 0] ⟨0, 3⟩) ∧
      parseProgram ⟨"ab", "x; # é\nf(y);"⟩ = .ok (.sequence ";" [x, call 8] ⟨0, 11⟩) := by
  intro a b x call
  have ha : parseProgram a = .ok (.sequence ";" [x] ⟨0, 1⟩) := by cbv
  have hb : parseProgram b = .ok (.sequence ";" [call 0] ⟨0, 3⟩) := by cbv
  refine ⟨ha, hb, ?_⟩
  obtain ⟨es, fs, hes, hfs, h⟩ := parseProgram_append_line a b _ _ ha hb
  obtain rfl : [x] = es := (Expr.sequence.inj hes).2.1
  obtain rfl : [call 0] = fs := (Expr.sequence.inj hfs).2.1
  exact h "ab"

end Frontend
