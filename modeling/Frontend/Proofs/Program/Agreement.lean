import Frontend.Proofs.Expression.Precedence
import Frontend.Proofs.Program.Building
import Frontend.Proofs.Token.Decomposition

/-!
# Two ways to a tree

A statement of a program is found by the rules of a grammar, and an expression by splitting it at
its operators. Where both apply they build the same tree, although not with the same spans: a
call in a program does not cover its `)`.

What both of them make of some tokens has been said without any search (`Reads`, `Built`), and so
the two relations are compared. A list of parameters comes about from the same tokens in either
way, if assignment groups to the right in the table of operators (`Reads.exists_built`) and every
operator in it assigns to a variable (`Built.exists_reads`). The result for the parsers themselves
is `parsers_agree`.
-/

namespace Frontend

/-! ## What programs hold -/

namespace Expr

/-- An expression that a program may hold: there is no group in it, and every operator assigns to
    a variable. -/
def OnlyAssigns (e : Expr) : Prop :=
  ∀ d : Expr, d.Within e → (∀ inner s, d ≠ .group inner s) ∧
    ∀ o x l r s, d = .binary o x l r s → o = Kind.assign.id ∧ ∃ n s', l = .name n s'

variable {e l r : Expr} {es : List Expr} {n f x : String} {o : Nat} {s : Span}

theorem onlyAssigns_name : (name n s).OnlyAssigns := by
  intro d hd
  cases hd with
  | refl => simp

theorem not_onlyAssigns_group : ¬(group e s).OnlyAssigns := fun h => (h _ .refl).1 e s rfl

theorem onlyAssigns_binary_iff :
    (binary o x l r s).OnlyAssigns ↔
      o = Kind.assign.id ∧ (∃ n s', l = .name n s') ∧ r.OnlyAssigns := by
  constructor
  · intro h
    obtain ⟨ho, hl⟩ := (h _ .refl).2 _ _ _ _ _ rfl
    exact ⟨ho, hl, fun d hd => h d (.right hd)⟩
  · rintro ⟨rfl, ⟨n, s', rfl⟩, hr⟩ d hd
    cases hd with
    | refl =>
      refine ⟨by simp, ?_⟩
      rintro _ _ _ _ _ ⟨⟩
      exact ⟨rfl, n, s', rfl⟩
    | left hd => exact onlyAssigns_name d hd
    | right hd => exact hr d hd

theorem onlyAssigns_call_iff : (call f es s).OnlyAssigns ↔ ∀ e ∈ es, e.OnlyAssigns := by
  constructor
  · exact fun h e he d hd => h d (.argument he hd)
  · intro h d hd
    cases hd with
    | refl => simp
    | argument he hd => exact h _ he d hd

end Expr

open Expression Program

variable {table : OperatorTable} {p : Int} {part : Part} {e : Expr} {es : List Expr}
  {ts us : List Token}

/-! ## From programs to expressions -/

namespace Program

/-- What an assignment assigns may be another assignment, but nothing with another operator. -/
theorem Reads.eq_assign (h : Reads .expression ts [e]) : ∀ o ∈ e.operator?, o = Kind.assign.id := by
  cases h with
  | assign _ _ _ =>
    rintro _ ⟨⟩
    rfl
  | rvalue h =>
    cases h with
    | call _ _ _ _ => exact nofun
    | emptyCall _ _ _ => exact nofun
    | lvalue h =>
      cases h with
      | name _ => exact nofun
    | number _ _ => exact nofun

/-- A list of one parameter is an expression. -/
theorem Reads.expression (h : Reads .parameters ts [e]) : Reads .expression ts [e] := by
  cases h with
  | argument h => exact h
  | arguments _ _ h => exact absurd rfl h.parameters_ne_nil

/-- An assignment to a variable is split at its `=`: whatever is assigned on the right of it groups
    to the right, too. -/
theorem splitPoint_assign {x t : Token} {r : Expr}
    (htable : table.get? Kind.assign.id = some ⟨p, .right⟩) (hx : x.is .identifier)
    (ht : t.is .assign) (hr : Built table [r] us) (hroot : ∀ o ∈ r.operator?, o = Kind.assign.id) :
    table.splitPoint ([x] ++ t :: us) = .ok (some [x].length) := by
  have hid := Token.is_iff.1 ht
  have hoperator : isBinaryOperator t.id := hid ▸ rfl
  have hbinding : table.get? t.id = some ⟨p, .right⟩ := hid ▸ htable
  have hname : Spells [.name x.lexeme x.span] [x] := .name hx
  have hright : FitsRight table p r := by
    intro o ho
    obtain rfl := hroot o ho
    exact ⟨_, htable, .inr ⟨rfl, rfl⟩⟩
  exact splitPoint_binary hoperator hbinding .name nofun
    (hr.canonical r (List.mem_singleton_self r)) hright hname hr.spells

/-- What is read as a part of a statement is built from the same tokens. -/
theorem Reads.exists_built (htable : table.get? Kind.assign.id = some ⟨p, .right⟩)
    (h : Reads part ts es) (hpart : part ∉ [.topLevel, .compound])
    (hlexeme : ∀ t ∈ ts, t.is .assign → t.lexeme = "=") :
    ∃ es', Built table es' ts ∧ es'.map Expr.unspanned = es.map Expr.unspanned := by
  induction h with
  | topLevel _ _ => exact absurd hpart (by decide)
  | last _ _ _ => exact absurd hpart (by decide)
  | more _ _ _ _ _ => exact absurd hpart (by decide)
  | @assign ts us l r t hl ht hr _ ihr =>
    obtain ⟨htl, htt, htr⟩ : _ ∧ _ ∧ _ := by
      simpa only [List.forall_mem_append, List.forall_mem_cons] using hlexeme
    obtain ⟨_, hbuilt, hsame⟩ := ihr (by decide) htr
    obtain ⟨r', rfl, hr'⟩ := List.map_eq_singleton_iff.1 hsame
    cases hl with
    | @name x hx =>
      have hroot : ∀ o ∈ r'.operator?, o = Kind.assign.id := by
        rw [← Expr.operator?_unspanned, hr', Expr.operator?_unspanned]
        exact hr.eq_assign
      refine ⟨_, .binary (splitPoint_assign htable hx ht hbuilt hroot) (.name hx) hbuilt, ?_⟩
      simp [Expr.unspanned, hr', Token.is_iff.1 ht, htt ht]
  | rvalue _ ih => exact ih (by decide) hlexeme
  | @call f o c ts args hf ho _ hc ih =>
    obtain ⟨es', hbuilt, hsame⟩ := ih (by decide) fun t ht => hlexeme t (by simp [ht])
    refine ⟨_, .call hf ho hbuilt hc, ?_⟩
    simp [Expr.unspanned, Expr.unspannedAll_eq_map, hsame]
  | emptyCall hf ho hc => exact ⟨_, .emptyCall hf ho hc, rfl⟩
  | lvalue _ ih => exact ih (by decide) hlexeme
  | number ht hv => exact ⟨_, .number ht hv, rfl⟩
  | name ht => exact ⟨_, .name ht, rfl⟩
  | argument _ ih => exact ih (by decide) hlexeme
  | arguments _ ht _ ih ihes =>
    obtain ⟨htl, -, htr⟩ : _ ∧ _ ∧ _ := by
      simpa only [List.forall_mem_append, List.forall_mem_cons] using hlexeme
    obtain ⟨_, hbuilt, hsame⟩ := ih (by decide) htl
    obtain ⟨e', rfl, he'⟩ := List.map_eq_singleton_iff.1 hsame
    obtain ⟨es', hbuilts, hsames⟩ := ihes (by decide) htr
    refine ⟨_, .comma hbuilt ht hbuilts, ?_⟩
    rw [List.map_cons, List.map_cons, he', hsames]

end Program

/-! ## From expressions to programs -/

namespace Expression

/-- What is built is read from the same tokens, unless there is something in it that programs
    lack. -/
theorem Built.exists_reads (h : Built table es ts) (hes : ∀ e ∈ es, e.OnlyAssigns)
    (hlexeme : ∀ t ∈ ts, t.is .assign → t.lexeme = "=") :
    ∃ es', Reads .parameters ts es' ∧ es'.map Expr.unspanned = es.map Expr.unspanned := by
  induction h with
  | name ht => exact ⟨_, .argument (.rvalue (.lvalue (.name ht))), rfl⟩
  | number ht hv => exact ⟨_, .argument (.rvalue (.number ht hv)), rfl⟩
  | @binary l r t ts us _ hl _ _ ihr =>
    obtain ⟨hid, ⟨n, s, rfl⟩, hr⟩ :=
      Expr.onlyAssigns_binary_iff.1 (List.forall_mem_singleton.1 hes)
    obtain ⟨-, htt, htr⟩ : _ ∧ _ ∧ _ := by
      simpa only [List.forall_mem_append, List.forall_mem_cons] using hlexeme
    obtain ⟨_, hread, hsame⟩ := ihr (List.forall_mem_singleton.2 hr) htr
    obtain ⟨r', rfl, hr'⟩ := List.map_eq_singleton_iff.1 hsame
    have ht := Token.is_iff.2 hid
    cases hl with
    | name hx =>
      refine ⟨_, .argument (.assign (.name hx) ht hread.expression), ?_⟩
      simp [Expr.unspanned, hr', hid, htt ht]
    | comma _ _ hnil => exact absurd rfl hnil.exprs_ne_nil
  | group _ _ _ _ =>
    exact absurd (List.forall_mem_singleton.1 hes) Expr.not_onlyAssigns_group
  | emptyCall hf ho hc => exact ⟨_, .argument (.rvalue (.emptyCall hf ho hc)), rfl⟩
  | call hf ho _ hc ih =>
    have hargs := Expr.onlyAssigns_call_iff.1 (List.forall_mem_singleton.1 hes)
    obtain ⟨es', hread, hsame⟩ := ih hargs fun t ht => hlexeme t (by simp [ht])
    refine ⟨_, .argument (.rvalue (.call hf ho hread hc)), ?_⟩
    simp [Expr.unspanned, Expr.unspannedAll_eq_map, hsame]
  | comma _ ht _ ih ihes =>
    obtain ⟨he, hes⟩ := List.forall_mem_cons.1 hes
    obtain ⟨htl, -, htr⟩ : _ ∧ _ ∧ _ := by
      simpa only [List.forall_mem_append, List.forall_mem_cons] using hlexeme
    obtain ⟨_, hread, hsame⟩ := ih (List.forall_mem_singleton.2 he) htl
    obtain ⟨e', rfl, he'⟩ := List.map_eq_singleton_iff.1 hsame
    obtain ⟨es', hreads, hsames⟩ := ihes hes htr
    refine ⟨_, .arguments hread.expression ht hreads, ?_⟩
    rw [List.map_cons, List.map_cons, he', hsames]

/-- An expression is spelled without `;`. -/
theorem Spells.not_separator (h : Spells es ts) : ∀ t ∈ ts, ¬t.is .separator := by
  have hother {t : Token} {k : Kind} (ht : t.is k) (hk : k ≠ .separator) : ¬t.is .separator :=
    Token.not_is ht hk
  induction h with
  | name ht => exact List.forall_mem_singleton.2 (hother ht (by decide))
  | number ht _ => exact List.forall_mem_singleton.2 (hother ht (by decide))
  | binary _ ht _ ihl ihr =>
    refine List.forall_mem_append.2 ⟨ihl, List.forall_mem_cons.2 ⟨?_, ihr⟩⟩
    exact not_is_of_isBinaryOperator ht (by decide)
  | group ho _ hc ih =>
    refine List.forall_mem_cons.2 ⟨hother ho (by decide), List.forall_mem_append.2 ⟨ih, ?_⟩⟩
    exact List.forall_mem_singleton.2 (hother hc (by decide))
  | emptyCall hf ho hc =>
    simp [hother hf (by decide), hother ho (by decide), hother hc (by decide)]
  | call hf ho _ hc ih =>
    refine List.forall_mem_cons.2 ⟨hother hf (by decide), List.forall_mem_cons.2
      ⟨hother ho (by decide), List.forall_mem_append.2 ⟨ih, ?_⟩⟩⟩
    exact List.forall_mem_singleton.2 (hother hc (by decide))
  | comma _ ht _ ih ihes =>
    exact List.forall_mem_append.2 ⟨ih, List.forall_mem_cons.2 ⟨hother ht (by decide), ihes⟩⟩

end Expression

/-! ## Whole programs -/

namespace Program

/-- A statement is built from its tokens, and there is no `;` among them. -/
theorem Reads.exists_build (htable : table.get? Kind.assign.id = some ⟨p, .right⟩)
    (h : Reads .expression ts [e]) (hlexeme : ∀ t ∈ ts, t.is .assign → t.lexeme = "=") :
    (∀ t ∈ ts, t.is .separator = false) ∧
      ∃ e', build table ts = .ok e' ∧ e'.unspanned = e.unspanned := by
  obtain ⟨_, hbuilt, hsame⟩ := h.exists_built htable (by decide) hlexeme
  obtain ⟨e', rfl, he'⟩ := List.map_eq_singleton_iff.1 hsame
  refine ⟨fun t ht => ?_, e', build_eq_ok_iff.2 hbuilt, he'⟩
  exact Bool.eq_false_iff.2 (hbuilt.spells.not_separator t ht)

/-- The statements of a program are built from the runs of tokens between its `;`. -/
theorem Reads.exists_runs (htable : table.get? Kind.assign.id = some ⟨p, .right⟩)
    (h : Reads .compound ts es) (hlexeme : ∀ t ∈ ts, t.is .assign → t.lexeme = "=") :
    ∃ runs, ts.splitOnP (·.is .separator) = runs ++ [[]] ∧
      List.Forall₂ (fun run e => ∃ e', build table run = .ok e' ∧ e'.unspanned = e.unspanned)
        runs es := by
  generalize hpart : Part.compound = part at h
  induction h with
  | last h ht _ =>
    obtain ⟨hnot, hbuild⟩ := h.exists_build htable (List.forall_mem_append.1 hlexeme).1
    refine ⟨[_], ?_, .cons hbuild .nil⟩
    rw [List.splitOnP_append_cons_of_forall_mem hnot _ ht, List.splitOnP_nil]
    rfl
  | more h ht _ _ ih =>
    obtain ⟨htl, htr⟩ := List.forall_mem_append.1 hlexeme
    obtain ⟨hnot, hbuild⟩ := h.exists_build htable htl
    obtain ⟨runs, hruns, hbuilds⟩ := ih (List.forall_mem_cons.1 htr).2 hpart
    refine ⟨_ :: runs, ?_, .cons hbuild hbuilds⟩
    rw [List.splitOnP_append_cons_of_forall_mem hnot _ ht, hruns]
    rfl
  | _ => exact nomatch hpart

/-- Some tokens that read as a whole program are parsed into this reading. -/
theorem Reads.parse_eq (h : Reads .topLevel ts [e]) (hrange : ∀ t ∈ ts, ¬t.isOutOfRange)
    (o : Origin) : grammar.parse o ts .empty = .ok ⟨[e], []⟩ := by
  obtain ⟨t, us, rfl, -⟩ := h.head
  rcases parse_cases o (List.cons_ne_nil t us) hrange with ⟨e', he', hparse⟩ | ⟨d, hmem, -⟩
  · rw [hparse, List.singleton_inj.1 (he'.unique h)]
  · exact absurd h.mem_sentences hmem

/-- What is built of a part of a text is read as a program when it is ended by `;`. -/
theorem exists_statement {o : Origin} {tokens : List Token} (htokens : tokenize o = .ok tokens)
    (hts : ts <:+: tokens) (he : e.OnlyAssigns) (hbuild : build table ts = .ok e) {t : Token}
    (ht : t.is .separator) :
    ∃ e', e'.unspanned = e.unspanned ∧
      Reads .topLevel (ts ++ [t]) [.sequence ";" [e'] e'.span] ∧
      ∀ t' ∈ ts ++ [t], ¬t'.isOutOfRange := by
  have hlexeme : ∀ t ∈ ts, t.is .assign → t.lexeme = "=" := fun t hmem hassign =>
    lexeme_of_tokenize htokens (hts.subset hmem) hassign rfl
  obtain ⟨_, hread, hsame⟩ := (build_eq_ok_iff.1 hbuild).exists_reads
    (List.forall_mem_singleton.2 he) hlexeme
  obtain ⟨e', rfl, he'⟩ := List.map_eq_singleton_iff.1 hsame
  refine ⟨e', he', .topLevel (.last hread.expression ht), List.forall_mem_append.2 ⟨?_, ?_⟩⟩
  · exact fun t hmem => not_isOutOfRange_of_tokenize htokens t (hts.subset hmem)
  · have hnot := Token.not_is ht (by decide : Kind.separator ≠ .number)
    simp [Token.isOutOfRange, hnot]

end Program

/-- If assignment groups to the right in the table, every statement of a program is built from
    its own tokens, those between one `;` and the next, into the tree that it has in the program,
    spans apart. Conversely, what is built from some of the tokens of a text is a whole program
    when it is ended by `;`, unless there is a group in it or an operator that does not assign to
    a variable. -/
theorem parsers_agree (table : OperatorTable) (p : Int)
    (htable : table.get? Kind.assign.id = some ⟨p, .right⟩) :
    (∀ source program, parseProgram source = .ok program →
      ∃ tokens runs es, tokenize ⟨source, "lex"⟩ = .ok tokens ∧
        tokens.splitOnP (·.is .separator) = runs ++ [[]] ∧
        program = .sequence ";" es (Expr.spanAll es) ∧
        List.Forall₂ (fun run e => ∃ e', build table run = .ok e' ∧ e'.unspanned = e.unspanned)
          runs es) ∧
    ∀ o tokens ts e, tokenize o = .ok tokens → ts <:+: tokens → build table ts = .ok e →
      e.OnlyAssigns → ∀ t : Token, t.is .separator →
        ∃ e', e'.unspanned = e.unspanned ∧
          (∀ o', grammar.parse o' (ts ++ [t]) .empty = .ok ⟨[.sequence ";" [e'] e'.span], []⟩) ∧
          ∀ source, tokenize ⟨source, "lex"⟩ = .ok (ts ++ [t]) →
            parseProgram source = .ok (.sequence ";" [e'] e'.span) := by
  constructor
  · intro source program hparse
    rcases parseProgram_cases source with ⟨d, _, h⟩ | ⟨htokens, h⟩ |
      ⟨tokens, htokens, _, ⟨e, he, h⟩ | ⟨d, _, h⟩⟩
    · exact nomatch h.symm.trans hparse
    · obtain rfl := Except.ok.inj (h.symm.trans hparse)
      exact ⟨[], [], [], htokens, rfl, rfl, .nil⟩
    · obtain rfl := Except.ok.inj (h.symm.trans hparse)
      cases he with
      | topLevel hes =>
        obtain ⟨runs, hruns, hbuilds⟩ := hes.exists_runs htable fun t hmem hassign =>
          lexeme_of_tokenize htokens hmem hassign rfl
        exact ⟨tokens, runs, _, htokens, hruns, rfl, hbuilds⟩
    · exact nomatch h.symm.trans hparse
  · intro o tokens ts e htokens hts hbuild he t ht
    obtain ⟨e', he', hread, hrange⟩ := exists_statement htokens hts he hbuild ht
    refine ⟨e', he', hread.parse_eq hrange, fun source hsource => ?_⟩
    have hne : ts ++ [t] ≠ [] := List.append_ne_nil_of_right_ne_nil ts (List.cons_ne_nil t [])
    rcases parseProgram_cases source with ⟨d, h, _⟩ | ⟨h, _⟩ |
      ⟨tokens', h, _, ⟨e'', hread', hparse⟩ | ⟨d, hmem, _⟩⟩
    · exact nomatch h.symm.trans hsource
    · exact absurd (Except.ok.inj (hsource.symm.trans h)) hne
    · obtain rfl := Except.ok.inj (h.symm.trans hsource)
      rw [hparse, List.singleton_inj.1 (hread'.unique hread)]
    · obtain rfl := Except.ok.inj (h.symm.trans hsource)
      exact absurd hread.mem_sentences hmem

/-- In `f(a=b);`, the argument of the call is an assignment. -/
theorem parsers_agree_call :
    let source : Source := ⟨"p", "f(a=b);"⟩
    let token (k : Kind) (lexeme : String) (i : Nat) : Token :=
      ⟨k.id, lexeme, ⟨i, i + 1⟩, ⟨1, i + 1, i + 1⟩⟩
    let ts := [token .identifier "f" 0, token .openParen "(" 1, token .identifier "a" 2,
      token .assign "=" 3, token .identifier "b" 4, token .closeParen ")" 5]
    let tree : Expr := .call "f"
      [.binary Kind.assign.id "=" (.name "a" ⟨2, 3⟩) (.name "b" ⟨4, 5⟩) ⟨2, 5⟩] ⟨0, 6⟩
    OperatorTable.standard.get? Kind.assign.id = some ⟨1, .right⟩ ∧
      tokenize ⟨source, "lex"⟩ = .ok (ts ++ [token .separator ";" 6]) ∧
      build .standard ts = .ok tree ∧ tree.OnlyAssigns ∧
      ∃ e, e.unspanned = tree.unspanned ∧ parseProgram source = .ok (.sequence ";" [e] e.span) ∧
        ∃ runs es, Expr.sequence ";" [e] e.span = .sequence ";" es (Expr.spanAll es) ∧
          List.Forall₂ (fun run e =>
            ∃ e', build .standard run = .ok e' ∧ e'.unspanned = e.unspanned) runs es := by
  intro source token ts tree
  have htable : OperatorTable.standard.get? Kind.assign.id = some ⟨1, .right⟩ := rfl
  have htokens : tokenize ⟨source, "lex"⟩ = .ok (ts ++ [token .separator ";" 6]) := by cbv
  have hbuild : build .standard ts = .ok tree := by cbv
  have honly : tree.OnlyAssigns :=
    Expr.onlyAssigns_call_iff.2 (List.forall_mem_singleton.2
      (Expr.onlyAssigns_binary_iff.2 ⟨rfl, ⟨"a", _, rfl⟩, Expr.onlyAssigns_name⟩))
  obtain ⟨hbuilt, hread⟩ := parsers_agree .standard 1 htable
  obtain ⟨e, he, -, hparse⟩ := hread ⟨source, "lex"⟩ _ ts tree htokens
    (List.prefix_append ts _).isInfix hbuild honly (token .separator ";" 6) rfl
  have hprogram := hparse source htokens
  obtain ⟨_, runs, es, -, -, heq, hruns⟩ := hbuilt source _ hprogram
  exact ⟨htable, htokens, hbuild, honly, e, he, hprogram, runs, es, heq, hruns⟩

end Frontend
