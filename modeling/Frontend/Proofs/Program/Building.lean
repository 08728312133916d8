import Frontend.Proofs.Grammar.Meaning
import Frontend.Proofs.Grammar.Termination
import Frontend.Proofs.Program.Reading

/-!
# Building the tree of a program

The rules of the grammar build trees on two stacks. The invariant says, for every part, what its
derivation leaves on the stacks that were there before (`Part.Builds`): a list of arguments is
put on the stack of argument lists, every other part puts its trees on the waiting expressions,
and a whole program makes all of these its statements. Every action keeps to it
(`respects_builds`), so none of them finds the stacks other than it needs them.

The trees of a part tell by which rule it was derived (`Part.ruleOf`): an assignment is the only
expression with an operator at its root, and one statement or one argument is told from several by
their number.

`parseProgram_reads` is the result for whole programs: no precondition of the stacks is ever
broken, the search always ends, and the tree is the one that `Reads` says.
-/

namespace Frontend

/-- The tokens of a text have values in range where they are numbers. -/
theorem not_isOutOfRange_of_tokenize {o : Origin} {tokens : List Token}
    (h : tokenize o = .ok tokens) : ∀ t ∈ tokens, ¬t.isOutOfRange := by
  unfold tokenize readTokens at h
  dsimp only at h
  split at h
  · exact nomatch h
  · split at h
    · exact nomatch h
    · next hfind =>
      cases h
      exact List.find?_eq_none.1 hfind

/-- A number that is not out of range has a value. -/
theorem Token.exists_value {t : Token} (ht : t.is .number) (h : ¬t.isOutOfRange) :
    ∃ v, Number.read? t.lexeme = some v := by
  rw [Token.isOutOfRange, ht, Bool.true_and] at h
  exact Option.ne_none_iff_exists'.1 fun hnone => h (by rw [hnone]; rfl)

/-- A number that has a value is put on the waiting expressions. -/
theorem TreeStack.pushNumber_of_value {t : Token} {v : Int} (ht : t.is .number)
    (hv : Number.read? t.lexeme = some v) (s : TreeStack) :
    s.pushNumber t = .ok { s with waiting := .number v t.span :: s.waiting } := by
  rw [pushNumber, if_pos ht, hv]

namespace Program

variable {p : Part} {ts : List Token} {es : List Expr} {s s' : TreeStack}

/-! ## What a part leaves on the stacks -/

/-- The tokens are a part, and its actions make `s'` of the stacks `s`. -/
def Part.Builds (p : Part) (ts : List Token) (s s' : TreeStack) : Prop :=
  match p with
  | topLevel => ∃ es, Reads .compound ts es ∧
      s' = { s with waiting := [.sequence ";" (es ++ s.waiting) (Expr.spanAll (es ++ s.waiting))] }
  | compound => ∃ es, Reads .compound ts es ∧ s' = { s with waiting := es ++ s.waiting }
  | parameters => ∃ es, Reads .parameters ts es ∧ s' = { s with arguments := es :: s.arguments }
  | part => ∃ e, Reads part ts [e] ∧ s' = { s with waiting := e :: s.waiting }

/-- The meaning of the symbols of the grammar. A terminal stands for one token, with a value in
    range if it is a number, and does nothing. -/
def Builds : Grammar.Meaning TreeStack
  | .terminal id, ts, s, s' => s' = s ∧ ∃ t, ts = [t] ∧ t.id = id ∧ ¬t.isOutOfRange
  | .nonterminal id, ts, s, s' => ∃ p : Part, p.symbol.id = id ∧ p.Builds ts s s'

/-- Different parts have different numbers. -/
theorem Part.symbol_id_injective {p q : Part} (h : p.symbol.id = q.symbol.id) : p = q := by
  cases p <;> cases q <;> first | rfl | cases h

variable {xs : List Symbol}

/-- A part in front of other symbols acts on the stacks that these leave. -/
theorem all_symbol_iff :
    Builds.All (p.symbol :: xs) ts s s' ↔
      ∃ us vs s₁, ts = us ++ vs ∧ p.Builds us s₁ s' ∧ Builds.All xs vs s s₁ := by
  have hsymbol : ∀ us s₁, Builds p.symbol us s₁ s' ↔ p.Builds us s₁ s' := by
    intro us s₁
    rw [p.symbol_eq]
    constructor
    · rintro ⟨q, hq, h⟩
      exact Part.symbol_id_injective hq ▸ h
    · exact fun h => ⟨p, rfl, h⟩
  simp only [Grammar.Meaning.all_cons_iff, hsymbol]

theorem all_ofKind_iff {k : Kind} :
    Builds.All (.ofKind k :: xs) ts s s' ↔
      ∃ t us, ts = t :: us ∧ t.is k ∧ ¬t.isOutOfRange ∧ Builds.All xs us s s' := by
  rw [Grammar.Meaning.all_cons_iff]
  constructor
  · rintro ⟨_, us, _, rfl, ⟨rfl, t, rfl, ht, hrange⟩, h⟩
    exact ⟨t, us, rfl, Token.is_iff.2 ht, hrange, h⟩
  · rintro ⟨t, us, rfl, ht, hrange, h⟩
    exact ⟨[t], us, s', rfl, ⟨rfl, t, rfl, Token.is_iff.1 ht, hrange⟩, h⟩

theorem all_single_iff : Builds.All [p.symbol] ts s s' ↔ p.Builds ts s s' := by
  rw [all_symbol_iff]
  constructor
  · rintro ⟨us, _, _, rfl, h, hnil⟩
    obtain ⟨rfl, rfl⟩ := Grammar.Meaning.all_nil_iff.1 hnil
    rwa [List.append_nil]
  · exact fun h => ⟨ts, [], s, (List.append_nil ts).symm, h, .nil⟩

/-- Of two parts with a token between them, the second one acts first. -/
theorem all_separated_iff {q : Part} {k : Kind} :
    Builds.All [p.symbol, .ofKind k, q.symbol] ts s s' ↔
      ∃ us x vs s₁, ts = us ++ x :: vs ∧ x.is k ∧ ¬x.isOutOfRange ∧ p.Builds us s₁ s' ∧
        q.Builds vs s s₁ := by
  simp only [all_symbol_iff, all_ofKind_iff]
  constructor
  · rintro ⟨us, _, s₁, rfl, hp, x, vs, rfl, hx, hrange, hq⟩
    exact ⟨us, x, vs, s₁, rfl, hx, hrange, hp, all_single_iff.1 (all_symbol_iff.2 hq)⟩
  · rintro ⟨us, x, vs, s₁, rfl, hx, hrange, hp, hq⟩
    exact ⟨us, _, s₁, rfl, hp, x, vs, rfl, hx, hrange, all_symbol_iff.1 (all_single_iff.2 hq)⟩

/-! ## The rules -/

theorem grammar_rules : grammar.rules = rules := rfl

/-- A program has at least one statement. -/
theorem Reads.exists_cons (h : Reads .compound ts es) : ∃ e es', es = e :: es' := by
  cases h with
  | last _ _ => exact ⟨_, _, rfl⟩
  | more _ _ _ => exact ⟨_, _, rfl⟩

/-- The index of the rule by which a part with the given trees is derived. -/
def Part.ruleOf : Part → List Expr → Nat
  | topLevel, _ => 0
  | compound, [_] => 1
  | compound, _ => 2
  | expression, [.binary _ _ _ _ _] => 3
  | expression, _ => 4
  | rvalue, [.call _ [] _] => 6
  | rvalue, [.call _ _ _] => 5
  | rvalue, [.name _ _] => 7
  | rvalue, _ => 8
  | lvalue, _ => 9
  | parameters, [_] => 10
  | parameters, _ => 11

/-- An rvalue is no assignment. -/
theorem Reads.ruleOf_rvalue {e : Expr} (h : Reads .rvalue ts [e]) :
    Part.expression.ruleOf [e] = 4 := by
  cases h with
  | call | emptyCall | number => rfl
  | lvalue h =>
    cases h with
    | name => rfl

theorem Reads.ruleOf_lvalue {e : Expr} (h : Reads .lvalue ts [e]) : Part.rvalue.ruleOf [e] = 7 := by
  cases h with
  | name => rfl

theorem Reads.ruleOf_call {f : String} {s : Span} (h : Reads .parameters ts es) :
    Part.rvalue.ruleOf [.call f es s] = 5 := by
  obtain ⟨e, es, rfl⟩ := List.exists_cons_of_ne_nil h.parameters_ne_nil
  rfl

theorem Reads.ruleOf_arguments {e : Expr} (h : Reads .parameters ts es) :
    Part.parameters.ruleOf (e :: es) = 11 := by
  obtain ⟨e', es, rfl⟩ := List.exists_cons_of_ne_nil h.parameters_ne_nil
  rfl

theorem Reads.ruleOf_more {e : Expr} (h : Reads .compound ts es) :
    Part.compound.ruleOf (e :: es) = 2 := by
  obtain ⟨e', es, rfl⟩ := h.exists_cons
  rfl

/-- What the right-hand side of a rule stands for is a part with the trees of this rule. The action
    succeeds on what it leaves on the stacks, and makes of it what the part should leave there. -/
theorem builds_of_rhs : ∀ x ∈ grammar.rules.zipIdx, ∀ t ts s s₁,
    Builds.All x.1.rhs (t :: ts) s s₁ → ∃ p es s₂, x.1.lhs = p.symbol ∧
      Reads p (t :: ts) es ∧ p.ruleOf es = x.2 ∧
      x.1.action t s₁ = .ok s₂ ∧ p.Builds (t :: ts) s s₂ := by
  rw [grammar_rules]
  simp only [rules, List.zipIdx_cons, List.forall_mem_cons]
  refine ⟨?topLevel, ?last, ?more, ?assign, ?rvalue, ?call, ?emptyCall, ?lvalue, ?number, ?name,
    ?argument, ?arguments, fun x hx => absurd hx List.not_mem_nil⟩ <;> intro t ts s s₁ h
  case topLevel =>
    obtain ⟨es, hes, rfl⟩ := all_single_iff.1 h
    refine ⟨.topLevel, _, _, rfl, .topLevel hes, rfl, ?_, es, hes, rfl⟩
    -- The action fails without a waiting expression, but a statement waits.
    obtain ⟨e, es, rfl⟩ := hes.exists_cons
    rfl
  case last =>
    obtain ⟨us, _, _, heq, ⟨e, he, rfl⟩, hsemicolon⟩ := all_symbol_iff.1 h
    obtain ⟨x, _, rfl, hx, -, hnil⟩ := all_ofKind_iff.1 hsemicolon
    obtain ⟨rfl, rfl⟩ := Grammar.Meaning.all_nil_iff.1 hnil
    rw [heq]
    have hread : Reads .compound (us ++ [x]) [e] := .last he hx
    exact ⟨.compound, _, _, rfl, hread, rfl, rfl, [e], hread, rfl⟩
  case more =>
    obtain ⟨us, x, vs, _, heq, hx, -, ⟨e, he, rfl⟩, es, hes, rfl⟩ := all_separated_iff.1 h
    rw [heq]
    have hread : Reads .compound (us ++ x :: vs) (e :: es) := .more he hx hes
    exact ⟨.compound, _, _, rfl, hread, hes.ruleOf_more, rfl, e :: es, hread, rfl⟩
  case assign =>
    obtain ⟨us, x, vs, _, heq, hx, -, ⟨l, hl, rfl⟩, r, hr, rfl⟩ := all_separated_iff.1 h
    rw [heq]
    have hread := Reads.assign hl hx hr
    exact ⟨.expression, _, _, rfl, hread, rfl, rfl, _, hread, rfl⟩
  case rvalue =>
    obtain ⟨e, he, rfl⟩ := all_single_iff.1 h
    exact ⟨.expression, _, _, rfl, .rvalue he, he.ruleOf_rvalue, rfl, e, .rvalue he, rfl⟩
  case call =>
    obtain ⟨f, _, heq, hf, -, hopen⟩ := all_ofKind_iff.1 h
    obtain ⟨o, _, rfl, ho, -, hargs⟩ := all_ofKind_iff.1 hopen
    obtain ⟨us, _, _, rfl, ⟨es, hes, rfl⟩, hclose⟩ := all_symbol_iff.1 hargs
    obtain ⟨c, _, rfl, hc, -, hnil⟩ := all_ofKind_iff.1 hclose
    obtain ⟨rfl, rfl⟩ := Grammar.Meaning.all_nil_iff.1 hnil
    obtain ⟨rfl, rfl⟩ := List.cons.inj heq
    have hread := Reads.call hf ho hes hc
    exact ⟨.rvalue, _, _, rfl, hread, hes.ruleOf_call, rfl, _, hread, rfl⟩
  case emptyCall =>
    obtain ⟨f, _, heq, hf, -, hopen⟩ := all_ofKind_iff.1 h
    obtain ⟨o, _, rfl, ho, -, hclose⟩ := all_ofKind_iff.1 hopen
    obtain ⟨c, _, rfl, hc, -, hnil⟩ := all_ofKind_iff.1 hclose
    obtain ⟨rfl, rfl⟩ := Grammar.Meaning.all_nil_iff.1 hnil
    obtain ⟨rfl, rfl⟩ := List.cons.inj heq
    have hread := Reads.emptyCall hf ho hc
    exact ⟨.rvalue, _, _, rfl, hread, rfl, rfl, _, hread, rfl⟩
  case lvalue =>
    obtain ⟨e, he, rfl⟩ := all_single_iff.1 h
    exact ⟨.rvalue, _, _, rfl, .lvalue he, he.ruleOf_lvalue, rfl, e, .lvalue he, rfl⟩
  case number =>
    obtain ⟨x, _, heq, hx, hrange, hnil⟩ := all_ofKind_iff.1 h
    obtain ⟨rfl, rfl⟩ := Grammar.Meaning.all_nil_iff.1 hnil
    obtain ⟨rfl, rfl⟩ := List.cons.inj heq
    -- The lexer has refused all numbers that have no value.
    obtain ⟨v, hv⟩ := Token.exists_value hx hrange
    exact ⟨.rvalue, _, _, rfl, .number hx hv, rfl, TreeStack.pushNumber_of_value hx hv _, _,
      .number hx hv, rfl⟩
  case name =>
    obtain ⟨x, _, heq, hx, -, hnil⟩ := all_ofKind_iff.1 h
    obtain ⟨rfl, rfl⟩ := Grammar.Meaning.all_nil_iff.1 hnil
    obtain ⟨rfl, rfl⟩ := List.cons.inj heq
    exact ⟨.lvalue, _, _, rfl, .name hx, rfl, rfl, _, .name hx, rfl⟩
  case argument =>
    -- The last argument is the first to be replayed, so it opens the list.
    obtain ⟨e, he, rfl⟩ := all_single_iff.1 h
    exact ⟨.parameters, [e], _, rfl, .argument he, rfl, rfl, [e], .argument he, rfl⟩
  case arguments =>
    obtain ⟨us, x, vs, _, heq, hx, -, ⟨e, he, rfl⟩, es, hes, rfl⟩ := all_separated_iff.1 h
    rw [heq]
    have hread := Reads.arguments he hx hes
    exact ⟨.parameters, _, _, rfl, hread, hes.ruleOf_arguments, rfl, e :: es, hread, rfl⟩

/-- Every action succeeds on what the right-hand side of its rule leaves on the stacks, and makes
    of it what the left-hand side should leave there. -/
theorem respects_builds : grammar.Respects Builds := by
  intro r hr t ts s s₁ h
  obtain ⟨i, hi⟩ := List.mem_iff_getElem?.1 hr
  obtain ⟨p, es, s₂, hp, -, -, haction, hbuilds⟩ :=
    builds_of_rhs (r, i) (List.mk_mem_zipIdx_iff_getElem?.2 hi) t ts s s₁ h
  exact ⟨s₂, haction, p, congrArg Symbol.id hp.symm, hbuilds⟩

/-! ## Whole programs -/

theorem rhs_ne_nil : ∀ r ∈ grammar.rules, r.rhs ≠ [] := by
  rw [grammar_rules]
  decide

/-- The height of a part: one that starts with another stands above it. -/
def height (id : Nat) : Nat :=
  if id = Part.parameters.symbol.id then 3 else Part.lvalue.symbol.id - id

theorem leftRanked_height : grammar.LeftRanked height := by
  refine Grammar.leftRanked_of_head rhs_ne_nil ?_
  rw [grammar_rules]
  decide

variable {tokens : List Token}

/-- The actions of a derivation of the whole input succeed on all stacks. -/
theorem builds_of_accepted {n : Node} (hrange : ∀ t ∈ tokens, ¬t.isOutOfRange)
    (h : grammar.search tokens = some (.accepted n)) (s : TreeStack) :
    ∃ s', grammar.replay tokens.toArray n.uses s = .ok s' ∧ Part.topLevel.Builds tokens s s' := by
  obtain ⟨us, hus, hrev⟩ := Grammar.completes_of_accepted h
  obtain ⟨tree, hleaves, rfl, -⟩ := hus.exists_forest
  obtain ⟨s', hs', hbuilds⟩ := tree.replay_means rhs_ne_nil respects_builds [] tokens [] hleaves
    (fun t ht s => ⟨rfl, t, rfl, rfl, hrange t ht⟩) s
  have hstart : grammar.start = Part.topLevel.symbol := rfl
  rw [hstart, all_single_iff] at hbuilds
  exact ⟨s', by simpa [hrev] using hs', hbuilds⟩

/-- A derivation of the whole input builds its only reading, and nothing else is left on the
    stacks. -/
theorem reads_of_accepted {n : Node} (hrange : ∀ t ∈ tokens, ¬t.isOutOfRange)
    (h : grammar.search tokens = some (.accepted n)) :
    ∃ e, Reads .topLevel tokens [e] ∧
      grammar.replay tokens.toArray n.uses .empty = .ok ⟨[e], []⟩ := by
  obtain ⟨s, hs, es, hes, rfl⟩ := builds_of_accepted hrange h .empty
  refine ⟨_, .topLevel hes, ?_⟩
  simpa [TreeStack.empty] using hs

/-- What the parser makes of some tokens. -/
theorem parse_cases (o : Origin) (hne : tokens ≠ []) (hrange : ∀ t ∈ tokens, ¬t.isOutOfRange) :
    (∃ e, Reads .topLevel tokens [e] ∧ grammar.parse o tokens .empty = .ok ⟨[e], []⟩) ∨
      ∃ d, tokens.map Token.id ∉ grammar.sentences ∧
        grammar.parse o tokens .empty = .error (.reported d) := by
  cases hs : grammar.search tokens with
  | none => exact absurd hs (Grammar.search_ne_none leftRanked_height tokens)
  | some out =>
    cases out with
    | accepted n =>
      obtain ⟨e, he, hreplay⟩ := reads_of_accepted hrange hs
      refine .inl ⟨e, he, ?_⟩
      rw [Grammar.parse_of_accepted hne hs, hreplay]
      rfl
    | rejected furthest =>
      -- Without empty right-hand sides, the search finds every sentence.
      refine .inr ⟨_, fun hmem => ?_, Grammar.parse_of_rejected hne hs o .empty⟩
      rw [← Grammar.leftmostDerives_iff_mem_sentences rhs_ne_nil, Grammar.leftmostDerives_iff]
        at hmem
      obtain ⟨us, hus⟩ := hmem
      exact Grammar.not_completes_of_rejected hs us hus

end Program

/-- What becomes of a program. -/
theorem parseProgram_cases (source : Source) :
    (∃ d, tokenize ⟨source, "lex"⟩ = .error d ∧ parseProgram source = .error (.reported d)) ∨
    (tokenize ⟨source, "lex"⟩ = .ok [] ∧ parseProgram source = .ok (.sequence ";" [] .zero)) ∨
    ∃ tokens, tokenize ⟨source, "lex"⟩ = .ok tokens ∧ tokens ≠ [] ∧
      ((∃ e, Program.Reads .topLevel tokens [e] ∧ parseProgram source = .ok e) ∨
        ∃ d, tokens.map Token.id ∉ Program.grammar.sentences ∧
          parseProgram source = .error (.reported d)) := by
  unfold parseProgram
  cases htokens : tokenize ⟨source, "lex"⟩ with
  | error d => exact .inl ⟨d, rfl, rfl⟩
  | ok tokens =>
    cases tokens with
    | nil => exact .inr (.inl ⟨rfl, rfl⟩)
    | cons t ts =>
      have hne := List.cons_ne_nil t ts
      refine .inr (.inr ⟨t :: ts, rfl, hne, ?_⟩)
      rcases Program.parse_cases ⟨source, "grammar"⟩ hne (not_isOutOfRange_of_tokenize htokens)
        with ⟨e, he, hparse⟩ | ⟨d, hmem, hparse⟩
      · refine .inl ⟨e, he, ?_⟩
        simp only [hparse]
        rfl
      · refine .inr ⟨Program.addHelp d, hmem, ?_⟩
        simp only [hparse]

/-- A program is parsed, without a fault and always to an end, exactly if its text is made of
    tokens and these derive from the grammar, or there are none of them. Its tree is the only
    reading of the tokens. -/
theorem parseProgram_reads (source : Source) :
    (∀ f, parseProgram source ≠ .error (.fault f)) ∧
    parseProgram source ≠ .error .unfinished ∧
    ((∃ e, parseProgram source = .ok e) ↔
      ∃ tokens, tokenize ⟨source, "lex"⟩ = .ok tokens ∧
        (tokens = [] ∨ tokens.map Token.id ∈ Program.grammar.sentences)) ∧
    ∀ e, parseProgram source = .ok e ↔
      ∃ tokens, tokenize ⟨source, "lex"⟩ = .ok tokens ∧
        (tokens = [] ∧ e = .sequence ";" [] .zero ∨ Program.Reads .topLevel tokens [e]) := by
  rcases parseProgram_cases source with ⟨d, htokens, hparse⟩ | ⟨htokens, hparse⟩ |
    ⟨tokens, htokens, hne, ⟨e, he, hparse⟩ | ⟨d, hmem, hparse⟩⟩
  · simp [htokens, hparse]
  · have hnot (e : Expr) : ¬Program.Reads .topLevel [] [e] := by
      intro h
      obtain ⟨t, ts, hts, -⟩ := h.head
      exact nomatch hts
    simp [htokens, hparse, hnot, eq_comm]
  · have hunique (e' : Expr) : Program.Reads .topLevel tokens [e'] ↔ e = e' := by
      constructor
      · intro h
        simpa using he.unique h
      · rintro rfl
        exact he
    simp [htokens, hparse, hne, hunique, he.mem_sentences]
  · have hnot (e : Expr) : ¬Program.Reads .topLevel tokens [e] := fun h => hmem h.mem_sentences
    simp [htokens, hparse, hne, hnot, hmem]

end Frontend
