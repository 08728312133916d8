import Frontend.Proofs.Expression.Unbalanced

/-!
# Where an operator is expected

A run of tokens without an operator outside parentheses is one operand; if it is not a group, it is
given to the parser of primaries (`Primary`). Of a run that holds more than one operand, this parser
says that an operator is expected. It says so of the token behind what it takes for the first
operand (`TakenBefore`): a call up to its `)`, or else the first token, whatever that is. Nothing
else in the construction says so (`exists_run`).

A name, a number or a call is taken for what it is (`OperandBefore.taken`). But of a group only the
`(` is taken, and what stands before the token that is reported is no expression then. It is one
exactly if the run begins with an operand that is not a group (`primary_expects_operator`).
-/

namespace Frontend.Expression

/-- What the construction gives to the parser of primaries. -/
structure Primary (ts : List Token) : Prop where
  ne_nil : ts ≠ []
  balanced : Balanced ts
  not_operator : ∀ i, ¬Outside (isBinaryOperator ·.id) 0 ts i
  not_group : groupInside? ts = none

/-- The complaint is that there should be an operator. -/
def AsksForOperator (c : Complaint) : Prop :=
  ∃ found, c.problem = .unexpectedToken "an operator" found

/-- The tokens are an expression before the token `t`: not a group, and not the name of a function
    that is called. -/
structure OperandBefore (table : OperatorTable) (t : Token) (us : List Token) : Prop where
  accepted : ∃ e, build table us = .ok e
  not_group : ∀ o ∈ us.head?, ¬o.is .openParen
  not_callee : ∀ f, us = [f] → f.is .identifier → ¬t.is .openParen

/-- The run begins with an operand that is not a group, and does not end with it. -/
def BeginsWithOperand (table : OperatorTable) (ts : List Token) : Prop :=
  ∃ us t vs, ts = us ++ t :: vs ∧ OperandBefore table t us

/-- The complaint is about the token behind what is taken for the first operand. -/
def AsksBehindOperand (ts : List Token) (c : Complaint) : Prop :=
  ∃ us t vs, ts = us ++ t :: vs ∧ TakenBefore t vs us ∧ c = unexpected t "an operator"

variable {table : OperatorTable} {c : Complaint} {ts us vs us' vs' : List Token} {t t' : Token}

/-! ## Runs for the parser of primaries -/

/-- These are the runs without a split point that are not a group, with any table. -/
theorem primary_iff (table : OperatorTable) :
    Primary ts ↔ ts ≠ [] ∧ table.splitPoint ts = .ok none ∧ groupInside? ts = none := by
  constructor
  · intro h
    have hts := h.balanced
    exact ⟨h.ne_nil, splitPoint_eq_none_iff.2 ⟨hts.not_stray, hts.not_unclosed, h.not_operator⟩,
      h.not_group⟩
  · rintro ⟨hne, hpoint, hgroup⟩
    obtain ⟨hstray, hclosed, hoperator⟩ := splitPoint_eq_none_iff.1 hpoint
    exact ⟨hne, ⟨hstray, hclosed⟩, hoperator, hgroup⟩

/-- Such a run is built by the parser of primaries. -/
theorem Primary.eq_buildPrimary (h : Primary ts) (table : OperatorTable) :
    build table ts = buildPrimary (build table) ts := by
  obtain ⟨hne, hpoint, hgroup⟩ := (primary_iff table).1 h
  rw [build_eq, buildStep, if_neg (by simpa using hne), hpoint]
  show buildOperand (build table) ts = _
  rw [buildOperand, hgroup]
  cases ts.head? <;> rfl

/-! ## The first operand -/

/-- If something is left behind what is taken for the first operand, an operator is expected
    there. -/
theorem TakenBefore.buildPrimary_eq (h : TakenBefore t vs us)
    (build : List Token → Except Complaint Expr) :
    buildPrimary build (us ++ t :: vs) = .error (unexpected t "an operator") := by
  cases h with
  | token hnot =>
    rw [List.singleton_append, buildPrimary, if_neg (by simpa using hnot)]
  | call hf ho hcut =>
    rw [List.cons_append, List.cons_append, List.append_assoc, buildPrimary,
      if_pos (Bool.and_eq_true_iff.2 ⟨hf, ho⟩), buildCall, List.singleton_append, hcut]

theorem TakenBefore.unique (h : TakenBefore t vs us) (h' : TakenBefore t' vs' us')
    (heq : us ++ t :: vs = us' ++ t' :: vs') : us = us' := by
  cases h with
  | token hnot =>
    cases h' with
    | token => rw [(List.cons.inj heq).1]
    | call hf ho =>
      obtain ⟨rfl, htail⟩ := List.cons.inj heq
      obtain ⟨rfl, -⟩ := List.cons.inj htail
      exact absurd ⟨hf, ho⟩ hnot
  | call hf ho hcut =>
    cases h' with
    | token hnot =>
      obtain ⟨rfl, htail⟩ := List.cons.inj heq
      obtain ⟨rfl, -⟩ := List.cons.inj htail
      exact absurd ⟨hf, ho⟩ hnot
    | call _ _ hcut' =>
      simp only [List.cons_append, List.append_assoc, List.nil_append] at heq
      obtain ⟨rfl, htail⟩ := List.cons.inj heq
      obtain ⟨rfl, hargs⟩ := List.cons.inj htail
      rw [hargs, hcut'] at hcut
      cases hcut
      rfl

/-- An operand that is not a group is taken for what it is. -/
theorem OperandBefore.taken (h : OperandBefore table t us) (hts : Primary (us ++ t :: vs)) :
    TakenBefore t vs us := by
  obtain ⟨e, he⟩ := h.accepted
  cases build_eq_ok_iff.1 he with
  | name hf => exact .token fun hcall => h.not_callee _ rfl hf hcall.2
  | number hf _ => exact .token fun hcall => Token.not_is hf (by decide) hcall.1
  | binary hsplit _ _ =>
    -- The operator would stand outside parentheses in the whole run, too.
    cases splits_of_eq hsplit with
    | operator _ _ hi =>
      have hi := hi.outside
      exact absurd ((outside_append_left hi.lt_length).2 hi) (hts.not_operator _)
  | group ho _ _ => exact absurd ho (h.not_group _ rfl)
  | emptyCall hf ho hc =>
    have hnil : Nested (fun _ => True) [] := .nil
    exact .call hf ho (cutAtClose_of_nested hnil hc _)
  | call hf ho hes hc => exact .call hf ho (cutAtClose_of_nested hes.spells.nested hc _)
  | comma _ _ hes => exact absurd rfl hes.exprs_ne_nil

/-- What is taken for an operand and is an expression is an operand that is not a group. -/
theorem TakenBefore.operandBefore (h : TakenBefore t vs us)
    (hus : ∃ e, build table us = .ok e) : OperandBefore table t us := by
  refine ⟨hus, ?_, ?_⟩
  · obtain ⟨e, he⟩ := hus
    cases h with
    | @token f _ =>
      -- A parenthesis alone is not balanced.
      rintro _ ⟨⟩ ho
      have hf : Balanced [f] := (build_eq_ok_iff.1 he).spells.nested.balanced
      have hunclosed : Unclosed ([] ++ [f]) 0 := unclosed_length ho rfl
      exact hf.not_unclosed 0 hunclosed
    | call hf _ _ =>
      rintro f ⟨⟩
      exact Token.not_is hf (by decide)
  · rintro f rfl hf ho
    cases h with
    | token hnot => exact hnot ⟨hf, ho⟩

/-! ## Who asks for an operator -/

/-- No level but that of a primary asks for an operator. -/
theorem Complains.asksBehindOperand (h : Complains table ts c) (hc : AsksForOperator c) :
    Primary ts ∧ AsksBehindOperand ts c := by
  obtain ⟨found, hproblem⟩ := hc
  cases h with
  | split hpoint =>
    cases splits_of_eq hpoint with
    | refused _ _ =>
      rw [refusal] at hproblem
      split at hproblem <;> cases hproblem
    | unclosed _ _ _ => cases hproblem
  | unclosed _ _ _ _ => cases hproblem
  | @operator t us vs hpoint hgroup hts htaken =>
    have hne : ts ≠ [] := by simp [hts]
    exact ⟨(primary_iff table).2 ⟨hne, hpoint, hgroup⟩, us, t, vs, hts, htaken, rfl⟩
  | quoted _ _ hother => exact absurd hproblem (hother found)
  | between _ _ => cases hproblem
  | empty => cases hproblem

/-- What the parser of primaries complains about whatever becomes of the arguments is its own. -/
theorem Primary.asksBehindOperand (h : Primary ts) (hc : AsksForOperator c)
    (hown : ∀ build, buildPrimary build ts = .error c) : AsksBehindOperand ts c := by
  obtain ⟨-, hpoint, hgroup⟩ := (primary_iff .empty).1 h
  have herror := hown fun _ => .error Problem.emptyExpression.unplaced
  rcases error_of_buildPrimary hpoint hgroup herror with hlevel | ⟨us, -, hpiece⟩
  · exact (hlevel.asksBehindOperand hc).2
  · obtain ⟨found, hproblem⟩ := hc
    obtain rfl := Except.error.inj hpiece
    cases hproblem

/-- Where an operator is asked for, there is a run in which the parser of primaries does so. -/
theorem exists_run (h : build table ts = .error c) (hc : AsksForOperator c) :
    ∃ run, Relation.ReflTransGen (Piece table) ts run ∧ Primary run ∧ AsksBehindOperand run c := by
  induction hn : ts.length using Nat.strongRecOn generalizing ts with
  | ind n ih =>
    rw [build_eq] at h
    rcases error_of_buildStep h with hlevel | ⟨us, hus, h⟩
    · exact ⟨ts, .refl, hlevel.asksBehindOperand hc⟩
    · obtain ⟨run, hrun, hasks⟩ := ih us.length (hn ▸ hus.length_lt) h rfl
      exact ⟨run, .head hus hrun, hasks⟩

/-- The parser of primaries expects an operator only where one could stand if the run that it is
    given begins with an operand that is not a group. It reports the token behind such an operand,
    whatever becomes of the arguments. If it reports a token, the tokens before that are an
    expression exactly if the run begins with such an operand. And if it passes on that an operator
    is expected, this is said of a run that is cut out of an argument, by the parser itself. -/
theorem primary_expects_operator (table : OperatorTable) (ts : List Token) (h : Primary ts) :
    (∀ us t vs, ts = us ++ t :: vs → OperandBefore table t us →
      ∀ build', buildPrimary build' ts = .error (unexpected t "an operator")) ∧
    (∀ c, AsksForOperator c → (∀ build', buildPrimary build' ts = .error c) →
      ∃ us t vs, ts = us ++ t :: vs ∧ c = unexpected t "an operator" ∧
        ((∃ e, build table us = .ok e) ↔ BeginsWithOperand table ts)) ∧
    ∀ c, AsksForOperator c → buildPrimary (build table) ts = .error c →
      ∃ run, Relation.ReflTransGen (Piece table) ts run ∧ Primary run ∧
        ∀ build', buildPrimary build' run = .error c := by
  refine ⟨?_, fun c hc hown => ?_, fun c hc herror => ?_⟩
  · rintro us t vs rfl hus
    exact (hus.taken h).buildPrimary_eq
  · obtain ⟨us, t, vs, rfl, htaken, rfl⟩ := h.asksBehindOperand hc hown
    refine ⟨us, t, vs, rfl, rfl, fun hus => ⟨us, t, vs, rfl, htaken.operandBefore hus⟩, ?_⟩
    rintro ⟨us', t', vs', heq, hbefore⟩
    rw [htaken.unique (hbefore.taken (heq ▸ h)) heq]
    exact hbefore.accepted
  · rw [← h.eq_buildPrimary table] at herror
    obtain ⟨run, hrun, hprimary, _, t, _, rfl, htaken, rfl⟩ := exists_run herror hc
    exact ⟨_, hrun, hprimary, htaken.buildPrimary_eq⟩

/-- In `f(a) b`, and in `g(f(a) b)`, the operator is expected in the place of `b`. -/
theorem primary_expects_operator_call :
    let token (k : Kind) (lexeme : String) (i : Nat) : Token :=
      ⟨k.id, lexeme, ⟨i, i + 1⟩, .nowhere⟩
    let call := [token .identifier "f" 2, token .openParen "(" 3, token .identifier "a" 4,
      token .closeParen ")" 5]
    let b := token .identifier "b" 6
    let outer := token .identifier "g" 0 :: token .openParen "(" 1 ::
      (call ++ [b, token .closeParen ")" 7])
    Primary (call ++ [b]) ∧ OperandBefore .standard b call ∧
      buildPrimary (build .standard) (call ++ [b]) = .error (unexpected b "an operator") ∧
      Primary outer ∧
      ∃ run, Relation.ReflTransGen (Piece .standard) outer run ∧
        ∀ build', buildPrimary build' run = .error (unexpected b "an operator") := by
  intro token call b outer
  have hts : Primary (call ++ [b]) :=
    (primary_iff .standard).2 ⟨List.cons_ne_nil _ _, rfl, rfl⟩
  have houter : Primary outer := (primary_iff .standard).2 ⟨List.cons_ne_nil _ _, rfl, rfl⟩
  have hcall : OperandBefore .standard b call := by
    refine ⟨⟨_, rfl⟩, ?_, fun f hf => by simp [call] at hf⟩
    rintro o ⟨⟩
    decide
  have hasks : AsksForOperator (unexpected b "an operator") := ⟨"b", rfl⟩
  obtain ⟨run, hrun, -, herror⟩ :=
    (primary_expects_operator .standard outer houter).2.2 _ hasks rfl
  exact ⟨hts, hcall, (primary_expects_operator .standard _ hts).1 call b [] rfl hcall _, houter,
    run, hrun, herror⟩

/-- In `(a) b`, the operator is expected behind the parenthesis. -/
theorem primary_expects_operator_group :
    let token (k : Kind) (lexeme : String) (i : Nat) : Token :=
      ⟨k.id, lexeme, ⟨i, i + 1⟩, .nowhere⟩
    let a := token .identifier "a" 1
    let tokens := [token .openParen "(" 0, a, token .closeParen ")" 2, token .identifier "b" 3]
    Primary tokens ∧ (∃ e, build .standard (tokens.take 3) = .ok e) ∧
      buildPrimary (build .standard) tokens = .error (unexpected a "an operator") ∧
      ∀ i t, tokens[i]? = some t →
        buildPrimary (build .standard) tokens = .error (unexpected t "an operator") →
        ¬∃ e, build .standard (tokens.take i) = .ok e := by
  intro token a tokens
  have herror : buildPrimary (build .standard) tokens = .error (unexpected a "an operator") := rfl
  have hts : Primary tokens := (primary_iff .standard).2 ⟨List.cons_ne_nil _ _, rfl, rfl⟩
  refine ⟨hts, ⟨_, rfl⟩, herror, ?_⟩
  rintro i t ht herror' ⟨e, he⟩
  have hspan : a.span = t.span :=
    congrArg Complaint.span (Except.error.inj (herror.symm.trans herror'))
  match i with
  | 0 =>
    obtain rfl := Option.some.inj ht
    exact absurd hspan (by decide)
  | 1 =>
    have hparen : build .standard (tokens.take 1) =
        .error (token .openParen "(" 0).unbalanced := rfl
    cases hparen.symm.trans he
  | 2 =>
    obtain rfl := Option.some.inj ht
    exact absurd hspan (by decide)
  | 3 =>
    obtain rfl := Option.some.inj ht
    exact absurd hspan (by decide)
  | i + 4 => cases ht

end Frontend.Expression
