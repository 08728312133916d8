import Frontend.Proofs.Grammar.Arrival
import Frontend.Proofs.Grammar.Bundled
import Frontend.Proofs.Program.Statements

/-!
# A missing separator

If the input runs out in the middle of a program, several symbols may have been wanted there: after
a name, for example, `=`, `(` and `;`. A separator is reported to be missing exactly if one more
separator would make the tokens a program (`parseProgram_missing_separator`).

The derivation that the search follows to the end of the input first is the one that reads as much
as it can (`Reads.arrives`): the rule that comes later in the table than the one that derives a part
cannot lead to the end, whatever the rest of the input would be (`Reads.ruleOf_le`). For what stands
in the middle of the input this is so because the part has one reading only; for what stands at the
end, the alternatives that are tried before it have to be looked at. So a statement that lacks its
separator only is read to its end, and there the separator is wanted.
-/

namespace Frontend

namespace Program

variable {p : Part} {ts us ts' us' : List Token} {es es' : List Expr} {ss vs : List Symbol}
  {ids : List Nat} {t : Token}

/-! ## The tokens of a part -/

/-- What holds of every mark and name, of every number that has a value and, between statements, of
    every separator, holds of all tokens that are read. -/
theorem Reads.forall_mem {P : Token → Prop}
    (hmark : ∀ t k, t.is k → k ≠ .number → k ≠ .separator → P t)
    (hnumber : ∀ t v, t.is .number → Number.read? t.lexeme = some v → P t)
    (hseparator : p = .topLevel ∨ p = .compound → ∀ t, t.is .separator → P t)
    (h : Reads p ts es) : ∀ t ∈ ts, P t := by
  induction h with
  | topLevel _ ih => exact ih fun _ => hseparator (.inl rfl)
  | last _ ht ih =>
    refine List.forall_mem_append.2 ⟨ih (by simp), List.forall_mem_singleton.2 ?_⟩
    exact hseparator (.inr rfl) _ ht
  | more _ ht _ ih ihmore =>
    refine List.forall_mem_append.2 ⟨ih (by simp), List.forall_mem_cons.2 ⟨?_, ihmore hseparator⟩⟩
    exact hseparator (.inr rfl) _ ht
  | assign _ ht _ ihl ihr =>
    refine List.forall_mem_append.2 ⟨ihl (by simp), List.forall_mem_cons.2 ⟨?_, ihr (by simp)⟩⟩
    exact hmark _ _ ht (by decide) (by decide)
  | rvalue _ ih | lvalue _ ih | argument _ ih => exact ih (by simp)
  | call hf ho _ hc ih =>
    refine List.forall_mem_cons.2 ⟨hmark _ _ hf (by decide) (by decide), List.forall_mem_cons.2
      ⟨hmark _ _ ho (by decide) (by decide), List.forall_mem_append.2 ⟨ih (by simp), ?_⟩⟩⟩
    exact List.forall_mem_singleton.2 (hmark _ _ hc (by decide) (by decide))
  | emptyCall hf ho hc =>
    refine List.forall_mem_cons.2 ⟨hmark _ _ hf (by decide) (by decide), List.forall_mem_cons.2
      ⟨hmark _ _ ho (by decide) (by decide), ?_⟩⟩
    exact List.forall_mem_singleton.2 (hmark _ _ hc (by decide) (by decide))
  | number ht hv => exact List.forall_mem_singleton.2 (hnumber _ _ ht hv)
  | name ht => exact List.forall_mem_singleton.2 (hmark _ _ ht (by decide) (by decide))
  | arguments _ ht _ ih ihmore =>
    refine List.forall_mem_append.2
      ⟨ih (by simp), List.forall_mem_cons.2 ⟨?_, ihmore (by simp)⟩⟩
    exact hmark _ _ ht (by decide) (by decide)

theorem not_isOutOfRange_of_is {k : Kind} (ht : t.is k) (hk : k ≠ .number) : ¬t.isOutOfRange := by
  rw [Token.isOutOfRange, Bool.and_eq_true]
  exact fun h => Token.not_is ht hk h.1

theorem Reads.not_isOutOfRange (h : Reads p ts es) : ∀ t ∈ ts, ¬t.isOutOfRange := by
  refine h.forall_mem (fun t k ht hk _ => not_isOutOfRange_of_is ht hk) (fun t v _ hv => ?_)
    fun _ t ht => not_isOutOfRange_of_is ht (by decide)
  simp [Token.isOutOfRange, hv]

/-- A separator stands between statements only. -/
theorem Reads.not_separator {e : Expr} (h : Reads .expression ts [e]) :
    ∀ t ∈ ts, ¬t.is .separator :=
  h.forall_mem (fun _ _ ht _ hk => Token.not_is ht hk) (fun _ _ ht _ => Token.not_is ht (by decide))
    (by simp)

/-- A separator behind tokens that are none is the first one, or comes after it. -/
theorem cut_cases {vs ws : List Token} {t' : Token} (hts : ∀ t ∈ ts, ¬t.is .separator)
    (ht : t.is .separator) (heq : ts ++ t' :: us = vs ++ t :: ws) :
    vs = ts ∧ t = t' ∨ ∃ ms, vs = ts ++ t' :: ms ∧ us = ms ++ t :: ws := by
  rcases List.append_eq_append_iff.1 heq with ⟨as, rfl, has⟩ | ⟨bs, rfl, hbs⟩
  · cases as with
    | nil => exact .inl ⟨List.append_nil ts, (List.cons.inj has).1.symm⟩
    | cons a as =>
      obtain ⟨rfl, rfl⟩ := List.cons.inj has
      exact .inr ⟨as, rfl, rfl⟩
  · cases bs with
    | nil => exact .inl ⟨(List.append_nil vs).symm, (List.cons.inj hbs).1⟩
    | cons b bs =>
      obtain ⟨rfl, -⟩ := List.cons.inj hbs
      exact absurd ht (hts t (by simp))

/-- A program that is cut off behind a separator is a program. -/
theorem Reads.exists_cut (h : Reads .compound ts es) (ht : t.is .separator)
    (heq : ts = us ++ t :: us') : ∃ es', Reads .compound (us ++ [t]) es' := by
  generalize hp : Part.compound = p at h
  induction h generalizing us with
  | last h ht' _ =>
    rcases cut_cases h.not_separator ht heq with ⟨rfl, rfl⟩ | ⟨ms, -, hnil⟩
    · exact ⟨_, .last h ht⟩
    · simp at hnil
  | @more _ _ e _ _ h ht' _ _ ih =>
    rcases cut_cases h.not_separator ht heq with ⟨rfl, rfl⟩ | ⟨ms, rfl, hms⟩
    · exact ⟨_, .last h ht⟩
    · obtain ⟨es', hread⟩ := ih hms hp
      refine ⟨e :: es', ?_⟩
      rw [List.append_assoc, List.cons_append]
      exact .more h ht' hread
  | _ => exact nomatch hp

/-! ## The rules that are tried first -/

/-- An expression that nothing continues is not derived by a later rule than another one that starts
    at the same place. -/
theorem Reads.ruleOf_expression_le (h : Reads .expression ts es) (h' : Reads .expression ts' es')
    (heq : ts ++ us = ts' ++ us') (hus' : Part.rvalue.Stops us') :
    Part.expression.ruleOf es' ≤ Part.expression.ruleOf es := by
  cases h with
  | assign hl ht _ =>
    cases hl with
    | name hx =>
      cases h' with
      | assign _ _ _ => exact Nat.le_refl 3
      | rvalue h' => exact absurd ht (h'.not_assign heq.symm hx hus')
  | rvalue h =>
    rw [h.ruleOf_rvalue]
    cases h' with
    | assign _ _ _ => exact Nat.le_succ 3
    | rvalue h' => exact h'.ruleOf_rvalue.le

/-- The same of the expressions that are no assignments. -/
theorem Reads.ruleOf_rvalue_le (h : Reads .rvalue ts es) (h' : Reads .rvalue ts' es')
    (heq : ts ++ us = ts' ++ us') (hus' : Part.rvalue.Stops us') :
    Part.rvalue.ruleOf es' ≤ Part.rvalue.ruleOf es := by
  cases h with
  | call _ ho hargs _ =>
    rw [hargs.ruleOf_call]
    cases h' with
    | call _ _ hargs' _ => exact hargs'.ruleOf_call.le
    | emptyCall _ _ hc' =>
      obtain ⟨-, -, hrest⟩ : _ = _ ∧ _ = _ ∧ _ := by simpa using heq
      exact absurd hc' (hargs.not_close hrest)
    | lvalue h' =>
      cases h' with
      | name _ => exact absurd ho (hus'.not_open heq.symm)
    | number _ _ => exact absurd ho (hus'.not_open heq.symm)
  | emptyCall _ ho _ =>
    cases h' with
    | call _ _ hargs' _ => exact hargs'.ruleOf_call.trans_le (Nat.le_succ 5)
    | emptyCall _ _ _ => exact Nat.le_refl 6
    | lvalue h' =>
      cases h' with
      | name _ => exact absurd ho (hus'.not_open heq.symm)
    | number _ _ => exact absurd ho (hus'.not_open heq.symm)
  | lvalue h =>
    rw [h.ruleOf_lvalue]
    cases h' with
    | call _ _ hargs' _ => exact hargs'.ruleOf_call.trans_le (Nat.le_add_right 5 2)
    | emptyCall _ _ _ => exact Nat.le_succ 6
    | lvalue h' => exact h'.ruleOf_lvalue.le
    | number ht' _ =>
      cases h with
      | name hx =>
        obtain ⟨rfl, -⟩ := List.cons.inj heq
        exact absurd ht' (Token.not_is hx (by decide))
  | number _ _ =>
    cases h' with
    | call _ _ hargs' _ => exact hargs'.ruleOf_call.trans_le (Nat.le_add_right 5 3)
    | emptyCall _ _ _ => exact Nat.le_add_right 6 2
    | lvalue h' => exact h'.ruleOf_lvalue.trans_le (Nat.le_succ 7)
    | number _ _ => exact Nat.le_refl 8

/-- A part inside a statement. -/
def Part.IsInner (p : Part) : Prop := p ≠ .topLevel ∧ p ≠ .compound

instance (p : Part) : Decidable p.IsInner := inferInstanceAs (Decidable (_ ∧ _))

/-- What is read at the same place is not derived by a later rule. The list of arguments could be
    continued by a comma, so it has to be known what follows it. -/
theorem Reads.ruleOf_le (h : Reads p ts es) (h' : Reads p ts' es') (heq : ts ++ us = ts' ++ us')
    (hp : p.IsInner) (hus : p = .parameters → p.Stops us) (hus' : p.Stops us') :
    p.ruleOf es' ≤ p.ruleOf es := by
  cases p with
  | topLevel => exact absurd rfl hp.1
  | compound => exact absurd rfl hp.2
  | expression => exact h.ruleOf_expression_le h' heq hus'
  | rvalue => exact h.ruleOf_rvalue_le h' heq hus'
  | lvalue => exact Nat.le_refl 9
  | parameters =>
    obtain ⟨-, rfl⟩ := h.settled h' heq (hus rfl) hus'
    exact Nat.le_refl _

/-- The symbols start with a token that cannot continue the part. -/
def Part.EndedBy (p : Part) (ss : List Symbol) : Prop :=
  ∃ k rest, k ∉ p.continuedBy ∧ ss = .ofKind k :: rest

/-- What can be read cannot be derived by a later rule, whatever the rest of the input is. -/
theorem Reads.not_prefix (h : Reads p ts es) (hp : p.IsInner) (hss : p.EndedBy ss)
    (hids : p = .parameters → ∀ w : List Nat, p.Stops ((ids ++ w).map Token.ofId)) {j : Nat}
    {r : Rule Fault TreeStack} (hlt : p.ruleOf es < j) (hj : grammar.rules[j]? = some r)
    (hlhs : r.lhs.id = p.symbol.id) (f : grammar.Forest (r.rhs ++ ss)) :
    ¬ts.map Token.id ++ ids <+: f.leaves := by
  rintro ⟨w, hw⟩
  obtain ⟨f₁, f₂, rfl⟩ := f.exists_eq_append
  have hleaves : (ts ++ (ids ++ w).map Token.ofId).map Token.id = f₁.leaves ++ f₂.leaves := by
    rw [List.map_append, Token.map_id_map_ofId, ← List.append_assoc, hw,
      Grammar.Forest.leaves_append]
  obtain ⟨ts', us', htokens, hts', hus'⟩ := List.map_eq_append_iff.1 hleaves
  have hrange : ∀ t ∈ ts' ++ us', ¬t.isOutOfRange := by
    rw [← htokens]
    exact List.forall_mem_append.2 ⟨h.not_isOutOfRange, not_isOutOfRange_ofId⟩
  -- The later rule would read the same part another way.
  obtain ⟨q, es', hq, hread, rfl⟩ :=
    exists_reads_of_forest hj f₁ hts'.symm (List.forall_mem_append.1 hrange).1
  obtain rfl : q = p := Part.symbol_id_injective (hq ▸ hlhs)
  have hstops : q.Stops us' := by
    obtain ⟨k, rest, hk, rfl⟩ := hss
    exact stops_of_leaves f₂ hk hus'.symm
  exact absurd (h.ruleOf_le hread htokens hp (hids · w) hstops) (Nat.not_le_of_lt hlt)

/-! ## Reading to the end -/

theorem arrives_token {k : Kind} (ht : t.is k) (h : grammar.Arrives ids ss vs) :
    grammar.Arrives (t.id :: ids) (.ofKind k :: ss) vs := by
  rw [Token.is_iff.1 ht]
  exact .shift h

/-- If the symbols behind a part get to the end of the input, the input there does not continue the
    part. -/
theorem Part.EndedBy.stops (h : p.EndedBy ss) (hids : ids ≠ []) (hvs : grammar.Arrives ids ss vs)
    (w : List Nat) : p.Stops ((ids ++ w).map Token.ofId) := by
  obtain ⟨k, rest, hk, rfl⟩ := h
  cases hvs with
  | here => exact absurd rfl hids
  | shift _ => exact Part.stops_cons (Token.is_iff.2 rfl) hk

/-- The end is reached through a part by the rule that derives it. -/
theorem Reads.arrives_of_rhs {i : Nat} {rhs : List Symbol} {action : Option Action}
    (h : Reads p ts es) (hp : p.IsInner) (hrule : p.ruleOf es = i)
    (hi : grammar.rules[i]? = some (rule p rhs action)) (hss : p.EndedBy ss)
    (hids : p = .parameters → ids ≠ []) (hvs : grammar.Arrives ids ss vs)
    (ha : grammar.Arrives (ts.map Token.id ++ ids) (rhs ++ ss) vs) :
    grammar.Arrives (ts.map Token.id ++ ids) (p.symbol :: ss) vs := by
  obtain ⟨t, ts, rfl, -⟩ := h.head
  rw [p.symbol_eq]
  refine .expand (List.cons_ne_nil _ _) hi (fun j r hlt hj hlhs => ?_) ha
  exact h.not_prefix hp hss (fun hpar => hss.stops (hids hpar) hvs) (hrule ▸ hlt) hj hlhs

/-- If the symbols behind a part get to the end of the input, so does the part with them. -/
theorem Reads.arrives (h : Reads p ts es) (hp : p.IsInner) (hss : p.EndedBy ss)
    (hids : p = .parameters → ids ≠ []) (hvs : grammar.Arrives ids ss vs) :
    grammar.Arrives (ts.map Token.id ++ ids) (p.symbol :: ss) vs := by
  induction h generalizing ids ss with
  | topLevel _ _ => exact absurd rfl hp.1
  | last _ _ _ | more _ _ _ _ _ => exact absurd rfl hp.2
  | assign hl ht hr ihl ihr =>
    refine (Reads.assign hl ht hr).arrives_of_rhs (i := 3) hp rfl rfl hss hids hvs ?_
    rw [List.map_append, List.append_assoc]
    refine ihl (by decide) ⟨.assign, _, by decide, rfl⟩ nofun (arrives_token ht ?_)
    exact ihr hp hss nofun hvs
  | rvalue h ih =>
    refine (Reads.rvalue h).arrives_of_rhs hp h.ruleOf_rvalue rfl hss hids hvs ?_
    exact ih (by decide) hss nofun hvs
  | call hf ho hargs hc ih =>
    refine (Reads.call hf ho hargs hc).arrives_of_rhs hp hargs.ruleOf_call rfl hss hids hvs ?_
    have hclose := ih (by decide) ⟨.closeParen, ss, by decide, rfl⟩ (fun _ => List.cons_ne_nil _ _)
      (arrives_token hc hvs)
    exact arrives_token hf (arrives_token ho (by simpa using hclose))
  | emptyCall hf ho hc =>
    refine (Reads.emptyCall hf ho hc).arrives_of_rhs (i := 6) hp rfl rfl hss hids hvs ?_
    exact arrives_token hf (arrives_token ho (arrives_token hc hvs))
  | lvalue h ih =>
    refine (Reads.lvalue h).arrives_of_rhs hp h.ruleOf_lvalue rfl hss hids hvs ?_
    obtain ⟨k, rest, -, rfl⟩ := hss
    exact ih (by decide) ⟨k, rest, nofun, rfl⟩ nofun hvs
  | number ht hv =>
    refine (Reads.number ht hv).arrives_of_rhs (i := 8) hp rfl rfl hss hids hvs ?_
    exact arrives_token ht hvs
  | name ht =>
    refine (Reads.name ht).arrives_of_rhs (i := 9) hp rfl rfl hss hids hvs ?_
    exact arrives_token ht hvs
  | argument h ih =>
    refine (Reads.argument h).arrives_of_rhs (i := 10) hp rfl rfl hss hids hvs ?_
    have hsub : Part.expression.continuedBy ⊆ Part.parameters.continuedBy := by decide
    obtain ⟨k, rest, hk, rfl⟩ := hss
    exact ih (by decide) ⟨k, rest, fun hk' => hk (hsub hk'), rfl⟩ nofun hvs
  | arguments h ht hmore ih ihmore =>
    refine (Reads.arguments h ht hmore).arrives_of_rhs hp hmore.ruleOf_arguments rfl hss hids
      hvs ?_
    rw [List.map_append, List.append_assoc]
    refine ih (by decide) ⟨.comma, _, by decide, rfl⟩ nofun (arrives_token ht ?_)
    exact ihmore hp hss hids hvs

/-- No rule is tried before the last one. -/
theorem arrives_of_last {i : Nat} {rhs : List Symbol} {action : Option Action} (hids : ids ≠ [])
    (hi : grammar.rules[i]? = some (rule p rhs action))
    (hlast : ∀ x ∈ grammar.rules.zipIdx, x.1.lhs.id = p.symbol.id → x.2 ≤ i)
    (h : grammar.Arrives ids (rhs ++ ss) vs) : grammar.Arrives ids (p.symbol :: ss) vs := by
  rw [p.symbol_eq]
  refine .expand hids hi (fun j r hlt hj hlhs => ?_) h
  have hle := hlast (r, j) (List.mk_mem_zipIdx_iff_getElem?.2 hj) hlhs
  exact absurd hle (Nat.not_le_of_lt hlt)

theorem index_le_of_topLevel : ∀ x ∈ grammar.rules.zipIdx,
    x.1.lhs.id = Part.topLevel.symbol.id → x.2 ≤ 0 := by
  rw [grammar_rules]
  decide

theorem index_le_of_compound : ∀ x ∈ grammar.rules.zipIdx,
    x.1.lhs.id = Part.compound.symbol.id → x.2 ≤ 2 := by
  rw [grammar_rules]
  decide

theorem Reads.map_id_ne_nil (h : Reads p ts es) (ids : List Nat) : ts.map Token.id ++ ids ≠ [] := by
  obtain ⟨t, ts, rfl, -⟩ := h.head
  exact List.cons_ne_nil _ _

/-- Without its last separator, a program is read to the end, and the separator is wanted there. -/
theorem Reads.arrives_dropLast (h : Reads .compound ts es) :
    grammar.Arrives (ts.dropLast.map Token.id) [Part.compound.symbol]
      [.ofKind .separator, Part.compound.symbol] := by
  have hended : Part.expression.EndedBy [.ofKind .separator, Part.compound.symbol] :=
    ⟨.separator, _, by decide, rfl⟩
  generalize hp : Part.compound = p at h
  induction h with
  | @last ts e t h ht _ =>
    have hend := h.arrives (by decide) hended nofun .here
    rw [List.dropLast_concat]
    have hids := h.map_id_ne_nil []
    rw [List.append_nil] at hids hend
    exact arrives_of_last (i := 2) hids rfl index_le_of_compound hend
  | @more ts us e es t h ht hmore _ ih =>
    have hne : us ≠ [] := by
      obtain ⟨t, us, rfl, -⟩ := hmore.head
      exact List.cons_ne_nil _ _
    rw [List.dropLast_append_of_ne_nil (List.cons_ne_nil t us), List.dropLast_cons_of_ne_nil hne,
      List.map_append]
    exact arrives_of_last (i := 2) (h.map_id_ne_nil _) rfl index_le_of_compound
      (h.arrives (by decide) hended nofun (arrives_token ht (ih hp)))
  | _ => exact nomatch hp

theorem Reads.ne_nil_of_separator (h : Reads .compound (ts ++ [t]) es) (ht : t.is .separator) :
    ts ≠ [] := by
  rintro rfl
  obtain ⟨t', ts, hts, ht'⟩ := h.head
  obtain ⟨rfl, -⟩ := List.cons.inj hts
  rcases ht' with ht' | ht'
  · exact Token.not_is ht (by decide) ht'
  · exact Token.not_is ht (by decide) ht'

/-- So is the program as a whole, from the start symbol of the grammar. -/
theorem Reads.arrives_start (h : Reads .compound (ts ++ [t]) es) (ht : t.is .separator) :
    grammar.Arrives (ts.map Token.id) [grammar.start]
      [.ofKind .separator, Part.compound.symbol] := by
  have hids : ts.map Token.id ≠ [] := mt List.map_eq_nil_iff.1 (h.ne_nil_of_separator ht)
  have hend := h.arrives_dropLast
  rw [List.dropLast_concat] at hend
  exact arrives_of_last (i := 0) hids rfl index_le_of_topLevel hend

/-! ## Failures at the end -/

/-- The nonterminals of the grammar are the parts of a program. -/
theorem exists_part_of_mentions {id : Nat} (h : grammar.Mentions (.nonterminal id)) :
    ∃ p : Part, .nonterminal id = p.symbol := by
  have hrhs : ∀ r ∈ rules, ∀ s ∈ r.rhs, s.isTerminal ∨ ∃ p ∈ Part.all, s = p.symbol := by decide
  rcases h with hstart | ⟨r, hr, hs⟩
  · exact ⟨.topLevel, hstart⟩
  · rcases hrhs r hr _ hs with hterminal | ⟨p, -, hp⟩
    · exact nomatch hterminal
    · exact ⟨p, hp⟩

/-- Every part of a program can be written. -/
theorem Part.exists_reads (p : Part) : ∃ ts es, Reads p ts es := by
  let x : Token := .ofId Kind.identifier.id
  let semicolon : Token := .ofId Kind.separator.id
  have hlvalue : Reads .lvalue [x] [.name x.lexeme x.span] := .name rfl
  have hexpression : Reads .expression [x] [.name x.lexeme x.span] := .rvalue (.lvalue hlvalue)
  have hcompound : Reads .compound [x, semicolon] [.name x.lexeme x.span] := .last hexpression rfl
  cases p with
  | topLevel => exact ⟨_, _, .topLevel hcompound⟩
  | compound => exact ⟨_, _, hcompound⟩
  | expression => exact ⟨_, _, hexpression⟩
  | rvalue => exact ⟨_, _, .lvalue hlvalue⟩
  | lvalue => exact ⟨_, _, hlvalue⟩
  | parameters => exact ⟨_, _, .argument hexpression⟩

/-- Every nonterminal of the grammar derives some tokens. -/
theorem productive : grammar.Productive := by
  intro id hid
  obtain ⟨p, hp⟩ := exists_part_of_mentions hid
  obtain ⟨ts, es, h⟩ := p.exists_reads
  have hyields := h.yields
  rw [← hp] at hyields
  obtain ⟨f, -⟩ := hyields
  exact ⟨_, f.derives⟩

variable {tokens : List Token} {n : Node}

/-- The input is said to end too soon at a dead end behind its last token, if a symbol is wanted
    there. -/
theorem unexpectedEnd_iff {name : Symbol → String} {x : String} :
    ((n.failure tokens.toArray).complaint name).problem = .unexpectedEnd x ↔
      tokens.length ≤ n.cursor ∧ ∃ s ss, n.pending = s :: ss ∧ name s = x := by
  cases hp : n.pending with
  | nil => simp [Failure.complaint, Node.failure, hp]
  | cons s ss =>
    by_cases hend : tokens.length ≤ n.cursor
    · simp [Failure.complaint, Node.failure, hp, hend]
    · simp [Failure.complaint, Node.failure, hp, hend]

/-- Only the separator is called `';'`. -/
theorem eq_separator_of_name {s : Symbol} (h : grammar.Mentions s) :
    ∀ name ∈ [symbolName, Symbol.describe], name s = "';'" ↔ s = .ofKind .separator := by
  have hall : ∀ s ∈ Part.topLevel.symbol :: rules.flatMap Rule.rhs,
      ∀ name ∈ [symbolName, Symbol.describe], name s = "';'" ↔ s = .ofKind .separator := by
    decide
  refine hall s (List.mem_cons.2 (h.imp_right fun ⟨r, hr, hs⟩ => ?_))
  exact List.mem_flatMap.2 ⟨r, hr, hs⟩

theorem exists_name (o : Origin) (n : Node) : ∃ name ∈ [symbolName, Symbol.describe],
    (grammar.diagnose o tokens (some n)).problem =
      ((n.failure tokens.toArray).complaint name).problem := by
  rcases grammar.diagnose_some o tokens n with ⟨r, hr, heq⟩ | heq
  · refine ⟨symbolName, by simp, ?_⟩
    rw [heq, diagnose_rules r hr]
    rfl
  · refine ⟨Symbol.describe, by simp, ?_⟩
    rw [heq]
    rfl

/-- The separator is said to be missing at the end exactly if it is wanted there. -/
theorem problem_diagnose_eq_iff (hn : ∀ s ∈ n.pending, grammar.Mentions s) (o : Origin) :
    (grammar.diagnose o tokens (some n)).problem = .unexpectedEnd "';'" ↔
      tokens.length ≤ n.cursor ∧ ∃ ss, n.pending = .ofKind .separator :: ss := by
  obtain ⟨name, hname, heq⟩ := exists_name o n
  rw [heq, unexpectedEnd_iff]
  refine and_congr_right fun _ => ?_
  constructor
  · rintro ⟨s, ss, hp, hs⟩
    obtain rfl := (eq_separator_of_name (hn s (by simp [hp])) name hname).1 hs
    exact ⟨ss, hp⟩
  · rintro ⟨ss, hp⟩
    exact ⟨_, ss, hp, (eq_separator_of_name (hn _ (by simp [hp])) name hname).2 rfl⟩

/-- A search that ends where a separator is wanted, has read a program without its last one. -/
theorem exists_reads_of_advances {ss : List Symbol} (hrange : ∀ t ∈ tokens, ¬t.isOutOfRange)
    (h : grammar.Advances (tokens.map Token.id) [grammar.start] tokens.length
      (.ofKind .separator :: ss)) (ht : t.is .separator) :
    ∃ es, Reads .compound (tokens ++ [t]) es := by
  have hstart : ∀ s ∈ [grammar.start], grammar.Mentions s := List.forall_mem_singleton.2 (.inl rfl)
  -- What is wanted behind the separator can be derived somehow, and is cut off again.
  obtain ⟨f⟩ := productive.exists_forest (h.mentions hstart)
  obtain ⟨tree, htree⟩ := h.exists_forest f
  cases f with
  | leaf _ rest =>
    have hleaves : tree.leaves = (tokens ++ t :: rest.leaves.map Token.ofId).map Token.id := by
      rw [htree, List.take_of_length_le (by simp), List.map_append, List.map_cons,
        Token.map_id_map_ofId, Token.is_iff.1 ht]
      rfl
    have hall : ∀ t' ∈ tokens ++ t :: rest.leaves.map Token.ofId, ¬t'.isOutOfRange :=
      List.forall_mem_append.2 ⟨hrange, List.forall_mem_cons.2
        ⟨not_isOutOfRange_of_is ht (by decide), not_isOutOfRange_ofId⟩⟩
    obtain ⟨es, hread⟩ := exists_reads_of_tree (p := .topLevel) tree hleaves hall
    cases hread with
    | topLevel hread => exact hread.exists_cut ht rfl

/-- The separator is what is wanted at the end of the input exactly if the tokens are a program
    with it. -/
theorem missing_separator_iff (hrange : ∀ t ∈ tokens, ¬t.isOutOfRange) (ht : t.is .separator)
    (o : Origin) :
    (∃ n, grammar.search tokens = some (.rejected (some n)) ∧
      (grammar.diagnose o tokens (some n)).problem = .unexpectedEnd "';'") ↔
    ∃ es, Reads .compound (tokens ++ [t]) es := by
  have hmentions {n : Node} (h : grammar.Advances (tokens.map Token.id) [grammar.start] n.cursor
      n.pending) : ∀ s ∈ n.pending, grammar.Mentions s :=
    h.mentions (List.forall_mem_singleton.2 (.inl rfl))
  constructor
  · rintro ⟨n, hs, hproblem⟩
    obtain ⟨n', hn', -, hreach, -⟩ := Grammar.furthest_of_rejected hs
    obtain rfl := Option.some.inj hn'
    obtain ⟨hge, ss, hp⟩ := (problem_diagnose_eq_iff (hmentions hreach) o).1 hproblem
    have hle := hreach.le_length
    rw [List.length_map] at hle
    rw [hp, Nat.le_antisymm hle hge] at hreach
    exact exists_reads_of_advances hrange hreach ht
  · rintro ⟨es, h⟩
    cases hs : grammar.search tokens with
    | none => exact absurd hs (Grammar.search_ne_none leftRanked_height tokens)
    | some out =>
      cases out with
      | accepted n =>
        -- A program is not continued by a separator.
        obtain ⟨e, he, -⟩ := reads_of_accepted hrange hs
        cases he with
        | topLevel he =>
          have hsame := (he.settled h (by simp : tokens ++ [t] = (tokens ++ [t]) ++ [])
            (Part.stops_cons ht (by decide)) nofun).1
          simp at hsame
      | rejected furthest =>
        obtain ⟨n, rfl, hcursor, hp⟩ :=
          Grammar.pending_of_arrives productive hs (h.arrives_start ht)
        obtain ⟨n', hn', -, hreach, -⟩ := Grammar.furthest_of_rejected hs
        obtain rfl := Option.some.inj hn'
        refine ⟨n, rfl, (problem_diagnose_eq_iff (hmentions hreach) o).2 ?_⟩
        exact ⟨hcursor.ge, _, hp⟩

end Program

/-! ## Programs -/

open Program

variable {source : Source} {tokens : List Token}

/-- Tokens that are rejected are reported with the dead end that the search came to. -/
theorem parseProgram_of_rejected {furthest : Option Node}
    (htokens : tokenize ⟨source, "lex"⟩ = .ok tokens) (hne : tokens ≠ [])
    (hs : grammar.search tokens = some (.rejected furthest)) :
    parseProgram source =
      .error (.reported (addHelp (grammar.diagnose ⟨source, "grammar"⟩ tokens furthest))) := by
  unfold parseProgram
  cases tokens with
  | nil => exact absurd rfl hne
  | cons t ts => simp only [htokens, Grammar.parse_of_rejected hne hs]

/-- A report about a text that has been made into tokens comes from a search without success. -/
theorem rejected_of_parseProgram {d : Diagnostic} (htokens : tokenize ⟨source, "lex"⟩ = .ok tokens)
    (h : parseProgram source = .error (.reported d)) :
    ∃ n, grammar.search tokens = some (.rejected (some n)) ∧
      d = addHelp (grammar.diagnose ⟨source, "grammar"⟩ tokens (some n)) := by
  have hnot (e : Expr) : parseProgram source ≠ .ok e := fun he => nomatch h.symm.trans he
  have hne : tokens ≠ [] := by
    rintro rfl
    exact hnot _ (parseProgram_eq_ok_iff.2 ⟨[], [], tokenize_eq_ok_iff.1 htokens, .none, rfl⟩)
  cases hs : grammar.search tokens with
  | none => exact absurd hs (Grammar.search_ne_none leftRanked_height tokens)
  | some out =>
    cases out with
    | accepted n =>
      obtain ⟨e, he, -⟩ := reads_of_accepted (not_isOutOfRange_of_tokenize htokens) hs
      cases he with
      | topLevel hes =>
        exact absurd (parseProgram_eq_ok_iff.2
          ⟨tokens, _, tokenize_eq_ok_iff.1 htokens, .some hes, rfl⟩) (hnot _)
    | rejected furthest =>
      obtain ⟨n, rfl, -⟩ := Grammar.furthest_of_rejected hs
      have hparse := parseProgram_of_rejected htokens hne hs
      rw [h] at hparse
      exact ⟨n, rfl, Halt.reported.inj (Except.error.inj hparse)⟩

theorem problem_addHelp (d : Diagnostic) : (addHelp d).problem = d.problem := by
  unfold addHelp
  split <;> rfl

theorem help_addHelp {d : Diagnostic} {text : String} (h : help? d.problem = some text) :
    (addHelp d).help = some text := by
  rw [addHelp, h]
  rfl

/-- A separator on a line of its own makes a text a program exactly if it makes its tokens one. -/
theorem parseProgram_append_separator (htokens : tokenize ⟨source, "lex"⟩ = .ok tokens)
    (name : String) : ∃ t : Token, t.is .separator ∧
      ((∃ e, parseProgram ⟨name, source.content ++ "\n;"⟩ = .ok e) ↔
        ∃ es, Reads .compound (tokens ++ [t]) es) := by
  have hseparator : readTokens ";" = .ok [⟨3, ";", ⟨0, 1⟩, ⟨1, 1, 1⟩⟩] := by cbv
  obtain ⟨t, ht, hread⟩ : ∃ t : Token, t.is .separator ∧
      readTokens (source.content ++ "\n;") = .ok (tokens ++ [t]) := by
    have hread := readTokens_append_line (tokenize_eq_ok_iff.1 htokens) hseparator
    rw [String.append_assoc] at hread
    refine ⟨_, ?_, hread⟩
    rfl
  refine ⟨t, ht, ?_, ?_⟩
  · rintro ⟨e, he⟩
    obtain ⟨tokens', es, htokens', hes, -⟩ := parseProgram_eq_ok_iff.1 he
    obtain rfl := Except.ok.inj (htokens'.symm.trans hread)
    exact ⟨es, hes.reads (by simp)⟩
  · rintro ⟨es, hes⟩
    exact ⟨_, parseProgram_eq_ok_iff.2 ⟨_, es, hread, .some hes, rfl⟩⟩

/-- For a text that is made into tokens, the separator is reported to be missing at the end
    exactly if the text is a program with one more separator behind it. The report says so. -/
theorem parseProgram_missing_separator (source : Source) (tokens : List Token)
    (h : tokenize ⟨source, "lex"⟩ = .ok tokens) (name : String) :
    ((∃ d, parseProgram source = .error (.reported d) ∧ d.problem = .unexpectedEnd "';'") ↔
      ∃ e, parseProgram ⟨name, source.content ++ "\n;"⟩ = .ok e) ∧
    ∀ d, parseProgram source = .error (.reported d) → d.problem = .unexpectedEnd "';'" →
      d.help = some "every expression ends with ';'" := by
  have hrange := not_isOutOfRange_of_tokenize h
  obtain ⟨t, ht, hiff⟩ := parseProgram_append_separator h name
  rw [hiff, ← missing_separator_iff hrange ht ⟨source, "grammar"⟩]
  refine ⟨⟨?_, ?_⟩, ?_⟩
  · rintro ⟨d, hparse, hproblem⟩
    obtain ⟨n, hs, rfl⟩ := rejected_of_parseProgram h hparse
    exact ⟨n, hs, (problem_addHelp _).symm.trans hproblem⟩
  · rintro ⟨n, hs, hproblem⟩
    have hne : tokens ≠ [] := by
      obtain ⟨es, hes⟩ := (missing_separator_iff hrange ht _).1 ⟨n, hs, hproblem⟩
      exact hes.ne_nil_of_separator ht
    exact ⟨_, parseProgram_of_rejected h hne hs, (problem_addHelp _).trans hproblem⟩
  · intro d hparse hproblem
    obtain ⟨n, -, rfl⟩ := rejected_of_parseProgram h hparse
    rw [problem_addHelp] at hproblem
    exact help_addHelp (hproblem ▸ rfl)

/-- After `x = y`, there could be `(` or `=` just as well. -/
theorem parseProgram_missing_separator_name :
    let source : Source := ⟨"a", "x = y"⟩
    let tokens : List Token := [⟨1, "x", ⟨0, 1⟩, ⟨1, 1, 1⟩⟩, ⟨6, "=", ⟨2, 3⟩, ⟨1, 3, 3⟩⟩,
      ⟨1, "y", ⟨4, 5⟩, ⟨1, 5, 5⟩⟩]
    tokenize ⟨source, "lex"⟩ = .ok tokens ∧
      ∃ d, parseProgram source = .error (.reported d) ∧ d.problem = .unexpectedEnd "';'" ∧
        d.help = some "every expression ends with ';'" := by
  intro source tokens
  have htokens : tokenize ⟨source, "lex"⟩ = .ok tokens := by cbv
  have hparse : parseProgram ⟨"a", "x = y\n;"⟩ = .ok (.sequence ";"
      [.binary Kind.assign.id "=" (.name "x" ⟨0, 1⟩) (.name "y" ⟨4, 5⟩) ⟨0, 5⟩] ⟨0, 5⟩) := by cbv
  obtain ⟨hiff, hhelp⟩ := parseProgram_missing_separator source tokens htokens "a"
  obtain ⟨d, hreport, hproblem⟩ := hiff.2 ⟨_, hparse⟩
  exact ⟨htokens, d, hreport, hproblem, hhelp d hreport hproblem⟩

end Frontend
