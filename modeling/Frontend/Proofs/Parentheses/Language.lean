import Frontend.Proofs.Expression.Balance
import Frontend.Proofs.Diagnostic

/-!
# The language of parentheses

The grammar of parentheses derives balanced parentheses and nothing else (`yields_iff`): a tree can
be built from how a run is nested, and what a tree derives is nested.

Sequences aside, every rule brings in one symbol more than it stands for; so a tree for a sequence
has as many rules as leaves (`length_indices`). The rules can be read off their names
(`map_idxOf_ruleName`), and the tree off its rules. So the names recorded by the actions tell
parentheses apart (`Fires.ids_eq`).

Tokens without a stray `)` become balanced with some more `)` behind them. So the longest beginning
that could go on to be a sentence, which is where the search comes to its furthest dead end, ends
before the first misplaced token (`viable_take_iff`).
-/

namespace Frontend

namespace Parentheses

open Expression

/-- The token is a parenthesis. -/
def IsParen (t : Token) : Prop := t.is .openParen ∨ t.is .closeParen

/-- The name of the rule with the index `i`. -/
def ruleName (i : Nat) : String := (grammar.rules[i]?.map Rule.name).getD ""

/-- There are no tokens and no rules, or `fired` are the names of the rules of a derivation tree, in
    the order in which their actions run. -/
def Fires (ids : List Nat) (fired : List String) : Prop :=
  ids = [] ∧ fired = [] ∨
    ∃ t : grammar.Tree sequence, t.leaves = ids ∧ fired = (t.indices.map ruleName).reverse

/-- At the index `i` stands a token that is no parenthesis, or a stray `)`. -/
def Misplaced (ts : List Token) (i : Nat) : Prop :=
  (∃ t, ts[i]? = some t ∧ ¬IsParen t) ∨ Stray ts i

/-- What is reported marks the first misplaced token. If there is none, it says that the input ends
    too soon, and marks the end of the last token. -/
inductive Marks (ts : List Token) (d : Diagnostic) : Prop
  | misplaced {i : Nat} {t : Token} : IsLeast {i | Misplaced ts i} i → ts[i]? = some t →
      d.span = t.span → Marks ts d
  | atEnd {x : String} {t : Token} : (∀ i, ¬Misplaced ts i) → d.problem = .unexpectedEnd x →
      ts.getLast? = some t → d.span = .empty t.span.stop → Marks ts d

variable {P : Token → Prop} {ts us tokens : List Token} {ids ids' : List Nat} {ss : List Symbol}
  {fired : List String} {i k : Nat}

/-! ## Trees -/

/-- The grammar is about parentheses and no other tokens. -/
theorem isParen_iff_mentions {t : Token} : IsParen t ↔ grammar.Mentions (.terminal t.id) := by
  have hrhs : ∀ r ∈ grammar.rules, ∀ s ∈ r.rhs, s.isTerminal →
      s = .ofKind .openParen ∨ s = .ofKind .closeParen := by
    decide
  rw [IsParen, Token.is_iff, Token.is_iff]
  constructor
  · rintro (ho | hc)
    · exact .inr ⟨_, List.mem_of_getElem? (i := 2) rfl, ho ▸ List.mem_cons_self⟩
    · exact .inr ⟨_, List.mem_of_getElem? (i := 2) rfl,
        hc ▸ List.mem_cons_of_mem _ List.mem_cons_self⟩
  · rintro (hstart | ⟨r, hr, hs⟩)
    · exact nomatch hstart
    · exact (hrhs r hr _ hs rfl).imp Symbol.terminal.inj Symbol.terminal.inj

theorem yields_rule {s : Symbol} {rhs : List Symbol} {name : String} (i : Nat)
    (hi : grammar.rules[i]? = some (rule s rhs name)) (hs : s = .nonterminal s.id)
    (h : grammar.Yields rhs ts) : grammar.Yields [s] ts := by
  rw [hs]
  exact .rule i hi h

/-- Nested parentheses have a derivation tree. -/
theorem yields_of_nested (h : Nested P ts) (hts : ∀ t ∈ ts, IsParen t) (hne : ts ≠ []) :
    grammar.Yields [sequence] ts := by
  induction h with
  | nil => exact absurd rfl hne
  | token ho hc _ _ _ =>
    rcases (List.forall_mem_cons.1 hts).1 with ho' | hc'
    · exact absurd ho' ho
    · exact absurd hc' hc
  | @group P o c ts us ho _ hc _ ihts ihus =>
    obtain ⟨-, hrest⟩ := List.forall_mem_cons.1 hts
    obtain ⟨hts, hrest⟩ := List.forall_mem_append.1 hrest
    obtain ⟨-, hus⟩ := List.forall_mem_cons.1 hrest
    have hgroup : grammar.Yields [nested] (o :: (ts ++ [c])) := by
      rcases eq_or_ne ts [] with rfl | hne
      · exact yields_rule 2 rfl rfl (.token ho (.token hc .nil))
      · exact yields_rule 3 rfl rfl (.token ho ((ihts hts hne).append (.token hc .nil)))
    rcases eq_or_ne us [] with rfl | hne
    · exact yields_rule 0 rfl rfl hgroup
    · have hsequence : grammar.Yields [nested, sequence] (o :: (ts ++ c :: us)) := by
        simpa using hgroup.append (ihus hus hne)
      exact yields_rule 1 rfl rfl hsequence

theorem mem_sentences_iff :
    ts.map Token.id ∈ grammar.sentences ↔ grammar.Yields [sequence] ts :=
  Grammar.mem_sentences_iff

/-- The tokens that have a derivation tree are balanced parentheses. -/
theorem yields_iff : grammar.Yields [sequence] ts ↔
    ts ≠ [] ∧ (∀ t ∈ ts, IsParen t) ∧ Balanced ts := by
  constructor
  · rintro ⟨tree, hleaves⟩
    refine ⟨?_, fun t ht => ?_, ?_⟩
    · rintro rfl
      have hlen := tree.length_le_leaves rhs_ne_nil
      rw [hleaves] at hlen
      exact absurd hlen (by decide)
    · have hmentions := tree.mentions_leaf (List.forall_mem_singleton.2 (.inl rfl)) t.id
      rw [hleaves] at hmentions
      exact isParen_iff_mentions.2 (hmentions (List.mem_map_of_mem ht))
    · obtain ⟨s, h⟩ := tree.exists_means rhs_ne_nil respects_means hleaves
        (fun t _ s => ⟨t, rfl, rfl⟩) []
      obtain ⟨us, _, _, heq, hus, hnil⟩ := Grammar.Meaning.all_cons_iff.1 h
      obtain ⟨rfl, -⟩ := Grammar.Meaning.all_nil_iff.1 hnil
      have hnested : Nested (fun _ => True) us := hus
      rw [heq, List.append_nil]
      exact hnested.balanced
  · rintro ⟨hne, hparens, hbalanced⟩
    exact yields_of_nested (balanced_iff_nested.1 hbalanced) hparens hne

/-! ## The rules of a tree -/

/-- A tree for a sequence has as many rules as leaves, and one less for another symbol. -/
theorem length_indices (f : Grammar.Forest grammar ss) :
    f.indices.length + ss.countP (· ≠ sequence) = f.leaves.length := by
  have hrules : ∀ r ∈ grammar.rules,
      r.rhs.countP (· ≠ sequence) = [Symbol.nonterminal r.lhs.id].countP (· ≠ sequence) + 1 := by
    decide
  induction f with
  | nil => rfl
  | leaf id rest ih =>
    have hterminal : Symbol.terminal id ≠ sequence := nofun
    rw [Grammar.Forest.indices, Grammar.Forest.leaves, List.length_cons, ← ih,
      List.countP_cons_of_pos (by simpa using hterminal), Nat.add_assoc]
  | @node i id r ss hi hid children rest ihc ih =>
    subst hid
    have hr := hrules r (List.mem_of_getElem? hi)
    rw [List.countP_cons, Grammar.Forest.indices, Grammar.Forest.leaves, List.length_cons,
      List.length_append, List.length_append]
    simp only [List.countP_cons, List.countP_nil] at hr
    omega

/-- No two rules have the same name. -/
theorem idxOf_ruleName : ∀ i < grammar.rules.length,
    (grammar.rules.map Rule.name).idxOf (ruleName i) = i := by
  decide

theorem indices_lt_length (f : Grammar.Forest grammar ss) :
    ∀ i ∈ f.indices, i < grammar.rules.length := by
  intro i hi
  rw [← f.map_rule_preorder 0, List.mem_map] at hi
  obtain ⟨u, hu, rfl⟩ := hi
  exact f.rule_lt_length 0 u hu

/-- The rules of a tree can be read off their names. -/
theorem map_idxOf_ruleName (f : Grammar.Forest grammar ss) :
    (f.indices.map ruleName).map (grammar.rules.map Rule.name).idxOf = f.indices := by
  rw [List.map_map]
  refine (List.map_congr_left fun i hi => ?_).trans (List.map_id _)
  exact idxOf_ruleName i (indices_lt_length f i hi)

theorem Fires.length_eq (h : Fires ids fired) : fired.length = ids.length := by
  rcases h with ⟨rfl, rfl⟩ | ⟨t, rfl, rfl⟩
  · rfl
  · have hlen := length_indices t
    rw [List.countP_singleton] at hlen
    simpa using hlen

/-- Different parentheses are derived by different rules. -/
theorem Fires.ids_eq (h : Fires ids fired) (h' : Fires ids' fired) : ids = ids' := by
  have hlen := h.length_eq.symm.trans h'.length_eq
  rcases h with ⟨rfl, -⟩ | ⟨t, rfl, rfl⟩
  · exact (List.length_eq_zero_iff.1 hlen.symm).symm
  · rcases h' with ⟨rfl, -⟩ | ⟨t', rfl, hnames⟩
    · exact List.length_eq_zero_iff.1 hlen
    · have hindices := congrArg (List.map (grammar.rules.map Rule.name).idxOf)
        (List.reverse_injective hnames)
      rw [map_idxOf_ruleName, map_idxOf_ruleName] at hindices
      obtain ⟨rfl, -⟩ := t.eq_of_indices_append t' (congrArg (· ++ []) hindices)
      rfl

/-! ## Accepted tokens -/

variable {n : Node} {furthest : Option Node} {o : Origin}

theorem ruleName_eq {r : Rule Empty (List String)} (hi : grammar.rules[i]? = some r) :
    ruleName i = r.name := by
  rw [ruleName, hi]
  rfl

theorem action_eq {r : Rule Empty (List String)} (hr : r ∈ grammar.rules) (t : Token)
    (names : List String) : r.action t names = .ok (r.name :: names) := by
  rw [grammar_rules] at hr
  simp only [List.mem_cons, List.not_mem_nil, or_false] at hr
  rcases hr with rfl | rfl | rfl | rfl <;> rfl

/-- Replaying some uses records the names of their rules. -/
theorem replay_eq {uses : List Use} (hrules : ∀ u ∈ uses, u.rule < grammar.rules.length)
    (hpos : ∀ u ∈ uses, u.position < tokens.length) (names : List String) :
    grammar.replay tokens.toArray uses names =
      .ok (((uses.map Use.rule).map ruleName).reverse ++ names) := by
  induction uses generalizing names with
  | nil => rfl
  | cons u uses ih =>
    obtain ⟨hu, hrules⟩ := List.forall_mem_cons.1 hrules
    obtain ⟨hp, hpos⟩ := List.forall_mem_cons.1 hpos
    have hr := List.getElem?_eq_getElem hu
    have ht := List.getElem?_eq_getElem hp
    rw [Grammar.replay, List.foldlM_cons, hr, List.getElem?_toArray, ht]
    dsimp only
    rw [action_eq (List.getElem_mem hu)]
    have hrest := ih hrules hpos ((grammar.rules[u.rule]).name :: names)
    rw [Grammar.replay] at hrest
    refine hrest.trans ?_
    simp [ruleName_eq hr]

/-- The names recorded for accepted tokens are those of the rules of a derivation tree, in the
    reverse of its order. -/
theorem fires_of_accepted (hne : tokens ≠ []) (h : grammar.search tokens = some (.accepted n)) :
    ∃ names, grammar.parse o tokens [] = .ok names ∧
      Fires (tokens.map Token.id) names.reverse := by
  obtain ⟨uses, huses, hn⟩ := Grammar.completes_of_accepted h
  obtain ⟨tree, hleaves, rfl, hpos⟩ := huses.exists_forest
  rw [List.length_map, Nat.zero_add] at hpos
  refine ⟨tree.indices.map ruleName, ?_, .inr ⟨tree, hleaves, rfl⟩⟩
  rw [Grammar.parse_of_accepted hne h, hn, replay_eq, List.map_reverse, tree.map_rule_preorder]
  · simp [Except.mapError]
  · exact fun u hu => tree.rule_lt_length 0 u (List.mem_reverse.1 hu)
  · exact fun u hu => hpos u (List.mem_reverse.1 hu)

theorem yields_of_accepted (h : grammar.search tokens = some (.accepted n)) :
    grammar.Yields [sequence] tokens := by
  obtain ⟨uses, huses, -⟩ := Grammar.completes_of_accepted h
  obtain ⟨tree, hleaves, -, -⟩ := huses.exists_forest
  exact ⟨tree, hleaves⟩

theorem not_yields_of_rejected (h : grammar.search tokens = some (.rejected furthest)) :
    ¬grammar.Yields [sequence] tokens := by
  rw [← mem_sentences_iff, ← Grammar.leftmostDerives_iff_mem_sentences rhs_ne_nil,
    Grammar.leftmostDerives_iff]
  rintro ⟨uses, huses⟩
  exact Grammar.not_completes_of_rejected h uses huses

/-! ## Misplaced tokens -/

theorem Misplaced.lt_length (h : Misplaced ts i) : i < ts.length := by
  rcases h with ⟨t, ht, -⟩ | hstray
  · exact (List.getElem?_eq_some_iff.1 ht).1
  · exact hstray.lt_length

theorem misplaced_append_left (hi : i < ts.length) : Misplaced (ts ++ us) i ↔ Misplaced ts i := by
  rw [Misplaced, Misplaced, List.getElem?_append_left hi, Stray, outside_append_left hi]
  rfl

/-- In balanced parentheses no token is misplaced. -/
theorem not_misplaced_of_yields (h : grammar.Yields [sequence] ts) : ¬Misplaced ts i := by
  obtain ⟨-, hparens, hbalanced⟩ := yields_iff.1 h
  rintro (⟨t, ht, hnot⟩ | hstray)
  · exact hnot (hparens t (List.mem_of_getElem? ht))
  · exact hbalanced.not_stray i hstray

/-- Some tokens begin a sentence exactly if none of them is misplaced. -/
theorem viable_iff : grammar.Viable (ts.map Token.id) ↔ ∀ i, ¬Misplaced ts i := by
  constructor
  · rintro ⟨w, hw⟩ i hi
    rw [← Token.map_id_map_ofId w, ← List.map_append, mem_sentences_iff] at hw
    exact not_misplaced_of_yields hw ((misplaced_append_left hi.lt_length).2 hi)
  · intro h
    -- All groups are closed, and another one makes sure that there are tokens at all.
    let o : Token := .ofId Kind.openParen.id
    let c : Token := .ofId Kind.closeParen.id
    obtain ⟨n, hn⟩ : ∃ n, Nested (fun _ => True) (ts ++ List.replicate n c) :=
      exists_nested_append rfl fun i hi => h i (.inr hi)
    have hnested : Nested (fun _ => True) (ts ++ (List.replicate n c ++ [o, c])) := by
      rw [← List.append_assoc]
      exact hn.append (.group rfl .nil rfl .nil)
    have hts : ∀ t ∈ ts, IsParen t := by
      intro t ht
      by_contra hnot
      obtain ⟨i, hi⟩ := List.mem_iff_getElem?.1 ht
      exact h i (.inl ⟨t, hi, hnot⟩)
    have hclosers : ∀ t ∈ List.replicate n c, IsParen t := by
      intro t ht
      rw [List.eq_of_mem_replicate ht]
      exact .inr rfl
    have hgroup : ∀ t ∈ [o, c], IsParen t :=
      List.forall_mem_cons.2 ⟨.inl rfl, List.forall_mem_singleton.2 (.inr rfl)⟩
    refine ⟨(List.replicate n c ++ [o, c]).map Token.id, ?_⟩
    rw [← List.map_append, mem_sentences_iff]
    exact yields_of_nested hnested (List.forall_mem_append.2
      ⟨hts, List.forall_mem_append.2 ⟨hclosers, hgroup⟩⟩) (by simp)

/-- A beginning can go on to be a sentence exactly if no token in it is misplaced. -/
theorem viable_take_iff (hk : k ≤ ts.length) :
    grammar.Viable ((ts.map Token.id).take k) ↔ ∀ i < k, ¬Misplaced ts i := by
  have hlen : (ts.take k).length = k := List.length_take_of_le hk
  have hsame {i : Nat} (hi : i < k) : Misplaced (ts.take k ++ ts.drop k) i ↔
      Misplaced (ts.take k) i := misplaced_append_left (hlen.symm ▸ hi)
  simp only [List.take_append_drop] at hsame
  rw [← List.map_take, viable_iff]
  constructor
  · exact fun h i hi hmisplaced => h i ((hsame hi).1 hmisplaced)
  · intro h i hmisplaced
    have hi : i < k := hlen ▸ hmisplaced.lt_length
    exact h i hi ((hsame hi).2 hmisplaced)

/-! ## Rejected tokens -/

/-- A rejection marks the first misplaced token, or the end of the input if there is none. -/
theorem marks_of_rejected (hne : tokens ≠ [])
    (h : grammar.search tokens = some (.rejected furthest)) (o : Origin) :
    Marks tokens (grammar.diagnose o tokens furthest) := by
  obtain ⟨n, rfl, hdead, hn, hmost⟩ := Grammar.furthest_of_rejected h
  have hend := Grammar.deadEnd_of_dead hne hdead hn
  have hle : n.cursor ≤ tokens.length := by simpa using hn.le_length
  have hviable {k : Nat} (hk : k ≤ tokens.length) :
      (∃ ts, grammar.Advances (tokens.map Token.id) [grammar.start] k ts) ↔
        ∀ i < k, ¬Misplaced tokens i := by
    rw [← viable_take_iff hk,
      Grammar.viable_take_iff Grammar.productive_parentheses (by simpa using hk)]
  have hbefore : ∀ i < n.cursor, ¬Misplaced tokens i := (hviable hle).1 ⟨_, hn⟩
  obtain ⟨name, hcomplaint, -⟩ := namesSymbols.exists_name o tokens n
  by_cases hlast : n.cursor = tokens.length
  · obtain ⟨-, -, t, ht, hspan⟩ := hend.atEnd hlast
    have hproblem : ((n.failure tokens.toArray).complaint name).problem = .unexpectedEnd _ :=
      if_pos (hend.endFound_iff.2 hlast)
    refine .atEnd (fun i hi => ?_) ((congrArg Complaint.problem hcomplaint).trans hproblem) ht
      ((congrArg Complaint.span hcomplaint).trans hspan)
    exact hbefore i (hlast ▸ hi.lt_length) hi
  · obtain ⟨t, ht, -, hspan, -⟩ := hend.inside hlast
    -- Otherwise a sentence could begin with one token more.
    have hmisplaced : Misplaced tokens n.cursor := by
      by_contra hnot
      have hlt : n.cursor < tokens.length := Nat.lt_of_le_of_ne hle hlast
      have hupto : ∀ i < n.cursor + 1, ¬Misplaced tokens i := by
        intro i hi
        rcases Nat.lt_succ_iff_lt_or_eq.1 hi with hlt | rfl
        · exact hbefore i hlt
        · exact hnot
      obtain ⟨ts, hts⟩ := (hviable hlt).2 hupto
      exact Nat.not_succ_le_self _ (hmost _ ts hts)
    refine .misplaced ⟨hmisplaced, fun i hi => ?_⟩ ht
      ((congrArg Complaint.span hcomplaint).trans hspan)
    exact Nat.le_of_not_lt fun hlt => hbefore i hlt hi

/-! ## Texts -/

variable {source : Source}

theorem parseParentheses_of_tokenize (htokens : tokenize ⟨source, "lex"⟩ = .ok tokens) :
    parseParentheses source =
      (grammar.parse ⟨source, "grammar"⟩ tokens []).map List.reverse := by
  rw [parseParentheses, htokens]

/-- Balanced parentheses are parsed. -/
theorem exists_fires (htokens : tokenize ⟨source, "lex"⟩ = .ok tokens)
    (h : (∀ t ∈ tokens, IsParen t) ∧ Balanced tokens) :
    ∃ fired, parseParentheses source = .ok fired ∧ Fires (tokens.map Token.id) fired := by
  rw [parseParentheses_of_tokenize htokens]
  rcases eq_or_ne tokens [] with rfl | hne
  · exact ⟨[], rfl, .inl ⟨rfl, rfl⟩⟩
  · have hends := Grammar.search_ne_none leftRanked tokens
    cases hsearch : grammar.search tokens with
    | none => exact absurd hsearch hends
    | some out =>
      cases out with
      | accepted n =>
        obtain ⟨names, hnames, hfires⟩ := fires_of_accepted hne hsearch
        exact ⟨names.reverse, by rw [hnames]; rfl, hfires⟩
      | rejected furthest => exact absurd (yields_iff.2 ⟨hne, h⟩) (not_yields_of_rejected hsearch)

/-- Other tokens are reported. -/
theorem exists_marks (htokens : tokenize ⟨source, "lex"⟩ = .ok tokens)
    (h : ¬((∀ t ∈ tokens, IsParen t) ∧ Balanced tokens)) :
    ∃ d, parseParentheses source = .error (.reported d) ∧ Marks tokens d := by
  rw [parseParentheses_of_tokenize htokens]
  have hne : tokens ≠ [] := by
    rintro rfl
    have hnil : Nested (fun _ => True) [] := .nil
    exact h ⟨fun t ht => absurd ht List.not_mem_nil, hnil.balanced⟩
  have hends := Grammar.search_ne_none leftRanked tokens
  cases hsearch : grammar.search tokens with
  | none => exact absurd hsearch hends
  | some out =>
    cases out with
    | accepted n => exact absurd (yields_iff.1 (yields_of_accepted hsearch)).2 h
    | rejected furthest =>
      refine ⟨_, ?_, marks_of_rejected hne hsearch ⟨source, "grammar"⟩⟩
      rw [Grammar.parse_of_rejected hne hsearch]
      rfl

/-- Parentheses are spelled as their kind says. -/
theorem map_lexeme_of_tokenize {o : Origin} (htokens : tokenize o = .ok tokens)
    (h : ∀ t ∈ tokens, IsParen t) : tokens.map Token.lexeme =
      (tokens.map Token.id).map fun id => if id = Kind.openParen.id then "(" else ")" := by
  rw [List.map_map]
  refine List.map_congr_left fun t ht => ?_
  rcases h t ht with ho | hc
  · rw [lexeme_of_tokenize htokens ht ho rfl, Function.comp_apply, if_pos (Token.is_iff.1 ho)]
  · have hnot : t.id ≠ Kind.openParen.id :=
      mt Token.is_iff.2 (Token.not_is hc (by decide))
    rw [lexeme_of_tokenize htokens ht hc rfl, Function.comp_apply, if_neg hnot]

/-- A text is parsed exactly if its tokens are balanced parentheses. -/
theorem exists_parseParentheses_iff (htokens : tokenize ⟨source, "lex"⟩ = .ok tokens) :
    (∃ fired, parseParentheses source = .ok fired) ↔
      (∀ t ∈ tokens, IsParen t) ∧ Balanced tokens := by
  refine ⟨fun ⟨fired, hfired⟩ => ?_, fun h => (exists_fires htokens h).imp fun _ => And.left⟩
  by_contra h
  obtain ⟨d, hd, -⟩ := exists_marks htokens h
  exact nomatch hfired.symm.trans hd

/-- The names that are returned are those of the rules of a derivation tree. -/
theorem fires_of_parseParentheses (htokens : tokenize ⟨source, "lex"⟩ = .ok tokens)
    (h : parseParentheses source = .ok fired) :
    (∀ t ∈ tokens, IsParen t) ∧ Fires (tokens.map Token.id) fired := by
  have hbalanced := (exists_parseParentheses_iff htokens).1 ⟨fired, h⟩
  obtain ⟨fired', hfired', hfires⟩ := exists_fires htokens hbalanced
  obtain rfl := Except.ok.inj (h.symm.trans hfired')
  exact ⟨hbalanced.1, hfires⟩

end Parentheses

open Parentheses Expression

/-- A text that can be taken apart is parsed exactly if its tokens are parentheses and balanced. As
    many rules are used as there are tokens, and different ones for different parentheses. If the
    text is not parsed, the first misplaced token is marked, i.e., the first that is no parenthesis
    or closes a group that was not opened. If there is none, the end is reported to be unexpected,
    behind the last token. -/
theorem parseParentheses_balanced (source : Source) (tokens : List Token)
    (htokens : tokenize ⟨source, "lex"⟩ = .ok tokens) :
    ((∃ fired, parseParentheses source = .ok fired) ↔
      (∀ t ∈ tokens, IsParen t) ∧ Balanced tokens) ∧
    (∀ fired, parseParentheses source = .ok fired → fired.length = tokens.length ∧
      ∀ source' tokens', tokenize ⟨source', "lex"⟩ = .ok tokens' →
        parseParentheses source' = .ok fired →
          tokens'.map Token.lexeme = tokens.map Token.lexeme) ∧
    ((∀ fired, parseParentheses source ≠ .ok fired) →
      ∃ d, parseParentheses source = .error (.reported d) ∧ Marks tokens d) := by
  refine ⟨exists_parseParentheses_iff htokens, fun fired h => ?_, fun h => ?_⟩
  · obtain ⟨hparens, hfired⟩ := fires_of_parseParentheses htokens h
    refine ⟨by simpa using hfired.length_eq, fun source' tokens' htokens' h' => ?_⟩
    obtain ⟨hparens', hfired'⟩ := fires_of_parseParentheses htokens' h'
    rw [map_lexeme_of_tokenize htokens hparens, map_lexeme_of_tokenize htokens' hparens',
      hfired.ids_eq hfired']
  · refine exists_marks htokens fun hbalanced => ?_
    obtain ⟨fired, hfired⟩ := (exists_parseParentheses_iff htokens).2 hbalanced
    exact h fired hfired

/-- In `())` the last token is the first misplaced one, and `(` ends too soon. For `()` two rules
    are used, and for no other parentheses the same. -/
theorem parseParentheses_balanced_short :
    let opening : Token := ⟨17, "(", ⟨0, 1⟩, ⟨1, 1, 1⟩⟩
    let closing : Token := ⟨18, ")", ⟨1, 2⟩, ⟨1, 2, 2⟩⟩
    let surplus : Token := ⟨18, ")", ⟨2, 3⟩, ⟨1, 3, 3⟩⟩
    (∃ fired, parseParentheses ⟨"a", "()"⟩ = .ok fired ∧ fired.length = 2 ∧
      ∀ source' tokens', tokenize ⟨source', "lex"⟩ = .ok tokens' →
        parseParentheses source' = .ok fired → tokens'.map Token.lexeme = ["(", ")"]) ∧
    (∃ d, parseParentheses ⟨"b", "())"⟩ = .error (.reported d) ∧ d.span = surplus.span ∧
      IsLeast {i | Misplaced [opening, closing, surplus] i} 2) ∧
    ∃ d x, parseParentheses ⟨"c", "("⟩ = .error (.reported d) ∧ d.problem = .unexpectedEnd x ∧
      (∀ i, ¬Misplaced [opening] i) := by
  intro opening closing surplus
  refine ⟨?balanced, ?stray, ?unclosed⟩
  case balanced =>
    have htokens : tokenize ⟨⟨"a", "()"⟩, "lex"⟩ = .ok [opening, closing] := by cbv
    obtain ⟨fired, hfired⟩ : ∃ fired, parseParentheses ⟨"a", "()"⟩ = .ok fired := ⟨_, by cbv⟩
    obtain ⟨-, hrules, -⟩ := parseParentheses_balanced _ _ htokens
    exact ⟨fired, hfired, hrules fired hfired⟩
  case stray =>
    have htokens : tokenize ⟨⟨"b", "())"⟩, "lex"⟩ = .ok [opening, closing, surplus] := by cbv
    obtain ⟨d, hd, hspan, hproblem⟩ : ∃ d, parseParentheses ⟨"b", "())"⟩ = .error (.reported d) ∧
        d.span = surplus.span ∧ d.problem = .unexpectedToken "'('" ")" :=
      ⟨_, by cbv, by cbv, by cbv⟩
    obtain ⟨-, -, hreport⟩ := parseParentheses_balanced _ _ htokens
    obtain ⟨d', hd', hplace⟩ := hreport (by simp [hd])
    obtain rfl : d = d' := by simpa using hd.symm.trans hd'
    cases hplace with
    | @misplaced i t hi ht hspan' =>
      have hstart : surplus.span.start = t.span.start := by rw [← hspan, hspan']
      have hindex : i = 2 := by
        rcases i with _ | _ | _ | i
        · obtain rfl := Option.some.inj ht
          exact absurd hstart (by decide)
        · obtain rfl := Option.some.inj ht
          exact absurd hstart (by decide)
        · rfl
        · exact absurd ht (Option.not_mem_none t)
      exact ⟨d, hd, hspan, hindex ▸ hi⟩
    | atEnd _ hend =>
      rw [hproblem] at hend
      cases hend
  case unclosed =>
    have htokens : tokenize ⟨⟨"c", "("⟩, "lex"⟩ = .ok [opening] := by cbv
    obtain ⟨d, x, hd, hproblem, hspan⟩ : ∃ d x, parseParentheses ⟨"c", "("⟩ = .error (.reported d) ∧
        d.problem = .unexpectedEnd x ∧ d.span = ⟨1, 1⟩ := ⟨_, _, by cbv, by cbv, by cbv⟩
    obtain ⟨-, -, hreport⟩ := parseParentheses_balanced _ _ htokens
    obtain ⟨d', hd', hplace⟩ := hreport (by simp [hd])
    obtain rfl : d = d' := by simpa using hd.symm.trans hd'
    cases hplace with
    | misplaced _ ht hspan' =>
      obtain rfl := List.mem_singleton.1 (List.mem_of_getElem? ht)
      exact absurd (hspan.symm.trans hspan') (by decide)
    | atEnd hnone => exact ⟨d, x, hd, hproblem, hnone⟩

end Frontend
