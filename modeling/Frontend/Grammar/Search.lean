import Frontend.Grammar.Table

/-!
# Searching for a derivation

The search looks for a leftmost derivation of a list of tokens from the start symbol of a
grammar. A `Node` is one partial derivation: the tokens matched so far and the symbols still
pending. Terminals are matched against the input; a nonterminal is expanded by every rule for
it, and the alternatives are tried depth first, the last one of the table first. Nothing is
expanded once the input is used up, so symbols pending at the end of the input are a dead end
even if they could derive nothing.

The partial derivations that remain to be followed are kept in a worklist, the next one first.
A left-recursive grammar may add to it forever. So `explore` is the least solution of its
equations, and `none` is the result of a search that does not end.

Actions do not run during the search. `Grammar.parse` replays the uses of the derivation
found, the last one first, so that a rule's action runs after the actions of all rules used
inside it.
-/

namespace Frontend

/-- A rule, by its index in the table, and the number of tokens before its use. -/
structure Use where
  rule : Nat
  position : Nat
deriving DecidableEq

/-- A partial derivation. -/
structure Node where
  /-- The number of tokens matched. -/
  cursor : Nat
  /-- The symbols still to be matched, the next one first. -/
  pending : List Symbol
  /-- The rules that brought in the pending symbols, with the number of pending symbols of
      each; the start symbol is brought in by no rule. -/
  owners : List (Option Nat × Nat)
  /-- The uses of rules so far, the latest first. -/
  uses : List Use
  /-- The rule that brought in the symbol that was dealt with last. -/
  latest : Option Nat
deriving DecidableEq

namespace Node

/-- The derivation that has not begun. -/
def initial (start : Symbol) : Node := ⟨0, [start], [(none, 1)], [], none⟩

/-- Takes the next symbol from the rule that brought it in. -/
def resolve (n : Node) : Node :=
  match n.owners with
  | [] => n
  | (owner, count) :: rest =>
    { n with
      owners := if count - 1 = 0 then rest else (owner, count - 1) :: rest
      latest := owner }

/-- Matches the next symbol with the next token. -/
def shift (n : Node) : Node :=
  { n.resolve with pending := n.pending.tail, cursor := n.cursor + 1 }

/-- Expands the next symbol by the rule of index `i`, whose right-hand side is `rhs`. -/
def expand (i : Nat) (rhs : List Symbol) (n : Node) : Node :=
  let r := n.resolve
  { r with
    pending := rhs ++ n.pending.tail
    uses := ⟨i, n.cursor⟩ :: n.uses
    owners := if rhs = [] then r.owners else (some i, rhs.length) :: r.owners
    latest := if rhs = [] then some i else r.latest }

/-- The rule to blame for a dead end: the one that brought in the next symbol, or else the
    one that brought in the last symbol dealt with. -/
def owner (n : Node) : Option Nat :=
  match n.owners with
  | (some i, _) :: _ => some i
  | _ => n.latest

/-- The failure recorded for a dead end. -/
def failure (tokens : Array Token) (n : Node) : Failure where
  position := n.cursor
  expected := n.pending.head?
  found := tokens[n.cursor]?
  span :=
    match tokens[n.cursor]? with
    | some t => t.span
    | none => (tokens.back?.map fun t => Span.empty t.span.stop).getD Span.zero
  endFound := !n.pending.isEmpty && decide (tokens.size ≤ n.cursor)
  endExpected := n.pending.isEmpty

end Node

/-- What becomes of a partial derivation in one step. -/
inductive Step where
  /-- It is a derivation of the whole input. -/
  | accept
  /-- It cannot be continued. -/
  | dead
  /-- Its next symbol matches the next token. -/
  | shift (node : Node)
  /-- Its next symbol is expanded in these ways, to be tried in order. -/
  | fork (nodes : List Node)

/-- The result of a search. -/
inductive Outcome where
  /-- The first derivation found. -/
  | accepted (node : Node)
  /-- There is no derivation; of the dead ends that matched most tokens, the one found
      first. -/
  | rejected (furthest : Option Node)

/-- The dead end to keep of the best one so far and a new one. -/
def further (best : Option Node) (n : Node) : Option Node :=
  match best with
  | none => some n
  | some b => if n.cursor ≤ b.cursor then some b else some n

namespace Grammar

variable {ε σ : Type}

/-- One step of a partial derivation. -/
def step (g : Grammar ε σ) (tokens : Array Token) (n : Node) : Step :=
  match n.pending, tokens[n.cursor]? with
  | [], none => .accept
  | [], some _ => .dead
  | _ :: _, none => .dead
  | .terminal id :: _, some t => if id = t.id then .shift n.shift else .dead
  | .nonterminal id :: _, some _ =>
    match g.alternatives (.nonterminal id) with
    | [] => .dead
    | rules => .fork (rules.map fun r => n.expand r.2 r.1.rhs).reverse

/-- Follows the partial derivations of a worklist to all their ends, or to the first that is
    accepted; `best` is the dead end to report so far. -/
def explore (g : Grammar ε σ) (tokens : Array Token) (worklist : List Node)
    (best : Option Node) : Option Outcome :=
  match worklist with
  | [] => some (.rejected best)
  | n :: rest =>
    match g.step tokens n with
    | .accept => some (.accepted n)
    | .dead => g |>.explore tokens rest (further best n)
    | .shift m => g |>.explore tokens (m :: rest) best
    | .fork nodes => g |>.explore tokens (nodes ++ rest) best
partial_fixpoint

/-- Searches for a derivation of `tokens` from the start symbol. -/
def search (g : Grammar ε σ) (tokens : List Token) : Option Outcome :=
  g.explore tokens.toArray [Node.initial g.start] none

/-- Runs the actions of some uses in order. -/
def replay (g : Grammar ε σ) (tokens : Array Token) (uses : List Use) (s : σ) : Except ε σ :=
  uses.foldlM
    (fun s u =>
      match g.rules[u.rule]?, tokens[u.position]? with
      | some rule, some t => rule.action t s
      | _, _ => .ok s)
    s

/-- The diagnostic for a search without success. -/
def diagnose (g : Grammar ε σ) (o : Origin) (tokens : List Token) (furthest : Option Node) :
    Diagnostic :=
  match furthest with
  | none => o.report (Problem.noRules g.start.describe).unplaced
  | some n =>
    let failure := n.failure tokens.toArray
    match n.owner.bind (g.rules[·]?) with
    | some rule => rule.diagnose failure o
    | none => Rule.plainDiagnose Symbol.describe failure o

end Grammar

/-- Why a run ends without a result. -/
inductive Halt (ε : Type) where
  /-- The input is at fault, as the diagnostic says. -/
  | reported (d : Diagnostic)
  /-- An action failed. -/
  | fault (e : ε)
  /-- The search does not end. -/
  | unfinished

namespace Grammar

variable {ε σ : Type}

/-- Derives `tokens` from the start symbol and runs the actions of the derivation, innermost
    first. No tokens at all are accepted without running any action, and without a derivation
    none runs either. -/
def parse (g : Grammar ε σ) (o : Origin) (tokens : List Token) (s : σ) : Except (Halt ε) σ :=
  if tokens.isEmpty then .ok s
  else
    match g.search tokens with
    | some (.accepted n) => (g.replay tokens.toArray n.uses s).mapError .fault
    | some (.rejected furthest) => .error (.reported (g.diagnose o tokens furthest))
    | none => .error .unfinished

end Grammar

end Frontend
