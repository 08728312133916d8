import Frontend.CommandLine.Arguments
import Frontend.Expr.Encoding
import Frontend.Expr.Text
import Frontend.Expression
import Frontend.Override.Reader
import Frontend.Parentheses
import Frontend.Program

/-!
# Running a command

What the program writes and its exit code, for given arguments. Files are read by a function
that is passed in, in any monad, so that a run is a pure function of the arguments and the
files. A diagnostic goes to the error output, with exit code 1 and nothing on the output.
-/

namespace Frontend.CommandLine

/-- What a run leaves behind. -/
structure Report where
  exitCode : Nat
  output : String
  errors : String

/-- A diagnostic as it is shown to a user. -/
def showDiagnostic (d : Diagnostic) : String :=
  let help := match d.help with
    | some text => "  help: " ++ text ++ "\n"
    | none => ""
  "Error: " ++ d.code ++ "\n  " ++ d.message ++ "\n  " ++ d.origin.source.name ++ ", byte "
    ++ toString d.span.start ++ ": " ++ d.problem.label ++ "\n" ++ help

/-- The name of a token's kind, or its number if it has no kind. -/
def kindName (t : Token) : String :=
  match t.kind? with
  | some k => k.name
  | none => "#" ++ toString t.id

/-- A text filled up with blanks to at least `width` characters. -/
def padTo (width : Nat) (s : String) : String :=
  s ++ String.join (List.replicate (width - s.length) " ")

/-- One token to a line: its kind, its lexeme and its location. -/
def listTokens (tokens : List Token) : String :=
  String.join (tokens.map fun t => padTo 20 (kindName t) ++ " " ++ t.describe ++ "\n")

/-- A tree in the form asked for. -/
def showTree (form : TreeForm) (e : Expr) : String :=
  (if form.json then e.toJson.text else if form.compact then e.compact else e.outline) ++ "\n"

/-- The rules used, one to a line, then the verdict. -/
def listRules (names : List String) : String :=
  String.join (names.map (· ++ "\n")) ++ "accepted\n"

/-- A source from a file, given what reading the file brings. -/
def sourceOf (path : String) (content : Except FileError String) : Except Diagnostic Source :=
  match content with
  | .ok text => .ok ⟨path, text⟩
  | .error e =>
    .error (Origin.report ⟨.fallback path, "io"⟩ (Problem.unreadable path e.message).unplaced)

/-- The operator table of an expression command, given what reading its overrides brings. -/
def tableOf : Option (String × Except FileError String) → Except Diagnostic OperatorTable
  | none => .ok .standard
  | some (path, content) => do
    let overrides ← Override.ofFile path content
    Override.adjust overrides .standard

/-- The report on a result that may be a diagnostic. -/
def conclude : Except Diagnostic String → Report
  | .ok text => ⟨0, text, ""⟩
  | .error d => ⟨1, "", showDiagnostic d⟩

/-- The report on a result that may have been cut short. -/
def concludeHalt {ε : Type} (message : ε → String) : Except (Halt ε) String → Report
  | .ok text => ⟨0, text, ""⟩
  | .error (.reported d) => ⟨1, "", showDiagnostic d⟩
  | .error (.fault e) => ⟨101, "", message e ++ "\n"⟩
  | .error .unfinished => ⟨101, "", "the search does not end\n"⟩

/-- The help text. -/
def helpText : String :=
  "Front end for the CBC language: tokens, grammar-built ASTs and precedence-climbed expressions.\n\n"
    ++ "Usage: cbc [OPTIONS] <COMMAND>\n\n"
    ++ "Commands:\n"
    ++ "  tokens <FILE>                                         Print every token with its position\n"
    ++ "  ast <FILE> [--json | --compact]                       Print the AST of a program\n"
    ++ "  expr <FILE> [--operators <FILE>] [--json | --compact] Print the AST of an expression\n"
    ++ "  parens <TEXT>                                         List the productions of parentheses\n\n"
    ++ "Options:\n"
    ++ "  -v, --verbose...  Log more\n"
    ++ "  -h, --help        Print help\n"
    ++ "  -V, --version     Print version\n"

/-- The version text. -/
def versionText : String := "cbc 0.1.0\n"

/-- The report when there is no command to run. -/
def concludeUsage (u : Usage) : Report :=
  match u with
  | .help => ⟨u.exitCode, helpText, ""⟩
  | .version => ⟨u.exitCode, versionText, ""⟩
  | _ => ⟨u.exitCode, "", helpText⟩

/-- Runs a command. The overrides of an expression are read and applied before its file is
    read. -/
def perform {m : Type → Type} [Monad m] (read : String → m (Except FileError String)) :
    Command → m Report
  | .tokens file => do
    let content ← read file
    return conclude do
      let source ← sourceOf file content
      return listTokens (← tokenize ⟨source, "lex"⟩)
  | .ast file form => do
    let content ← read file
    match sourceOf file content with
    | .error d => return conclude (.error d)
    | .ok source => return concludeHalt Fault.message ((parseProgram source).map (showTree form))
  | .expr file operators form => do
    let overrides ←
      match operators with
      | none => pure none
      | some path => do
        let content ← read path
        pure (some (path, content))
    match tableOf overrides with
    | .error d => return conclude (.error d)
    | .ok table => do
      let content ← read file
      return conclude do
        let source ← sourceOf file content
        return showTree form (← parseExpression source table)
  | .parens text =>
    return concludeHalt Empty.elim ((parseParentheses ⟨"<parens>", text⟩).map listRules)

/-- The log of a run: nothing unless it was asked for. -/
def logOf (a : Arguments) : String :=
  if a.verbosity = 0 then ""
  else
    match a.command with
    | .tokens file => "DEBUG tokens of " ++ file ++ "\n"
    | .ast file _ => "DEBUG tree of the program in " ++ file ++ "\n"
    | .expr file _ _ => "DEBUG tree of the expression in " ++ file ++ "\n"
    | .parens text => "DEBUG parentheses " ++ text ++ "\n"

/-- Runs the program. -/
def run {m : Type → Type} [Monad m] (read : String → m (Except FileError String))
    (args : List String) : m Report :=
  match Arguments.read args with
  | .error u => return concludeUsage u
  | .ok a => do
    let report ← perform read a.command
    return { report with errors := logOf a ++ report.errors }

end Frontend.CommandLine
