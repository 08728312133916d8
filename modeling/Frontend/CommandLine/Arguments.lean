/-!
# Command-line arguments

The program has four commands, `tokens`, `ast`, `expr` and `parens`, each with one positional
argument, and options of its own after its name. Before the name only `-v`, `-h` and `-V` may
stand, with their long forms. `--` ends the options.

An argument that takes a value, whether positional or after `--operators`, is checked when the
next argument has been recognised or at the end, not at once; until then it is `Pending`. So an
argument that nobody knows is reported first.
-/

namespace Frontend.CommandLine

/-- How a tree is written. -/
structure TreeForm where
  /-- As JSON. -/
  json : Bool
  /-- On one line. -/
  compact : Bool
deriving DecidableEq

/-- What the program is asked to do. -/
inductive Command where
  /-- List the tokens of a file. -/
  | tokens (file : String)
  /-- Show the tree of a program. -/
  | ast (file : String) (form : TreeForm)
  /-- Show the tree of an expression, possibly with operator overrides from another file. -/
  | expr (file : String) (operators : Option String) (form : TreeForm)
  /-- Derive balanced parentheses. -/
  | parens (text : String)
deriving DecidableEq

/-- A command and how much to log about it. -/
structure Arguments where
  verbosity : Nat
  command : Command
deriving DecidableEq

/-- Why there is no command to run. -/
inductive Usage where
  /-- Help was asked for. -/
  | help
  /-- The version was asked for. -/
  | version
  /-- There are no arguments at all. -/
  | noArguments
  /-- There are options but no command. -/
  | noCommand
  | unknownCommand
  | unknownArgument
  | missingArgument
  | invalidValue
  | conflict
  | tooManyValues
deriving DecidableEq

/-- The exit code: asking for help or the version is no mistake. -/
def Usage.exitCode : Usage → Nat
  | help => 0
  | version => 0
  | _ => 2

/-- The names of the commands. -/
inductive Name where
  | tokens
  | ast
  | expr
  | parens
deriving DecidableEq

namespace Name

/-- The command with the given name. -/
def ofString? : String → Option Name
  | "tokens" => some tokens
  | "ast" => some ast
  | "expr" => some expr
  | "parens" => some parens
  | _ => none

/-- Whether a command shows a tree, and so takes the options for its form. -/
def showsTree : Name → Bool
  | ast => true
  | expr => true
  | _ => false

/-- Whether the positional argument of a command is a file, and so may not be empty. -/
def takesFile : Name → Bool
  | parens => false
  | _ => true

end Name

/-- An argument of which the value has not been checked. -/
inductive Pending where
  | nothing
  /-- The positional argument. -/
  | positional (value : String)
  /-- The option `--operators`, with its value once that has come. -/
  | operators (value : Option String)
deriving DecidableEq

/-- The arguments of a command read so far. -/
structure Given where
  positional : Option String
  operators : Option String
  json : Bool
  compact : Bool
  verbosity : Nat
  pending : Pending
  /-- Whether the positional argument has come, checked or not. -/
  filled : Bool
deriving DecidableEq

/-- Nothing read yet. -/
def Given.nothing : Given := ⟨none, none, false, false, 0, .nothing, false⟩

/-- The verbosity after one more `-v`; it does not get above what fits in eight bits. -/
def louder (n : Nat) : Nat := min (n + 1) 255

namespace Given

/-- Checks the pending argument. -/
def settle (name : Name) (g : Given) : Except Usage Given :=
  match g.pending with
  | .nothing => .ok g
  | .positional value =>
    if name.takesFile && value.isEmpty then .error .invalidValue
    else .ok { g with positional := some value, pending := .nothing }
  | .operators none => .error .invalidValue
  | .operators (some value) =>
    if g.operators.isSome then .error .conflict
    else if value.isEmpty then .error .invalidValue
    else .ok { g with operators := some value, pending := .nothing }

/-- Takes a word that is no option: the value that `--operators` waits for, or else the
    positional argument, of which there is one. -/
def word (name : Name) (g : Given) (value : String) (onlyPositional : Bool) :
    Except Usage Given :=
  if g.pending = .operators none && !onlyPositional then
    .ok { g with pending := .operators (some value) }
  else if g.filled then .error .unknownArgument
  else do
    let g ← g.settle name
    return { g with pending := .positional value, filled := true }

/-- Takes a long option with the value attached to it, if any. -/
def long (name : Name) (g : Given) (option : String) (value : Option String) :
    Except Usage Given :=
  let flag := fun (set : Given → Except Usage Given) =>
    if value.isSome then .error .tooManyValues else (g.settle name).bind set
  match option with
  | "verbose" => flag fun g => .ok { g with verbosity := louder g.verbosity }
  | "help" => flag fun _ => .error .help
  | "json" =>
    if name.showsTree then
      flag fun g => if g.json then .error .conflict else .ok { g with json := true }
    else .error .unknownArgument
  | "compact" =>
    if name.showsTree then
      flag fun g => if g.compact then .error .conflict else .ok { g with compact := true }
    else .error .unknownArgument
  | "operators" =>
    if name = .expr then do
      let g ← g.settle name
      match value with
      | none => return { g with pending := .operators none }
      | some v => settle name { g with pending := .operators (some v) }
    else .error .unknownArgument
  | _ => .error .unknownArgument

/-- Takes short options, one for each character. -/
def short (name : Name) (g : Given) : List Char → Except Usage Given
  | [] => .ok g
  | 'v' :: cs => do
    let g ← g.settle name
    short name { g with verbosity := louder g.verbosity } cs
  | 'h' :: _ => do
    let _ ← g.settle name
    .error .help
  | _ => .error .unknownArgument

/-- The command that the arguments make up. -/
def toCommand (name : Name) (g : Given) : Except Usage Command :=
  if g.json && g.compact then .error .conflict
  else
    match g.positional with
    | none => .error .missingArgument
    | some value =>
      .ok
        (match name with
        | .tokens => .tokens value
        | .ast => .ast value ⟨g.json, g.compact⟩
        | .expr => .expr value g.operators ⟨g.json, g.compact⟩
        | .parens => .parens value)

end Given

/-- An argument by its form. -/
inductive Form where
  /-- The mark `--`. -/
  | endOfOptions
  /-- An option such as `--name` or `--name=value`. -/
  | long (name : String) (value : Option String)
  /-- Options of one character each, such as `-abc`. -/
  | short (flags : List Char)
  /-- Anything else. -/
  | word
deriving DecidableEq

/-- The form of an argument. A single `-` is a word. -/
def Form.of (arg : String) : Form :=
  match arg.toList with
  | ['-', '-'] => .endOfOptions
  | '-' :: '-' :: cs =>
    let name := String.ofList (cs.takeWhile (· != '='))
    match cs.dropWhile (· != '=') with
    | [] => .long name none
    | _ :: value => .long name (some (String.ofList value))
  | '-' :: c :: cs => .short (c :: cs)
  | _ => .word

/-- Reads the arguments after the name of a command; `onlyWords` says whether the options have
    ended. -/
def readCommand (name : Name) (g : Given) (onlyWords : Bool) :
    List String → Except Usage Given
  | [] => g.settle name
  | arg :: args => do
    if onlyWords then
      readCommand name (← g.word name arg true) true args
    else
      match Form.of arg with
      | .endOfOptions => readCommand name g true args
      | .long option value => readCommand name (← g.long name option value) false args
      | .short flags => readCommand name (← g.short name flags) false args
      | .word => readCommand name (← g.word name arg false) false args

/-- Takes short options before any command. -/
def shortBefore (verbosity : Nat) : List Char → Except Usage Nat
  | [] => .ok verbosity
  | 'v' :: cs => shortBefore (louder verbosity) cs
  | 'h' :: _ => .error .help
  | 'V' :: _ => .error .version
  | _ => .error .unknownArgument

/-- Takes a long option before any command. -/
def longBefore (verbosity : Nat) (option : String) (value : Option String) : Except Usage Nat :=
  let flag := fun (result : Except Usage Nat) =>
    if value.isSome then .error .tooManyValues else result
  match option with
  | "verbose" => flag (.ok (louder verbosity))
  | "help" => flag (.error .help)
  | "version" => flag (.error .version)
  | _ => .error .unknownArgument

/-- Whether a word names a command; `help` counts as one. -/
def isCommand (word : String) : Bool := (Name.ofString? word).isSome || word == "help"

/-- What is asked for after `help`: help, possibly on one command. -/
def helpOn : List String → Usage
  | [] => .help
  | [word] => if isCommand word then .help else .unknownCommand
  | _ => .unknownCommand

/-- What is wrong with a word that comes after `--` where a command is wanted: the name of a
    command may not stand there, and any other word is not a command. -/
def notAfterMark (word : String) : Usage :=
  if isCommand word then .unknownArgument else .unknownCommand

/-- Reads the arguments; the verbosity so far is `verbosity`. The verbosity given after the name
    of the command, if any, replaces the one before it. -/
def readFrom (verbosity : Nat) : List String → Except Usage Arguments
  | [] => .error (if verbosity = 0 then .noArguments else .noCommand)
  | arg :: args =>
    match Name.ofString? arg with
    | some name => do
      let g ← readCommand name .nothing false args
      let command ← g.toCommand name
      return ⟨if g.verbosity = 0 then verbosity else g.verbosity, command⟩
    | none =>
      if arg = "help" then .error (helpOn args)
      else
        match Form.of arg with
        | .endOfOptions =>
          match args with
          | [] => .error (if verbosity = 0 then .noArguments else .noCommand)
          | word :: _ => .error (notAfterMark word)
        | .long option value => do
          readFrom (← longBefore verbosity option value) args
        | .short flags => do
          readFrom (← shortBefore verbosity flags) args
        | .word => .error .unknownCommand

/-- Reads the arguments of the program. -/
def Arguments.read (args : List String) : Except Usage Arguments := readFrom 0 args

end Frontend.CommandLine
