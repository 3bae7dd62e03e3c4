import IngestionQueue.Cli.Command
import IngestionQueue.Number.Literal

/-!
# Command-line arguments

Arguments are read from left to right, and the first one that is out of place ends the reading. An option
takes its value from the same argument, after an equals sign, or from the next one, which may not look like an
option. Each option is given once at most, and after `--` there are no options any more. Options that belong
to no command stand before the name of the command.
-/

namespace IngestionQueue.Cli

/-- Why arguments are not a command to run. -/
inductive Stop
  | help
  | version
  | usage
  deriving DecidableEq, Repr

structure OptionSpec where
  name : String
  short : Option Char
  deriving DecidableEq, Repr

def OptionSpec.long (name : String) : OptionSpec := ⟨name, none⟩

/-- The options and the names of the positional arguments of a command, and which values they take. -/
structure Spec where
  options : List OptionSpec
  positionals : List String
  accepts : String → String → Bool

/-- The values that were given, by name. -/
abbrev Values := List (String × String)

def Values.get? (vs : Values) (name : String) : Option String :=
  (List.find? (fun v => v.1 == name) vs).map Prod.snd

/-- A value that was not given has to be. -/
def Values.require (vs : Values) (name : String) : Except Stop String :=
  match vs.get? name with
  | some v => .ok v
  | none => .error .usage

namespace Spec

/-- Adds the value of an option or a positional argument. -/
def add (s : Spec) (name value : String) (vs : Values) : Except Stop Values :=
  if (vs.get? name).isSome || !s.accepts name value then .error .usage else .ok (vs ++ [(name, value)])

/-- Adds a value to the first positional argument that has none. -/
def addPositional (s : Spec) (value : String) (vs : Values) : Except Stop Values :=
  match s.positionals.find? fun p => (vs.get? p).isNone with
  | some name => s.add name value vs
  | none => .error .usage

end Spec

/-- Whether an argument looks like an option; a dash alone does not. -/
def isOption (arg : String) : Bool :=
  arg.toList.head? == some '-' && arg != "-"

/-- One argument on its own: a word, the end of the options, or an option with what is attached to it. -/
inductive Token
  | word (value : String)
  | endOfOptions
  | long (name : String) (attached : Option String)
  | short (letter : Char) (attached : Option String)
  deriving DecidableEq, Repr

def Token.ofArgument (arg : String) : Token :=
  match arg.toList with
  | ['-', '-'] => .endOfOptions
  | '-' :: '-' :: rest =>
    let name := String.ofList (rest.takeWhile (· != '='))
    match rest.dropWhile (· != '=') with
    | [] => .long name none
    | _ :: value => .long name (some (String.ofList value))
  | '-' :: c :: rest =>
    match rest with
    | [] => .short c none
    | '=' :: value => .short c (some (String.ofList value))
    | value => .short c (some (String.ofList value))
  | _ => .word arg

/-- The option that a token names. -/
def Spec.option? (s : Spec) : Token → Option (String × Option String)
  | .long name attached => (s.options.find? fun o => o.name == name).map fun o => (o.name, attached)
  | .short letter attached =>
    (s.options.find? fun o => o.short == some letter).map fun o => (o.name, attached)
  | _ => none

/-- A flag that ends the reading; a long one takes no value. -/
def Token.stop? : Token → Option Stop
  | .long "help" none => some .help
  | .short 'h' _ => some .help
  | _ => none

def readPositionals (s : Spec) : List String → Values → Except Stop Values
  | [], vs => .ok vs
  | arg :: rest, vs => do readPositionals s rest (← s.addPositional arg vs)

/-- Reads the arguments of a command. -/
def readArguments (s : Spec) : Nat → List String → Values → Except Stop Values
  | _, [], vs => .ok vs
  | 0, _, _ => .error .usage
  | fuel + 1, arg :: rest, vs => do
    let token := Token.ofArgument arg
    match token with
    | .endOfOptions => readPositionals s rest vs
    | .word value => readArguments s fuel rest (← s.addPositional value vs)
    | token =>
      match s.option? token, token.stop? with
      | some (name, some value), _ => readArguments s fuel rest (← s.add name value vs)
      | some (name, none), _ =>
        match rest with
        | value :: rest =>
          if isOption value then .error .usage else readArguments s fuel rest (← s.add name value vs)
        | [] => .error .usage
      | none, some stop => .error stop
      | none, none => .error .usage

/-- A command with its arguments. -/
structure Subcommand where
  name : String
  spec : Spec
  build : Values → Except Stop Command

def anyValue (_ _ : String) : Bool := true

def scopeOptions : List OptionSpec := [.long "tenant", .long "workspace", .long "kb"]

def scopeOf (vs : Values) : Except Stop Scope := do
  return ⟨← vs.require "tenant", ← vs.require "workspace", ← vs.require "kb"⟩

/-- How many jobs are listed unless a limit is given. -/
def defaultLimit : String := "20"

def subcommands : List Subcommand := [
  ⟨"enqueue",
    ⟨scopeOptions ++ [.long "document", .long "version", .long "action", .long "idempotency-key"], [],
      anyValue⟩,
    fun vs => do
      return .enqueue (← scopeOf vs) (← vs.require "document") (← vs.require "version")
        ((vs.get? "action").getD IngestAction.upload.name) (vs.get? "idempotency-key")⟩,
  ⟨"upload",
    ⟨scopeOptions ++ [.long "name", .long "idempotency-key"], ["file"],
      fun name value => name != "file" || !value.isEmpty⟩,
    fun vs => do
      return .upload (← vs.require "file") (← scopeOf vs) (vs.get? "name") (vs.get? "idempotency-key")⟩,
  ⟨"reindex",
    ⟨[.long "tenant", .long "document", .long "idempotency-key"], [], anyValue⟩,
    fun vs => do
      return .reindex (← vs.require "tenant") (← vs.require "document") (vs.get? "idempotency-key")⟩,
  ⟨"job",
    ⟨[.long "tenant"], ["job_id"], anyValue⟩,
    fun vs => do return .job (← vs.require "job_id") (vs.get? "tenant")⟩,
  ⟨"stats", ⟨[], [], anyValue⟩, fun _ => .ok .stats⟩,
  ⟨"dead-letters",
    ⟨[⟨"limit", some 'n'⟩], [], fun _ value => (Literal.int64? value.toList).isSome⟩,
    fun vs =>
      match Literal.int64? ((vs.get? "limit").getD defaultLimit).toList with
      | some n => .ok (.deadLetters n)
      | none => .error .usage⟩]

def subcommand? (name : String) : Option Subcommand :=
  subcommands.find? fun c => c.name == name

/-- A command, and the address of the server if one is given. -/
structure Invocation where
  rpcUrl : Option String
  command : Command
  deriving DecidableEq, Repr

/-- Asking for help, on one command or on all of them. -/
def helpOn : List String → Stop
  | [] => .help
  | [name] => if name == "help" || (subcommand? name).isSome then .help else .usage
  | _ => .usage

/-- Reads the arguments from the options before the command on. -/
def readInvocation : Nat → List String → Option String → Except Stop Invocation
  | _, [], _ => .error .usage
  | 0, _, _ => .error .usage
  | fuel + 1, arg :: rest, url =>
    match Token.ofArgument arg with
    | .word "help" => .error (helpOn rest)
    | .word name =>
      match subcommand? name with
      | some c => do
        let vs ← readArguments c.spec rest.length rest []
        return ⟨url, ← c.build vs⟩
      | none => .error .usage
    | .endOfOptions => .error .usage
    | .long "rpc-url" attached =>
      if url.isSome then .error .usage
      else match attached, rest with
        | some value, rest => readInvocation fuel rest (some value)
        | none, value :: rest =>
          if isOption value then .error .usage else readInvocation fuel rest (some value)
        | none, [] => .error .usage
    | .long "version" none => .error .version
    | .short 'V' _ => .error .version
    | token => .error (token.stop?.getD .usage)

def Invocation.ofArguments (args : List String) : Except Stop Invocation :=
  readInvocation args.length args none

end IngestionQueue.Cli
