import HornMachine.Config
import HornMachine.Text.Integer

/-!
# Command-line options

Arguments are taken from left to right. Switches have a long name and some a letter; letters can be
written together. A parameter takes its value from the same argument, after an equals sign or right
after its letter, or from the next argument. Asking for help or the version counts as soon as it is
met, and so does the first mistake; no option may be given twice. After `--` only operands follow.
-/

namespace HornMachine.CommandLine

/-- What the command line asks of a run. -/
structure Options where
  /-- Rule and fact file; standard input if there is none. -/
  input : Option String := none
  config : Option String := none
  occursCheck : Bool := false
  maxRounds : Option Nat := none
  maxSteps : Option Nat := none
  sequential : Bool := false
  listing : Bool := false
  verbose : Bool := false
deriving DecidableEq

/-- What a command line asks for. -/
inductive Request where
  | run (options : Options)
  | help
  | version
  | misuse
deriving DecidableEq

/-- An option without a value. -/
inductive Switch where
  | occursCheck
  | sequential
  | listing
  | verbose
  | help
  | version
deriving DecidableEq

/-- An option with a value. -/
inductive Parameter where
  | config
  | maxRounds
  | maxSteps
deriving DecidableEq

/-- The option with a long name. -/
def option? : String → Option (Switch ⊕ Parameter)
  | "occurs-check" => some (.inl .occursCheck)
  | "sequential" => some (.inl .sequential)
  | "listing" => some (.inl .listing)
  | "verbose" => some (.inl .verbose)
  | "help" => some (.inl .help)
  | "version" => some (.inl .version)
  | "config" => some (.inr .config)
  | "max-rounds" => some (.inr .maxRounds)
  | "max-steps" => some (.inr .maxSteps)
  | _ => none

/-- The option with a letter. -/
def optionLetter? : Char → Option (Switch ⊕ Parameter)
  | 'v' => some (.inl .verbose)
  | 'h' => some (.inl .help)
  | 'V' => some (.inl .version)
  | 'c' => some (.inr .config)
  | _ => none

/-- Where reading the arguments stands after one of them. -/
inductive Step where
  | stop (request : Request)
  | goOn (options : Options)
  | await (options : Options) (parameter : Parameter)
  | operandsOnly (options : Options)
deriving DecidableEq

namespace Options

/-- The largest number that a parameter can have. -/
def maxCount : Nat := 0xFFFFFFFFFFFFFFFF

/-- Set a value that has none yet. -/
def fill {α : Type} (old new : Option α) : Option (Option α) :=
  if old.isSome then none else new.map some

/-- Set a switch. -/
def turnOn (options : Options) : Switch → Step
  | .help => .stop .help
  | .version => .stop .version
  | .occursCheck =>
    if options.occursCheck then .stop .misuse else .goOn { options with occursCheck := true }
  | .sequential =>
    if options.sequential then .stop .misuse else .goOn { options with sequential := true }
  | .listing => if options.listing then .stop .misuse else .goOn { options with listing := true }
  | .verbose => if options.verbose then .stop .misuse else .goOn { options with verbose := true }

/-- A path is any text that is not empty. -/
def path? (text : String) : Option String := if text.isEmpty then none else some text

/-- Give a parameter its value. -/
def assign (options : Options) (parameter : Parameter) (value : String) : Step :=
  let count := Text.readNat? maxCount value.toList
  let assigned : Option Options := match parameter with
    | .config => (fill options.config (path? value)).map ({ options with config := · })
    | .maxRounds => (fill options.maxRounds count).map ({ options with maxRounds := · })
    | .maxSteps => (fill options.maxSteps count).map ({ options with maxSteps := · })
  match assigned with
  | some options => .goOn options
  | none => .stop .misuse

/-- Take the operand, of which there is at most one. -/
def operand (options : Options) (text : String) : Step :=
  match fill options.input (path? text) with
  | some input => .goOn { options with input }
  | none => .stop .misuse

/-- Take an argument that starts with two dashes, given what follows them. -/
def long (options : Options) (text : List Char) : Step :=
  let name := String.ofList (text.takeWhile (· ≠ '='))
  match option? name, text.dropWhile (· ≠ '=') with
  | some (.inl switch), [] => options.turnOn switch
  | some (.inr parameter), [] => .await options parameter
  | some (.inr parameter), _ :: value => options.assign parameter (String.ofList value)
  | _, _ => .stop .misuse

/-- Take the letters of an argument that starts with one dash. -/
def letters (options : Options) : List Char → Step
  | [] => .goOn options
  | letter :: rest =>
    match optionLetter? letter with
    | none => .stop .misuse
    | some (.inl switch) =>
      match options.turnOn switch with
      | .goOn options => options.letters rest
      | step => step
    | some (.inr parameter) =>
      match rest with
      | [] => .await options parameter
      | '=' :: value => options.assign parameter (String.ofList value)
      | value => options.assign parameter (String.ofList value)

/-- Take an argument. -/
def take (options : Options) (arg : String) : Step :=
  match arg.toList with
  | ['-', '-'] => .operandsOnly options
  | '-' :: '-' :: text => options.long text
  | ['-'] => options.operand arg
  | '-' :: text => options.letters text
  | _ => options.operand arg

/-- Take operands to the end. -/
def operands (options : Options) : List String → Request
  | [] => .run options
  | arg :: args =>
    match options.operand arg with
    | .goOn options => options.operands args
    | _ => .misuse

/-- Whether an argument can be a value: it does not start with a dash, or is nothing else. -/
def isValue (arg : String) : Bool := arg = "-" || arg.toList.head? ≠ some '-'

/-- Take an argument where a parameter may await its value. -/
def takeFor (options : Options) (awaiting : Option Parameter) (arg : String) : Step :=
  match awaiting with
  | some parameter => if isValue arg then options.assign parameter arg else .stop .misuse
  | none => options.take arg

/-- Take arguments to the end; a parameter may await its value. -/
def parseFrom (options : Options) (awaiting : Option Parameter) : List String → Request
  | [] => if awaiting.isSome then .misuse else .run options
  | arg :: args =>
    match options.takeFor awaiting arg with
    | .stop request => request
    | .goOn options => options.parseFrom none args
    | .await options parameter => options.parseFrom (some parameter) args
    | .operandsOnly options => options.operands args

/-- The settings that the options ask for, given those configured. -/
def override (options : Options) (config : Config) : Config :=
  { config with
    occursCheck := if options.occursCheck then .on else config.occursCheck
    maxRounds := options.maxRounds.getD config.maxRounds
    maxSteps := options.maxSteps.getD config.maxSteps
    parallel := config.parallel && !options.sequential }

end Options

/-- What the arguments ask for. -/
def parse (args : List String) : Request := Options.parseFrom {} none args

end HornMachine.CommandLine
