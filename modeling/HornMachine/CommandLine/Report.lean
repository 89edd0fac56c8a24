import HornMachine.CommandLine.Options
import HornMachine.CommandLine.Toml.Document
import HornMachine.Engine.Build

/-!
# Command-line reports

A run loads the settings, then the source, prints what it holds, saturates it, prints what was
derived, and solves the goals one after another. What was printed before an error stays printed.
The exit code tells a fixpoint from a run stopped by the limit on rounds, an error and misuse.
-/

namespace HornMachine.CommandLine

/-- Why a file cannot be read. -/
inductive ReadFailure where
  | missing
  | other (message : String)
deriving DecidableEq

/-- The wording of each failure. -/
def ReadFailure.message : ReadFailure → String
  | missing => "No such file or directory (os error 2)"
  | other text => text

/-- Why a run ends with an error. -/
inductive RunError where
  | configFile (path : String) (cause : ReadFailure)
  | config (issue : ConfigIssue)
  | input (path : Option String) (cause : ReadFailure)
  | source (error : EngineError) (symbols : SymbolTable)
  | attempt (error : AttemptError)

namespace RunError

/-- The message of an error. -/
def message : RunError → String
  | configFile path cause => "failed to read config file " ++ path ++ ": " ++ cause.message
  | config issue => issue.message
  | input path _ => "failed to read " ++ path.getD "stdin"
  | source _ _ => "failed to load rule source"
  | attempt error => error.message

/-- The cause of an error, if it is told apart from the message. -/
def cause? : RunError → Option String
  | configFile _ cause => some cause.message
  | input _ cause => some cause.message
  | source error symbols => some (error.message symbols)
  | config _ | attempt _ => none

/-- The message with the cause below it. -/
def text (error : RunError) : String :=
  "Error: " ++ error.message ++ "\n" ++
    match error.cause? with
    | some cause => "\nCaused by:\n    " ++ cause ++ "\n"
    | none => ""

end RunError

/-- What a run leaves behind. -/
structure Report where
  exitCode : Nat
  output : String := ""
  errors : String := ""
deriving DecidableEq

namespace Report

/-- The exit code of an error. -/
def errorCode : Nat := 1

/-- The exit code of misuse. -/
def misuseCode : Nat := 2

/-- The exit code of a run that has no fixpoint within the limit on rounds. -/
def roundLimitCode : Nat := 3

/-- Printed lines, each with its end. -/
def ofLines (lines : List String) : String := String.join (lines.map (· ++ "\n"))

/-- The report of an error after some lines. -/
def ofError (lines : List String) (error : RunError) : Report :=
  { exitCode := errorCode, output := ofLines lines, errors := error.text }

end Report

/-- Name and version as they are printed. -/
def title : String := "geowam 0.1.0"

/-- The shape of the command line of a program that was called by `name`. -/
def usage (name : String) : String := "Usage: " ++ name ++ " [OPTIONS] [INPUT]"

/-- The description of the command line of a program that was called by `name`. -/
def helpLines (name : String) : List String :=
  ["Forward deduction over geometric facts with a WAM-style machine",
    "",
    usage name,
    "",
    "Arguments:",
    "  [INPUT]  Rule and fact file; reads stdin when omitted",
    "",
    "Options:",
    "  -c, --config <CONFIG>          Engine configuration (TOML)",
    "      --occurs-check             " ++
      "Check that variables do not occur in the terms they are bound to",
    "      --max-rounds <MAX_ROUNDS>  Saturation rounds before giving up on a fixpoint",
    "      --max-steps <MAX_STEPS>    " ++
      "Instruction budget per derivation attempt (0 = unlimited)",
    "      --sequential               Run derivation attempts one after another",
    "      --listing                  Print the compiled code of every rule",
    "  -v, --verbose                  Enable verbose logging (debug level)",
    "  -h, --help                     Print help",
    "  -V, --version                  Print version"]

/-- What an engine holds. -/
def contentLines (engine : Engine) : List String :=
  [title,
    "  " ++ toString engine.store.size ++ " facts, " ++ toString engine.program.size ++
      " rules, " ++ toString engine.goals.length ++ " goals",
    ""]

/-- The compiled code, if it is asked for. -/
def listingLines (options : Options) (engine : Engine) : List String :=
  if options.listing then [engine.program.listing engine.symbols, ""] else []

/-- What a saturation has done. -/
def saturationLines (symbols : SymbolTable) (saturation : Saturation) : List String :=
  [(if saturation.fixpoint then "FIXPOINT after " else "ROUND LIMIT reached after ") ++
      toString saturation.rounds ++ " rounds",
    "Derived " ++ toString saturation.newFacts.length ++ " facts:"] ++
  saturation.newFacts.map (fun fact ↦ "  " ++ fact.text symbols ++ ".") ++
  saturation.aborted.map fun rule ↦ "  (aborted: " ++ rule.text ++ ")"

/-- The answers to a goal. -/
def answerLines (symbols : SymbolTable) : Derivation → List String
  | .exhausted => ["  no"]
  | .derived _ solutions => solutions.map fun solution ↦ "  " ++ solution.head.text symbols

/-- Solve goals in order, up to the first whose attempts are broken off: the lines printed after
`printed`, and the engine. -/
def solveAll (engine : Engine) (printed : List String) :
    List Term → List String × Except AttemptError Engine
  | [] => (printed, .ok engine)
  | goal :: goals =>
    let printed := printed ++ ["", "?- " ++ goal.text engine.symbols ++ "."]
    match engine.solve goal with
    | (.error error, _) => (printed, .error error)
    | (.ok derivation, engine) =>
      solveAll engine (printed ++ answerLines engine.symbols derivation) goals

/-- The counters of an engine. -/
def statisticsLines (engine : Engine) : List String := ["", "Statistics:", engine.stats.text]

/-- Saturate an engine, solve its goals and report both. -/
def deduce (options : Options) (engine : Engine) : Report :=
  let begun := contentLines engine ++ listingLines options engine
  match engine.saturate with
  | (.error error, _) => .ofError begun (.attempt error)
  | (.ok saturation, engine) =>
    let derived := begun ++ saturationLines engine.symbols saturation
    match solveAll engine derived engine.goals with
    | (printed, .error error) => .ofError printed (.attempt error)
    | (printed, .ok engine) =>
      { exitCode := if saturation.fixpoint then 0 else Report.roundLimitCode
        output := Report.ofLines (printed ++ statisticsLines engine) }

/-- Build an engine from a source and run it. -/
def execute (options : Options) (config : Config) (text : String) : Report :=
  match Engine.ofText config .empty text with
  | (.error error, symbols) => .ofError [] (.source error symbols)
  | (.ok engine, _) => deduce options engine

/-- The settings of a run, given the text of the file with settings if one is named. -/
def settings (decode : Config.Decoder) (options : Options) :
    Option (String × Except ReadFailure String) → Except RunError Config
  | none => .ok (options.override {})
  | some (path, .error cause) => .error (.configFile path cause)
  | some (_, .ok text) => ((Config.readWith decode text).mapError .config).map options.override

/-- Answer a command line, given a decoder of settings and a way to read files and standard input.
The program has a fixed title, but its usage tells the name it was called by. The settings are read,
and refused, before the source. -/
def respondWith {m : Type → Type} [Monad m] (decode : Config.Decoder)
    (readFile : String → m (Except ReadFailure String)) (readInput : m (Except ReadFailure String))
    (name : String) (args : List String) : m Report := do
  match parse args with
  | .help => pure { exitCode := 0, output := Report.ofLines (helpLines name) }
  | .version => pure { exitCode := 0, output := Report.ofLines [title] }
  | .misuse => pure { exitCode := Report.misuseCode, errors := Report.ofLines [usage name] }
  | .run options =>
    let file ← match options.config with
      | none => pure none
      | some path => do
        let text ← readFile path
        pure (some (path, text))
    match settings decode options file with
    | .error error => pure (.ofError [] error)
    | .ok config =>
      let text ← match options.input with
        | some path => readFile path
        | none => readInput
      match text with
      | .error cause => pure (.ofError [] (.input options.input cause))
      | .ok text => pure (execute options config text)

/-- Answer a command line whose file with settings is a TOML text. -/
def respond {m : Type → Type} [Monad m] (readFile : String → m (Except ReadFailure String))
    (readInput : m (Except ReadFailure String)) (name : String) (args : List String) : m Report :=
  respondWith Toml.decode readFile readInput name args

end HornMachine.CommandLine

namespace HornMachine

/-- Read settings from a TOML text and check them. -/
def Config.read (text : String) : Except ConfigIssue Config := readWith CommandLine.Toml.decode text

end HornMachine
