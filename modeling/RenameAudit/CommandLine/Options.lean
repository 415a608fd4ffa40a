import RenameAudit.Text.Split
/-!
# CommandLine.Options — what the arguments ask for

An option with a value has it in the next argument, which must not look like an option, or after an equals sign.  Only the
options for libraries and tasks may be given again.  Asking for help or for the version ends the reading.
-/
namespace RenameAudit

/-- The options of a run. -/
structure Options where
  jar : Option String
  map : Option String
  libraries : List String
  libraryList : Option String
  constructors : Option String
  suffixes : Option String
  tasks : List String
  config : Option String
  log : Option String
  verbose : Bool
  json : Bool
  deriving DecidableEq, Repr

/-- What the arguments ask for. -/
inductive Request where
  | run (jar map : String) (options : Options)
  | help
  | version
  deriving DecidableEq, Repr

/-- Why arguments are refused. -/
inductive UsageFault where
  | unknown (argument : String)
  | valueMissing (option : String)
  | valueUnexpected (option : String)
  | repeated (option : String)
  | optionMissing (option : String)
  deriving DecidableEq, Repr

/-- The words of the report. -/
def UsageFault.message : UsageFault → String
  | unknown argument => "unexpected argument '" ++ argument ++ "' found"
  | valueMissing option => "a value is required for '" ++ option ++ "' but none was supplied"
  | valueUnexpected option => "unexpected value for '" ++ option ++ "' found; no more were expected"
  | repeated option => "the argument '" ++ option ++ "' cannot be used multiple times"
  | optionMissing option => "the following required argument was not provided: " ++ option

namespace Options

/-- No options. -/
def none : Options where
  jar := .none
  map := .none
  libraries := []
  libraryList := .none
  constructors := .none
  suffixes := .none
  tasks := []
  config := .none
  log := .none
  verbose := false
  json := false

/-- What an argument can be. -/
inductive Kind where
  /-- An option with a value; the value is `none` where the option has one already. -/
  | valued (set : String → Options → Option Options)
  /-- An option without a value. -/
  | flag (set : Options → Option Options)
  /-- A question to answer instead of a run. -/
  | question (answer : Request)

/-- Sets what must not be set before; a path is never empty. -/
def once (get : Options → Option String) (set : String → Options → Options) : Kind :=
  .valued fun value o => if (get o).isNone then some (set value o) else .none

/-- The options by their names. -/
def kind? : String → Option Kind
  | "--jar" => some (once (·.jar) fun v o => { o with jar := some v })
  | "--map" => some (once (·.map) fun v o => { o with map := some v })
  | "--lib" => some (.valued fun v o => some { o with libraries := o.libraries ++ [v] })
  | "--libs" => some (once (·.libraryList) fun v o => { o with libraryList := some v })
  | "--ctrs" => some (once (·.constructors) fun v o => { o with constructors := some v })
  | "--suffixes" => some (once (·.suffixes) fun v o => { o with suffixes := some v })
  | "--task" => some (.valued fun v o => some { o with tasks := o.tasks ++ [v] })
  | "--config" => some (once (·.config) fun v o => { o with config := some v })
  | "--log" => some (once (·.log) fun v o => { o with log := some v })
  | "--verbose" | "-v" => some (.flag fun o => if o.verbose then .none else some { o with verbose := true })
  | "--json" => some (.flag fun o => if o.json then .none else some { o with json := true })
  | "--help" | "-h" => some (.question .help)
  | "--version" | "-V" => some (.question .version)
  | _ => .none

/-- Whether an argument looks like an option: it is a hyphen and something after it. -/
def looksLikeOption (argument : String) : Bool :=
  Text.startsWith "-" argument.toList && argument != "-"

/-- Whether an option may have the empty text for its value: only the name of a task, for all others are paths. -/
def mayBeEmpty (name : String) : Bool :=
  name == "--task"

/-- The options with one more value. -/
def give (name value : String) (set : String → Options → Option Options) (o : Options) :
    Except UsageFault Options :=
  if value = "" ∧ !mayBeEmpty name then .error (.valueMissing name)
  else
    match set value o with
    | some o => .ok o
    | .none => .error (.repeated name)

/-- The name and the value of an argument with an equals sign. -/
def splitValue (argument : String) : String × Option String :=
  match argument.toList.dropWhile (· != '=') with
  | _ :: value => (String.ofList (argument.toList.takeWhile (· != '=')), some (String.ofList value))
  | [] => (argument, .none)

/-- The options of one argument: one with two hyphens, or a letter for each after one hyphen. -/
def namesOf (argument : String) : List String :=
  match argument.toList with
  | '-' :: '-' :: _ => [argument]
  | '-' :: letters => letters.map fun c => String.ofList ['-', c]
  | _ => [argument]

/-- What flags and questions say, up to the first question. -/
def readFlags : List String → Options → Except UsageFault (Options × Option Request)
  | [], o => .ok (o, .none)
  | name :: names, o =>
    match kind? name with
    | some (.flag set) =>
      match set o with
      | some o => readFlags names o
      | .none => .error (.repeated name)
    | some (.question answer) => .ok (o, some answer)
    | _ => .error (.unknown name)

/-- A run with the options that it needs. -/
def finish (o : Options) : Except UsageFault Request :=
  match o.jar, o.map with
  | some jar, some map => .ok (.run jar map o)
  | .none, _ => .error (.optionMissing "--jar <JAR>")
  | _, .none => .error (.optionMissing "--map <MAP>")

/-- What arguments ask for, after options that have been read. -/
def read : List String → Options → Except UsageFault Request
  | [], o => finish o
  | "--" :: rest, o =>
    match rest with
    | [] => finish o
    | argument :: _ => .error (.unknown argument)
  | argument :: rest, o =>
    let (name, value) := splitValue argument
    match kind? name, Text.startsWith "--" name.toList, value with
    | some (.valued set), _, some value => do read rest (← give name value set o)
    | some (.valued set), _, .none =>
      match rest with
      | value :: rest => if looksLikeOption value then .error (.valueMissing name) else do read rest (← give name value set o)
      | [] => .error (.valueMissing name)
    | some _, true, some _ => .error (.valueUnexpected name)
    | _, _, _ =>
      if looksLikeOption argument then do
        match ← readFlags (namesOf argument) o with
        | (_, some answer) => .ok answer
        | (o, .none) => read rest o
      else .error (.unknown argument)

/-- What arguments ask for. -/
def parse (arguments : List String) : Except UsageFault Request :=
  read arguments none

end Options
end RenameAudit
