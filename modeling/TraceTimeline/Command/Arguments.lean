import TraceTimeline.Command.Conversion

/-!
# Command lines

A command line names a command and gives it options and operands. An option has a long name, written
behind two hyphens, and may have a letter, written behind one. Letters can be run together. A setting
is an option with a value: its value follows as the next argument, or behind an equals sign, or
directly behind the letter. Behind a bare `--` every argument is an operand. No option is given twice.
-/

namespace TraceTimeline

inductive Flag where
  | help
  | version
  | verbose
  | compact
  | summary
  | showDetails
  deriving DecidableEq, Repr

inductive Setting where
  | output
  | traceDirectory
  | primaryFile
  | file
  deriving DecidableEq, Repr

/-- Settings that are paths, which are never empty. -/
def Setting.isPath : Setting → Bool
  | primaryFile => false
  | output | traceDirectory | file => true

inductive CommandName where
  | convert
  | validate
  | schema
  | version
  deriving DecidableEq, Repr

def CommandName.ofString? : String → Option CommandName
  | "convert" => some convert
  | "validate" => some validate
  | "schema" => some schema
  | "version" => some version
  | _ => none

inductive Command where
  | convert (conversion : Conversion)
  | validate (file : Path)
  | schema (detailed : Bool)
  | version
  deriving DecidableEq, Repr

/-- Why a command line names no command to be run. -/
inductive Interruption where
  /-- It asks for help. -/
  | help
  /-- It asks for the version of the program. -/
  | version
  /-- It is not understood. -/
  | misuse
  deriving DecidableEq, Repr

/-- An option: its letter, if it has one, its name, and what it stands for. -/
structure OptionName (α : Type) where
  letter : Option Char
  name : String
  meaning : α

/-- What may be given in one place of a command line. -/
structure Grammar where
  flags : List (OptionName Flag) := []
  settings : List (OptionName Setting) := []
  operandLimit : Nat := 0

namespace Grammar

def commonFlags : List (OptionName Flag) :=
  [⟨some 'h', "help", .help⟩, ⟨some 'v', "verbose", .verbose⟩]

def program : Grammar where
  flags := ⟨some 'V', "version", .version⟩ :: commonFlags

def ofCommand : CommandName → Grammar
  | .convert =>
    { flags := [⟨none, "compact", .compact⟩, ⟨none, "summary", .summary⟩] ++ commonFlags
      settings :=
        [⟨some 'o', "output", .output⟩, ⟨none, "trace-dir", .traceDirectory⟩,
          ⟨none, "primary-file", .primaryFile⟩]
      operandLimit := 1 }
  | .validate => { flags := commonFlags, settings := [⟨some 'f', "file", .file⟩] }
  | .schema => { flags := ⟨none, "show", .showDetails⟩ :: commonFlags }
  | .version => { flags := commonFlags }

end Grammar

structure Given where
  flags : List Flag := []
  settings : List (Setting × String) := []
  operands : List String := []
  /-- A setting whose value has to come next. -/
  awaiting : Option Setting := none
  operandsOnly : Bool := false
  deriving Repr

namespace Given

def addFlag (given : Given) (flag : Flag) : Except Interruption Given :=
  match flag with
  | .help => throw .help
  | .version => throw .version
  | flag =>
    if flag ∈ given.flags then throw .misuse
    else return { given with flags := flag :: given.flags }

def addSetting (given : Given) (setting : Setting) (value : String) : Except Interruption Given :=
  if (given.settings.lookup setting).isSome || (setting.isPath && value = "") then throw .misuse
  else return { given with settings := (setting, value) :: given.settings, awaiting := none }

/-- Takes an operand. All operands are paths. -/
def addOperand (grammar : Grammar) (given : Given) (value : String) : Except Interruption Given :=
  if grammar.operandLimit ≤ given.operands.length || value = "" then throw .misuse
  else return { given with operands := given.operands ++ [value] }

/-- Takes an option by its name, with the value behind an equals sign if there is one. -/
def addLong (grammar : Grammar) (given : Given) (s : List Char) : Except Interruption Given :=
  let (name, value) : List Char × Option String := match Text.cut ['='] s with
    | some (name, value) => (name, some (String.ofList value))
    | none => (s, none)
  let name := String.ofList name
  match grammar.flags.find? (·.name == name), grammar.settings.find? (·.name == name), value with
  | some flag, _, none => given.addFlag flag.meaning
  | none, some setting, some value => given.addSetting setting.meaning value
  | none, some setting, none => return { given with awaiting := some setting.meaning }
  | _, _, _ => throw .misuse

/-- Takes options by their letters. What stands behind the letter of a setting is its value, with or
without an equals sign in front. -/
def addLetters (grammar : Grammar) (given : Given) : List Char → Except Interruption Given
  | [] => return given
  | letter :: rest =>
    match grammar.flags.find? (·.letter == some letter),
      grammar.settings.find? (·.letter == some letter) with
    | some flag, _ => do
      let given ← given.addFlag flag.meaning
      given.addLetters grammar rest
    | none, some setting =>
      match rest with
      | [] => return { given with awaiting := some setting.meaning }
      | '=' :: value => given.addSetting setting.meaning (String.ofList value)
      | value => given.addSetting setting.meaning (String.ofList value)
    | none, none => throw .misuse

def add (grammar : Grammar) (given : Given) (argument : String) : Except Interruption Given :=
  if given.operandsOnly then given.addOperand grammar argument
  else
    -- A single hyphen is a value like any other, but an option is never taken for the value of one.
    match given.awaiting, argument.toList with
    | some setting, ['-'] => given.addSetting setting argument
    | some _, '-' :: _ => throw .misuse
    | some setting, _ => given.addSetting setting argument
    | none, ['-', '-'] => return { given with operandsOnly := true }
    | none, '-' :: '-' :: name => given.addLong grammar name
    | none, '-' :: letter :: letters => given.addLetters grammar (letter :: letters)
    | none, _ => given.addOperand grammar argument

def ofArguments (grammar : Grammar) (arguments : List String) : Except Interruption Given := do
  let given ← arguments.foldlM (add grammar) {}
  if given.awaiting.isSome then throw .misuse else return given

def path? (given : Given) (setting : Setting) : Option Path :=
  (given.settings.lookup setting).map Path.mk

end Given

namespace Command

/-- The variable that names the trace directory where no option does. -/
def traceDirectoryVariable : String := "DXT_TRACE_DIR"

def traceDirectory (given : Given) (environment : Option String) : Except Interruption (Option Path) :=
  match given.path? .traceDirectory, environment with
  | some directory, _ => return some directory
  | none, some "" => throw .misuse
  | none, value => return value.map Path.mk

/-- The command of a name with what has been given to it. -/
def ofGiven (name : CommandName) (given : Given) (traceDirectory? : Option String) :
    Except Interruption Command :=
  match name with
  | .convert => do
    let traceDirectory ← traceDirectory given traceDirectory?
    match given.operands with
    | [input] =>
      return .convert {
        input := ⟨input⟩
        traceDirectory
        output := (given.path? .output).getD ({} : Conversion).output
        primaryFile := given.settings.lookup .primaryFile
        style := if .compact ∈ given.flags then .compact else .pretty
        summary := decide (.summary ∈ given.flags) }
    | _ => throw .misuse
  | .validate =>
    match given.path? .file with
    | some file => return .validate file
    | none => throw .misuse
  | .schema => return .schema (decide (.showDetails ∈ given.flags))
  | .version => return .version

/-- The help that is asked for by name: that of the program or of one command. -/
def helpFor : List String → Interruption
  | [] => .help
  | [name] => if name = "help" || (CommandName.ofString? name).isSome then .help else .misuse
  | _ => .misuse

/-- The command that follows what stands in front of it. -/
def afterFront (given : Given) (traceDirectory? : Option String) :
    List String → Except Interruption Command
  | [] => throw .misuse
  | argument :: rest =>
    match argument.toList with
    | '-' :: _ :: _ => do
      let given ← given.add .program argument
      if given.operandsOnly then throw .misuse else afterFront given traceDirectory? rest
    | _ =>
      match CommandName.ofString? argument with
      | some name => do
        let given ← Given.ofArguments (.ofCommand name) rest
        ofGiven name given traceDirectory?
      | none => throw (if argument = "help" then helpFor rest else .misuse)

/-- The command that a command line asks for. The trace directory is looked up in the environment
where no option names it. -/
def ofArguments (traceDirectory? : Option String) (arguments : List String) :
    Except Interruption Command :=
  afterFront {} traceDirectory? arguments

end Command
end TraceTimeline
