import TraceTimeline.Command.About
import TraceTimeline.Command.Arguments
import TraceTimeline.Command.Check

/-!
# The program

The program runs the command that its command line asks for. A command that fails is reported by its
headline; a command line that is not understood has an exit code of its own.
-/

namespace TraceTimeline

inductive CommandError where
  | args (error : ArgsError)
  | convert (error : ConversionError)
  | check (error : CheckError)
  deriving Repr

def CommandError.headline : CommandError → String
  | args error => error.message
  | convert error => error.headline
  | check error => error.headline

inductive Outcome where
  | done
  | failed (error : CommandError)
  | helpShown
  | misused
  deriving Repr

def Outcome.exitCode : Outcome → UInt8
  | done | helpShown => 0
  | failed _ => 1
  | misused => 2

/-- The line that reports a failure. -/
def Outcome.report? : Outcome → Option String
  | failed error => some ("Error: " ++ error.headline)
  | _ => none

section

variable {m : Type → Type} [Monad m] [Surroundings m]

def Command.run : Command → ExceptT CommandError m Unit
  | .convert conversion => do
    ExceptT.mk (pure (conversion.validate.mapError .args))
    conversion.run.adapt .convert
  | .validate file => (checkDocument file).adapt .check
  | .schema detailed => Surroundings.print (m := m) (aboutSchema detailed)
  | .version => Surroundings.print (m := m) aboutProgram

def runProgram (traceDirectory? : Option String) (arguments : List String) : m Outcome := do
  match Command.ofArguments traceDirectory? arguments with
  | .error .help => return .helpShown
  | .error .misuse => return .misused
  | .error .version =>
    Surroundings.print versionLine
    return .done
  | .ok command =>
    match ← command.run.run with
    | .ok () => return .done
    | .error error => return .failed error

end

end TraceTimeline
