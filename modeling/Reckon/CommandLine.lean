import Reckon.CommandLine.Invocation
import Reckon.CommandLine.Setting
import Reckon.Formula
import Reckon.Json.Reader

/-!
# CommandLine — the calculator as a program

`CommandLine.run` says what the program does with its arguments and its environment: it evaluates
the expression, or lists its compiled formula, and answers an exit status, what is written to the
standard output and what is written to the standard error.

The log is part of the standard error.  Its level is chosen by `-v` and `-vv` or else by the
environment.
-/

namespace Reckon
namespace CommandLine

variable [Capacity]

/-- The settings of the environment; each of them may be missing. -/
structure Environment where
  level : Option String
  listing : Option String
  deriving DecidableEq, Repr

/-- What comes of an invocation. -/
inductive Outcome where
  /-- The program ends with an exit status, an output and diagnostics. -/
  | finished (status : Nat) (output diagnostics : String)
  /-- The arguments are refused. -/
  | refused (cause : UsageFault)
  /-- Help is asked for. -/
  | helped
  /-- A limit of the program is exceeded. -/
  | aborted (cause : Limit)
  deriving DecidableEq, Repr

/-! ## The log -/

/-- The levels of log entries. -/
inductive Severity where
  | debug
  | info
  deriving DecidableEq, Repr

namespace Severity

def rank : Severity → Nat
  | .debug => 10
  | .info => 20

def name : Severity → String
  | .debug => "DEBUG"
  | .info => "INFO"

end Severity

/-- The line of a log entry, if it is at or above the level `threshold`. -/
def logEntry (threshold : Nat) (severity : Severity) (channel message : String) : String :=
  if threshold ≤ severity.rank then
    severity.name ++ " " ++ channel ++ ": " ++ message ++ "\n"
  else ""

/-- The level from which on the log is kept. -/
def threshold (env : Environment) (i : Invocation) : Except Limit Nat :=
  match i.verbosity with
  | 0 => readLevel env.level
  | 1 => .ok Severity.info.rank
  | _ => .ok Severity.debug.rank

/-! ## Variables -/

/-- What the variables of an invocation amount to. -/
inductive Mapping where
  | bindings (b : Bindings)
  /-- The text is no JSON text. -/
  | malformed (description : String)
  /-- The text is a JSON text, but no object. -/
  | noObject
  | limit (cause : Limit)

/-- The variables in a JSON text; the empty text stands for none. -/
def readMapping (text : String) : Mapping :=
  if text.isEmpty then .bindings []
  else
    match Json.read text.toList with
    | .ok (.object fields) => .bindings (Json.bindings fields)
    | .ok _ => .noObject
    | .error (.malformed fault position) => .malformed (fault.describe text.toList position)
    | .error (.limit cause) => .limit cause

/-- The diagnostics about variables that are no JSON object. -/
def mappingUsage : String :=
  "Usage: -m flag require a JSON string, example: \x7b\"a\": 1, \"b\": 2\x7d\n"

/-! ## The work -/

/-- A text as it is written to the standard output, which takes characters only. -/
def encode (t : CodeText) : Except Error String :=
  match t.unicode? with
  | some s => .ok s
  | none => .error (.limit (.unencodable t.firstHalves t.leadingCharacters.length))

/-- A text as it can be written anywhere, with code points in place of halves of characters. -/
def escape (t : CodeText) : String :=
  String.ofList (t.points.flatMap fun p =>
    match p with
    | .character c => [c]
    | .half _ => Text.Quoted.escapeCode p)

instance : Coe CodeText String := ⟨escape⟩

/-- The output of the work and the log that is kept of it. -/
structure Report where
  output : String
  log : String
  deriving DecidableEq, Repr

/-- Evaluates an expression. -/
def evaluateReport (threshold : Nat) (source : String) (b : Bindings) : Except Error Report := do
  let v ← evaluate source b
  let shown ← encode v.display
  return {
    output := shown ++ "\n"
    log := logEntry threshold .debug "calc.calculator"
      ("evaluated " ++ Text.quoted source ++ " -> " ++ v.literal) }

/-- Compiles an expression and lists its formula; `traced` adds the listing to the log. -/
def listingReport (threshold : Nat) (traced : Bool) (source : String) : Except Error Report := do
  let f ← Formula.compile source
  let listing := "\n".intercalate f.listing
  let channel := "calc.compiler.compiler"
  let trace :=
    if traced then
      logEntry threshold .info channel
        ("=== DISASM ===\n" ++ listing ++ "\n=== END DISASM ===")
    else ""
  return {
    output := listing ++ "\n"
    log := logEntry threshold .debug channel
      ("compiled " ++ Text.quoted source ++ " -> " ++ f.render) ++ trace }

/-- The work that an invocation asks for. -/
def report (env : Environment) (threshold : Nat) (i : Invocation) (b : Bindings) :
    Except Error Report :=
  if i.listing then listingReport threshold (readFlag false env.listing) i.source
  else evaluateReport threshold i.source b

/-- The outcome of the work. -/
def Outcome.ofReport : Except Error Report → Outcome
  | .ok r => .finished 0 r.output r.log
  | .error (.limit cause) => .aborted cause
  | .error e => .finished 1 "" (e.message ++ "\n")

/-! ## The program -/

/-- The outcome of an invocation. -/
def perform (env : Environment) (i : Invocation) : Outcome :=
  match threshold env i with
  | .error cause => .aborted cause
  | .ok threshold =>
    match readMapping i.mapping with
    | .limit cause => .aborted cause
    | .noObject => .finished 1 "" mappingUsage
    | .malformed description =>
      .finished 1 ""
        (logEntry threshold .debug "calc.cli" ("bad variable map: " ++ description) ++ mappingUsage)
    | .bindings b => .ofReport (report env threshold i b)

/-- What the program does with its arguments. -/
def run (env : Environment) (arguments : List String) : Outcome :=
  match Invocation.read arguments with
  | .error .help => .helped
  | .error (.fault cause) => .refused cause
  | .ok i => perform env i

/-- The name under which the program speaks about itself. -/
def programName : String := "calc"

/-- How the program is called. -/
def usage : String :=
  "usage: " ++ programName ++ " [-h] [-m MAPPING] [--compile] [-v] expression [expression ...]\n"

/-- What the program says about itself when help is asked for. -/
def help : String :=
  String.join
    [usage, "\nEvaluate an infix expression.\n",
      "\npositional arguments:\n",
      "  expression     expression, e.g. 'sum($a,2,3)+2*3'\n",
      "\noptions:\n",
      "  -h, --help     show this help message and exit\n",
      "  -m MAPPING     variable map, JSON format\n",
      "  --compile      print the compiled formula instead of evaluating\n",
      "  -v, --verbose  more logging (repeatable)\n"]

/-- The line about arguments that are refused. -/
def UsageFault.line (cause : UsageFault) : String :=
  programName ++ ": error: " ++ cause.message

end CommandLine
end Reckon
