import Reckon.Text.Quoted

/-!
# Switch — the options of the command line

An option is spelled with one hyphen and a letter or with two hyphens and a word.  A word may be cut
short as long as one option only is meant by it.
-/

namespace Reckon
namespace CommandLine

/-- What an option asks for. -/
inductive Switch where
  | help
  /-- The variables, as a JSON text in the value of the option. -/
  | mapping
  /-- The listing of the compiled formula instead of the result. -/
  | listing
  | verbose
  deriving DecidableEq, Repr

namespace Switch

/-- The spellings of all options, in the order in which they are presented. -/
def spellings : List (String × Switch) :=
  [("-h", .help), ("--help", .help), ("-m", .mapping), ("--compile", .listing), ("-v", .verbose),
    ("--verbose", .verbose)]

/-- All spellings of an option together. -/
def title (s : Switch) : String :=
  "/".intercalate ((spellings.filter fun entry => entry.2 = s).map Prod.fst)

/-- Whether the option takes a value. -/
def takesValue : Switch → Bool
  | .mapping => true
  | _ => false

/-- The option with a spelling. -/
def lookup? (spelling : String) : Option Switch :=
  spellings.lookup spelling

/-- The options with spellings that begin with a word. -/
def candidates (word : String) : List (String × Switch) :=
  spellings.filter fun entry => word.toList.isPrefixOf entry.1.toList

end Switch

/-- Why the arguments of the command line are refused. -/
inductive UsageFault where
  | ambiguous (argument : String) (spellings : List String)
  | missingValue (s : Switch)
  | ignoredValue (s : Switch) (value : String)
  | missingExpression
  | unrecognized (arguments : List String)
  deriving DecidableEq, Repr

namespace UsageFault

def message : UsageFault → String
  | .ambiguous argument spellings =>
    "ambiguous option: " ++ argument ++ " could match " ++ ", ".intercalate spellings
  | .missingValue s => "argument " ++ s.title ++ ": expected one argument"
  | .ignoredValue s value =>
    "argument " ++ s.title ++ ": ignored explicit argument " ++ Text.quoted value
  | .missingExpression => "the following arguments are required: expression"
  | .unrecognized arguments => "unrecognized arguments: " ++ " ".intercalate arguments

end UsageFault

end CommandLine
end Reckon
