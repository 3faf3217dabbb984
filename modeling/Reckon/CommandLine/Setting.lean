import Reckon.Error
import Reckon.Text.Blank
import Reckon.Text.Digit

/-!
# Setting — settings from the environment

Two settings are read from the environment: whether a compiled formula is shown in the log, and the
level from which on the log is kept.  White space around a setting and the case of its letters do
not matter.
-/

namespace Reckon
namespace CommandLine

/-! ## Flags -/

/-- The texts that turn a flag on. -/
def affirmations : List String :=
  ["1", "true", "yes", "on"]

/-- A flag with a default for a setting that is missing or blank. -/
def readFlag (default : Bool) : Option String → Bool
  | none => default
  | some raw =>
    let cs := Text.trim Text.isBlank raw.toList
    if cs.isEmpty then default else affirmations.contains (String.ofList (cs.map Char.toLower))

/-! ## Log levels -/

/-- The levels with names.  The log is kept from a level on upwards. -/
def levelNames : List (String × Nat) :=
  [("CRITICAL", 50), ("FATAL", 50), ("ERROR", 40), ("WARNING", 30), ("WARN", 30), ("INFO", 20),
    ("DEBUG", 10), ("NOTSET", 0)]

/-- The level of a setting that is missing or is no level. -/
def standardLevel : Nat := 30

/-- The most digits that a level may have. -/
def largestLevelDigits : Nat := 4300

/-- The upper case of a character, as far as ASCII is concerned: besides the ASCII letters, the
dotless i and the long s have upper cases in ASCII. -/
def upperCase (c : Char) : Char :=
  if c = 'ı' then 'I' else if c = 'ſ' then 'S' else c.toUpper

/-- A level written in digits of any script.  Ornamental digits are refused, unless there are too
many digits in front of them already. -/
def readDigits (cs : List Char) : Except Limit Nat :=
  let count := (cs.takeWhile Text.isDecimalDigit).length
  if largestLevelDigits < count then .error (.integerTooLong count)
  else
    match cs.mapM Text.decimalDigit? with
    | none => .error (.malformedInteger (String.ofList cs) 10)
    | some digits => .ok (Text.ofDigits 10 digits)

/-- The level of a setting. -/
def readLevel : Option String → Except Limit Nat
  | none => .ok standardLevel
  | some raw =>
    let cs := Text.trim Text.isBlank raw.toList
    if !cs.isEmpty && cs.all Text.isDigit then readDigits cs
    else .ok ((levelNames.lookup (String.ofList (cs.map upperCase))).getD standardLevel)

end CommandLine
end Reckon
