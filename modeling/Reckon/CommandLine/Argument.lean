import Reckon.CommandLine.Switch
import Reckon.Text.Digit

/-!
# Argument — what the arguments of the command line are taken for

Each argument is a word of the expression or an option.  Arguments with a hyphen in front are words
only if they look like a negative number, hold a space or are a single hyphen; behind the separator
`--`, all arguments are words.
-/

namespace Reckon
namespace CommandLine

/-- What an argument is taken for. -/
inductive Argument where
  | word (text : String)
  | separator
  /-- An option, perhaps with a value attached; `long` tells that it is spelled with two hyphens. -/
  | option (s : Switch) (long : Bool) (attached : Option String)
  /-- An argument that looks like an option and is none. -/
  | unknown (text : String)
  deriving DecidableEq, Repr

namespace Argument

/-- Digits of any script with at most one point, and at least one digit behind it. -/
def isUnsignedNumber (cs : List Char) : Bool :=
  let behind := cs.dropWhile Text.isDecimalDigit
  match behind with
  | [] => !cs.isEmpty
  | '.' :: fraction => !fraction.isEmpty && fraction.all Text.isDecimalDigit
  | _ => false

/-- A line feed at the end is left out. -/
def chopNewline (cs : List Char) : List Char :=
  if cs.getLast? = some '\n' then cs.dropLast else cs

/-- Whether an argument looks like a negative number. -/
def isNegativeNumber : List Char → Bool
  | '-' :: cs => isUnsignedNumber (chopNewline cs)
  | _ => false

/-- An argument in two parts, one in front of the first equals sign and one behind it. -/
def splitEquals (argument : String) : String × Option String :=
  let cs := argument.toList
  match cs.dropWhile (· ≠ '=') with
  | [] => (argument, none)
  | _ :: value => (String.ofList (cs.takeWhile (· ≠ '=')), some (String.ofList value))

/-- The options that an argument with two hyphens may be short for. -/
def abbreviated (argument : String) : List (String × Argument) :=
  let (spelled, attached) := splitEquals argument
  (Switch.candidates spelled).map fun (spelling, s) => (spelling, .option s true attached)

/-- The option with one letter that an argument begins with, its value directly behind it. -/
def clustered? (hyphen letter : Char) (rest : List Char) : Option Argument :=
  (Switch.lookup? (String.ofList [hyphen, letter])).map fun s =>
    .option s false (some (String.ofList rest))

/-- What an argument is taken for if it begins with a hyphen and is no option as it stands. -/
def classifyOther (argument : String) : Argument :=
  if isNegativeNumber argument.toList || argument.toList.contains ' ' then .word argument
  else .unknown argument

/-- What an argument is taken for if it begins with two characters of which the first is a hyphen,
and if no option is spelled like it. -/
def classifyHyphen (argument : String) (letter : Char) (rest : List Char) :
    Except UsageFault Argument :=
  let (spelled, attached) := splitEquals argument
  match attached, Switch.lookup? spelled with
  | some _, some s => .ok (.option s (letter = '-') attached)
  | _, _ =>
    if letter = '-' then
      match abbreviated argument with
      | [] => .ok (classifyOther argument)
      | [(_, one)] => .ok one
      | several => .error (.ambiguous argument (several.map Prod.fst))
    else .ok ((clustered? '-' letter rest).getD (classifyOther argument))

/-- What an argument in front of the separator is taken for. -/
def classify (argument : String) : Except UsageFault Argument :=
  match Switch.lookup? argument with
  | some s => .ok (.option s ("--".toList.isPrefixOf argument.toList) none)
  | none =>
    match argument.toList with
    | '-' :: letter :: rest => classifyHyphen argument letter rest
    | _ => .ok (.word argument)

/-- What all arguments are taken for. -/
def classifyAll : List String → Except UsageFault (List Argument)
  | [] => .ok []
  | argument :: arguments =>
    if argument = "--" then .ok (.separator :: arguments.map .word)
    else do
      let first ← classify argument
      let others ← classifyAll arguments
      return first :: others

end Argument

end CommandLine
end Reckon
