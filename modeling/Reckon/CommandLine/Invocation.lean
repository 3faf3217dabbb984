import Reckon.CommandLine.Argument

/-!
# Invocation — what the command line asks for

The arguments are taken from left to right.  The words of the expression must stand together: words
behind an option that follows the expression are not recognized.  Options with one letter may share
a hyphen, as in `-vv`; whatever else stands there must be the value of the last of them.
-/

namespace Reckon
namespace CommandLine

/-- What the command line asks for. -/
structure Invocation where
  /-- The words of the expression. -/
  words : List String
  /-- The variables as a JSON text; the empty text stands for none. -/
  mapping : String
  listing : Bool
  verbosity : Nat
  deriving DecidableEq, Repr

/-- Why there is no invocation. -/
inductive Refusal where
  | help
  | fault (cause : UsageFault)
  deriving DecidableEq, Repr

/-! ## Clusters -/

/-- How an argument with options ends. -/
inductive ClusterEnd where
  | complete
  /-- The last option takes this value. -/
  | value (text : String)
  /-- The last option takes the next word as its value. -/
  | pending
  deriving DecidableEq, Repr

/-- The options in one argument: first those without a value, in order. -/
structure Cluster where
  flags : List Switch
  ending : ClusterEnd
  deriving DecidableEq, Repr

namespace Cluster

def cons (s : Switch) (c : Cluster) : Cluster :=
  { c with flags := s :: c.flags }

/-- An option with nothing attached. -/
def ofLast (s : Switch) : Cluster :=
  if s.takesValue then ⟨[], .pending⟩ else ⟨[s], .complete⟩

/-- The option `s` behind one hyphen with letters attached: unless `s` takes them as its value, they
are options themselves. -/
def ofLetters (s : Switch) : List Char → Except UsageFault Cluster
  | [] =>
    if s.takesValue then .ok ⟨[], .value ""⟩ else .error (.ignoredValue s "")
  | c :: cs =>
    if s.takesValue then .ok ⟨[], .value (String.ofList (c :: cs))⟩
    else
      match Switch.lookup? (String.ofList ['-', c]), cs with
      | none, _ => .error (.ignoredValue s (String.ofList (c :: cs)))
      | some next, [] => .ok ((ofLast next).cons s)
      | some next, d :: ds => (ofLetters next (d :: ds)).map (cons s)

/-- The options of an argument. -/
def ofOption (s : Switch) (long : Bool) : Option String → Except UsageFault Cluster
  | none => .ok (ofLast s)
  | some attached =>
    if long && !s.takesValue then .error (.ignoredValue s attached)
    else ofLetters s attached.toList

end Cluster

/-! ## Progress from left to right -/

/-- Where the words of the expression are. -/
inductive Phase where
  | awaited
  | current
  | past
  deriving DecidableEq, Repr

/-- The arguments taken so far. -/
structure Progress where
  invocation : Invocation
  phase : Phase
  unrecognized : List String
  deriving DecidableEq, Repr

namespace Progress

def start : Progress :=
  ⟨{ words := [], mapping := "", listing := false, verbosity := 0 }, .awaited, []⟩

/-- A word of the expression, or one that comes too late. -/
def takeWord (p : Progress) (word : String) : Progress :=
  match p.phase with
  | .past => { p with unrecognized := p.unrecognized ++ [word] }
  | _ =>
    { p with
      phase := .current
      invocation := { p.invocation with words := p.invocation.words ++ [word] } }

/-- The separator belongs to the expression, without being a word of it, unless it comes too late. -/
def takeSeparator (p : Progress) : Progress :=
  match p.phase with
  | .past => { p with unrecognized := p.unrecognized ++ ["--"] }
  | _ => p

/-- An option, or what looks like one, ends the expression. -/
def endWords (p : Progress) : Progress :=
  match p.phase with
  | .current => { p with phase := .past }
  | _ => p

def takeUnknown (p : Progress) (text : String) : Progress :=
  { p with unrecognized := p.unrecognized ++ [text] }

/-- The value of the option for variables; the separator, attached to the option, stands for none. -/
def takeMapping (p : Progress) (value : String) : Progress :=
  { p with invocation := { p.invocation with mapping := if value = "--" then "" else value } }

/-- An option without a value. -/
def takeFlag (p : Progress) : Switch → Except Refusal Progress
  | .help => .error .help
  | .mapping => .ok p
  | .listing => .ok { p with invocation := { p.invocation with listing := true } }
  | .verbose =>
    .ok { p with invocation := { p.invocation with verbosity := p.invocation.verbosity + 1 } }

/-- The options without a value in an argument. -/
def takeFlags (p : Progress) (flags : List Switch) : Except Refusal Progress :=
  flags.foldlM takeFlag p.endWords

/-- The end of an argument with options. -/
def takeEnd (p : Progress) : ClusterEnd → Progress
  | .value text => p.takeMapping text
  | .complete | .pending => p

/-- Takes the arguments one after the other. -/
def takeAll (p : Progress) : List Argument → Except Refusal Progress
  | [] => .ok p
  | .word text :: arguments => takeAll (p.takeWord text) arguments
  | .separator :: arguments => takeAll p.takeSeparator arguments
  | .unknown text :: arguments => takeAll (p.endWords.takeUnknown text) arguments
  | .option s long attached :: arguments =>
    match Cluster.ofOption s long attached with
    | .error cause => .error (.fault cause)
    | .ok ⟨flags, .pending⟩ =>
      match arguments with
      | .word text :: others => do takeAll ((← p.takeFlags flags).takeMapping text) others
      | _ => .error (.fault (.missingValue .mapping))
    | .ok ⟨flags, ending⟩ => do takeAll ((← p.takeFlags flags).takeEnd ending) arguments

/-- The invocation, if there is an expression and every argument has been recognized. -/
def conclude (p : Progress) : Except Refusal Invocation :=
  if p.phase = .awaited then .error (.fault .missingExpression)
  else if p.unrecognized.isEmpty then .ok p.invocation
  else .error (.fault (.unrecognized p.unrecognized))

end Progress

/-- What the given arguments ask for. -/
def Invocation.read (arguments : List String) : Except Refusal Invocation :=
  match Argument.classifyAll arguments with
  | .error cause => .error (.fault cause)
  | .ok classified => do (← Progress.start.takeAll classified).conclude

/-- The source text of the expression: its words without anything between them. -/
def Invocation.source (i : Invocation) : String :=
  String.join i.words

end CommandLine
end Reckon
