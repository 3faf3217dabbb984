import Reckon.Json

/-!
# Lexeme — the words of a JSON text

`Json.lexemes` splits a text into delimiters, texts, numbers and words.  What is wrong with a lexeme
counts only where the lexeme may stand: a text without an end is reported where a text is expected,
and elsewhere it is as much out of place as any other lexeme.  So a faulty text is a lexeme, too, and
so is a stray character; nothing is read behind them.
-/

namespace Reckon
namespace Json

inductive Delimiter where
  | beginArray
  | endArray
  | beginObject
  | endObject
  | colon
  | comma
  deriving DecidableEq, Repr

/-- A word of a JSON text. -/
inductive Lexeme where
  | delimiter (d : Delimiter)
  | text (t : CodeText)
  /-- A text with a fault, and the position of the fault. -/
  | faultyText (fault : Fault) (position : Nat)
  /-- An integer by its decimal digits. -/
  | integer (negative : Bool) (digits : List Nat)
  | number (x : Float)
  | word (value : Json)
  | stray

/-- A lexeme and the position of its first character. -/
structure PlacedLexeme where
  lexeme : Lexeme
  position : Nat

/-! ## Character classes -/

def isSpace (c : Char) : Bool :=
  c = ' ' || c = '\t' || c = '\n' || c = '\r'

def isAsciiDigit (c : Char) : Bool :=
  '0' ≤ c && c ≤ '9'

def delimiter? (c : Char) : Option Delimiter :=
  if c = '[' then some .beginArray
  else if c = ']' then some .endArray
  else if c = '\x7b' then some .beginObject
  else if c = '\x7d' then some .endObject
  else if c = ':' then some .colon
  else if c = ',' then some .comma
  else none

/-! ## Texts -/

/-- The rest of a text behind its opening mark, as code points and UTF-16 code units. -/
inductive TextBody where
  /-- The denoted text, and the length up to and with the closing mark. -/
  | closed (units : List Nat) (length : Nat)
  /-- A fault, and the number of characters in front of it. -/
  | faulty (fault : Fault) (offset : Nat)
  | unclosed

/-- The same body behind one more unit, which is written in `width` characters. -/
def TextBody.cons (unit width : Nat) : TextBody → TextBody
  | .closed units length => .closed (unit :: units) (width + length)
  | .faulty fault offset => .faulty fault (width + offset)
  | .unclosed => .unclosed

/-- The character that a backslash and `c` stand for. -/
def unescape? (c : Char) : Option Char :=
  if c = '"' ∨ c = '\\' ∨ c = '/' then some c
  else if c = 'b' then some '\x08'
  else if c = 'f' then some '\x0c'
  else if c = 'n' then some '\n'
  else if c = 'r' then some '\r'
  else if c = 't' then some '\t'
  else none

/-- The code unit that four hexadecimal digits denote.  They are refused at the very end of the
source, where the text has no closing mark. -/
def unit? (digits behind : List Char) : Option Nat :=
  if behind.isEmpty then none else Text.readRadix? 16 digits

/-- Reads up to the closing mark. -/
def readText : List Char → TextBody
  | [] => .unclosed
  | c :: cs =>
    if c = '"' then .closed [] 1
    else if c = '\\' then
      match cs with
      | [] => .unclosed
      | 'u' :: a :: b :: c :: d :: rest =>
        match unit? [a, b, c, d] rest with
        | some unit => .cons unit 6 (readText rest)
        | none => .faulty .malformedUnit 1
      | e :: rest =>
        if e = 'u' then .faulty .malformedUnit 1
        else
          match unescape? e with
          | some c => .cons c.toNat 2 (readText rest)
          | none => .faulty .unknownEscape 0
    else if c.toNat < 0x20 then .faulty .controlCharacter 0
    else .cons c.toNat 1 (readText cs)

/-- The first code unit of a character beyond the first 65536. -/
def isHighUnit (n : Nat) : Bool :=
  0xD800 ≤ n && n < 0xDC00

/-- The second code unit of such a character. -/
def isLowUnit (n : Nat) : Bool :=
  0xDC00 ≤ n && n < 0xE000

/-- Code points from their units: two neighbouring halves that make a character are joined, and any
other half is left as it is. -/
def joinUnits : List Nat → List CodePoint
  | [] => []
  | [n] => [.ofCode n]
  | n :: m :: units =>
    if isHighUnit n && isLowUnit m then
      .ofCode (0x10000 + (n - 0xD800) * 0x400 + (m - 0xDC00)) :: joinUnits units
    else .ofCode n :: joinUnits (m :: units)

/-! ## Numbers -/

/-- The length of the digits at the front. -/
def digitCount (cs : List Char) : Nat :=
  (cs.takeWhile isAsciiDigit).length

/-- The length of an integer without a sign: a zero stands alone. -/
def integerLength : List Char → Nat
  | '0' :: _ => 1
  | cs => digitCount cs

/-- The length of a point and at least one digit. -/
def fractionLength : List Char → Nat
  | '.' :: cs => if digitCount cs = 0 then 0 else 1 + digitCount cs
  | _ => 0

def signLength : List Char → Nat
  | '+' :: _ | '-' :: _ => 1
  | _ => 0

/-- The length of an exponent: a letter, an optional sign and at least one digit. -/
def exponentLength : List Char → Nat
  | [] => 0
  | e :: cs =>
    let digits := digitCount (cs.drop (signLength cs))
    if (e = 'e' ∨ e = 'E') ∧ digits ≠ 0 then 1 + signLength cs + digits else 0

/-- A number at the front, and its length. -/
def number? (cs : List Char) : Option (Lexeme × Nat) :=
  let sign := if cs.head? = some '-' then 1 else 0
  let whole := integerLength (cs.drop sign)
  let fraction := fractionLength (cs.drop (sign + whole))
  let exponent := exponentLength (cs.drop (sign + whole + fraction))
  let length := sign + whole + fraction + exponent
  if whole = 0 then none
  else if fraction + exponent = 0 then
    some (.integer (sign = 1) ((cs.drop sign).take whole |>.filterMap Text.decimalDigit?), length)
  else
    (Decimal.read? (cs.take length)).map fun d => (.number d.toDouble, length)

/-! ## Lexemes -/

/-- The words with their values. -/
def words : List (String × Json) :=
  [("null", .null), ("true", .truth true), ("false", .truth false),
    ("NaN", .number Double.notANumber), ("Infinity", .number Double.infinity),
    ("-Infinity", .number (-Double.infinity))]

/-- A word at the front, and its length. -/
def word? (cs : List Char) : Option (Lexeme × Nat) :=
  (words.find? fun (word, _) => word.toList.isPrefixOf cs).map fun (word, value) =>
    (.word value, word.length)

/-- The lexeme of a text whose opening mark stands at a position. -/
def textLexeme (position : Nat) (rest : List Char) : Lexeme × Nat :=
  match readText rest with
  | .closed units length => (.text ⟨joinUnits units⟩, 1 + length)
  | .faulty fault offset => (.faultyText fault (position + 1 + offset), 0)
  | .unclosed => (.faultyText .unterminatedText position, 0)

/-- The lexeme that begins with `c`, and its length; zero stands for a lexeme that cannot be read
to its end. -/
def firstLexeme (position : Nat) (c : Char) (rest : List Char) : Lexeme × Nat :=
  if c = '"' then textLexeme position rest
  else
    match delimiter? c with
    | some d => (.delimiter d, 1)
    | none => ((word? (c :: rest)).or (number? (c :: rest))).getD (.stray, 0)

/-- The lexemes from a position on. -/
def lexemesFrom (position : Nat) : List Char → List PlacedLexeme
  | [] => []
  | c :: rest =>
    if isSpace c then lexemesFrom (position + 1) rest
    else
      let (lexeme, length) := firstLexeme position c rest
      if length = 0 then [⟨lexeme, position⟩]
      else ⟨lexeme, position⟩ :: lexemesFrom (position + length) (rest.drop (length - 1))
termination_by cs => cs.length
decreasing_by
  · simp
  · simp only [List.length_drop, List.length_cons]
    omega

/-- The lexemes of a JSON text. -/
def lexemes (source : List Char) : List PlacedLexeme :=
  lexemesFrom 0 source

end Json
end Reckon
