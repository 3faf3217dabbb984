import Reckon.Error
import Reckon.Text.Blank
import Reckon.Text.Digit
import Reckon.Token
import Reckon.Token.Literal

/-!
# Lexer — source texts as tokens

`Token.lex` splits a source text into tokens, white space between them left out.  At the start of a
token the reader looks, in this order, for

* a number: `0x`, `0o` or `0b` with digits of that radix, else decimal digits of any script with at
  most one point and an optional exponent;
* a quotation mark, which opens a text: single and double quotes allow escapes with a backslash,
  back quotes do not;
* a name: ASCII letters, digits and underscores, no digit in front;
* any other character, which is a symbol by itself.

Every part is as long as possible, and what cannot be completed is left to the next token: `0x` is
the number `0` and the name `x`.  The only failure is a text without an end.  It does not take back
the tokens in front of it, so a reading is a list of tokens and the error after them, if there is
one.
-/

namespace Reckon

/-- The tokens of a source text, and the error behind the last of them. -/
structure Reading where
  tokens : List Token
  failure : Option Error
  deriving DecidableEq, Repr

namespace Reading

def nil : Reading := ⟨[], none⟩

def failed (e : Error) : Reading := ⟨[], some e⟩

def cons (t : Token) (r : Reading) : Reading := ⟨t :: r.tokens, r.failure⟩

end Reading

namespace Token

/-! ## Character classes -/

def isLetter (c : Char) : Bool :=
  ('a' ≤ c && c ≤ 'z') || ('A' ≤ c && c ≤ 'Z') || c = '_'

def isNameCharacter (c : Char) : Bool :=
  isLetter c || ('0' ≤ c && c ≤ '9')

def isQuote (c : Char) : Bool :=
  c = '\'' || c = '"' || c = '`'

/-! ## Numbers

Each part of a number is given by its length; zero means that the part is missing.
-/

/-- The length of the digits at the front. -/
def digitCount (cs : List Char) : Nat :=
  (cs.takeWhile Text.isDecimalDigit).length

/-- The length of a sign at the front. -/
def signLength : List Char → Nat
  | '+' :: _ | '-' :: _ => 1
  | _ => 0

/-- The length of an exponent at the front: a letter, an optional sign and digits. -/
def exponentLength : List Char → Nat
  | [] => 0
  | e :: cs =>
    if e = 'e' ∨ e = 'E' then
      let sign := signLength cs
      let digits := digitCount (cs.drop sign)
      if digits = 0 then 0 else 1 + sign + digits
    else 0

/-- The length of a point and the digits behind it. -/
def fractionLength : List Char → Nat
  | '.' :: cs => 1 + digitCount cs
  | _ => 0

/-- The length of digits with at most one point, of which one is a digit at least. -/
def mantissaLength (cs : List Char) : Nat :=
  let whole := digitCount cs
  let fraction := fractionLength (cs.drop whole)
  if whole = 0 ∧ fraction ≤ 1 then 0 else whole + fraction

/-- The length of a decimal number at the front. -/
def decimalLength (cs : List Char) : Nat :=
  let mantissa := mantissaLength cs
  if mantissa = 0 then 0 else mantissa + exponentLength (cs.drop mantissa)

/-- The length of an integer with a radix at the front. -/
def radixLength : List Char → Nat
  | '0' :: c :: cs =>
    match Literal.radix? c with
    | some radix =>
      let digits := (cs.takeWhile fun d => (Text.radixDigit? radix d).isSome).length
      if digits = 0 then 0 else 2 + digits
    | none => 0
  | _ => 0

/-- The length of a number at the front. -/
def numberLength (cs : List Char) : Nat :=
  let radix := radixLength cs
  if radix = 0 then decimalLength cs else radix

/-! ## Texts -/

/-- The character that a backslash and `c` stand for. -/
def unescape (c : Char) : Char :=
  if c = 'n' then '\n'
  else if c = 't' then '\t'
  else if c = 'r' then '\r'
  else if c = '0' then '\x00'
  else c

/-- The rest of a text literal behind its opening mark. -/
inductive TextBody where
  /-- The denoted characters, and the length up to and with the closing mark. -/
  | closed (content : List Char) (length : Nat)
  /-- There is no closing mark.  If the source ends with a backslash that begins an escape, the
  number of characters in front of that backslash is given. -/
  | unclosed (escapeAt : Option Nat)
  deriving DecidableEq, Repr

namespace TextBody

/-- The same body behind one more denoted character, which is written in `width` characters. -/
def cons (c : Char) (width : Nat) : TextBody → TextBody
  | .closed content length => .closed (c :: content) (width + length)
  | .unclosed escapeAt => .unclosed (escapeAt.map (width + ·))

end TextBody

/-- Reads up to the mark `quote`. -/
def readText (quote : Char) : List Char → TextBody
  | [] => .unclosed none
  | c :: cs =>
    if c = quote then .closed [] 1
    else if c = '\\' ∧ quote ≠ '`' then
      match cs with
      | [] => .unclosed (some 0)
      | d :: ds => .cons (unescape d) 2 (readText quote ds)
    else .cons c 1 (readText quote cs)

/-! ## Tokens -/

/-- The length of the name at the front. -/
def nameLength : List Char → Nat
  | [] => 0
  | c :: cs => if isLetter c then 1 + (cs.takeWhile isNameCharacter).length else 0

/-- A token that shows the first `length` characters. -/
def ofLength (kind : TokenKind) (cs : List Char) (length position : Nat) : Token :=
  ⟨kind, String.ofList (cs.take length), position⟩

/--
The token that begins with `c`, which is not white space, and the number of characters behind `c`
that belong to it.
-/
def firstToken (position : Nat) (c : Char) (rest : List Char) : Except Error (Token × Nat) :=
  let number := numberLength (c :: rest)
  let name := nameLength (c :: rest)
  if number ≠ 0 then .ok (ofLength .number (c :: rest) number position, number - 1)
  else if isQuote c then
    match readText c rest with
    | .closed content length => .ok (⟨.text, String.ofList content, position⟩, length)
    | .unclosed none => .error (.lexical .unterminatedText position)
    | .unclosed (some offset) => .error (.lexical .unterminatedEscape (position + 1 + offset))
  else if name ≠ 0 then .ok (ofLength .name (c :: rest) name position, name - 1)
  else .ok (⟨.symbol, c.toString, position⟩, 0)

/-- Reads the characters from a position on. -/
def lexFrom (position : Nat) : List Char → Reading
  | [] => .nil
  | c :: rest =>
    if Text.isBlank c then lexFrom (position + 1) rest
    else
      match firstToken position c rest with
      | .error e => .failed e
      | .ok (token, width) => .cons token (lexFrom (position + 1 + width) (rest.drop width))
termination_by cs => cs.length
decreasing_by
  · simp
  · simp only [List.length_drop, List.length_cons]
    omega

/-- The tokens of a source text. -/
def lex (source : String) : Reading :=
  lexFrom 0 source.toList

end Token

end Reckon
