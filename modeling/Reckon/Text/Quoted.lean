import Reckon.Text.CodePoint
import Reckon.Text.Printable

/-!
# Quoted — texts between quotation marks

A quoted text shows every character unambiguously on one line.

* The mark is a single quote, unless the text holds a single quote and no double quote.
* The mark in use and the backslash are preceded by a backslash.
* Line feed, carriage return and tab are written `\n`, `\r` and `\t`.
* Any other character that is not printable is written by its code point in hexadecimal, with two,
  four or eight digits; and so is half of a character.
-/

namespace Reckon
namespace Text

/-- The digit of a number below sixteen, in lower case. -/
def hexDigit (n : Nat) : Char :=
  Nat.digitChar (n % 16)

/-- The last `width` hexadecimal digits of a number. -/
def hexDigits : (width : Nat) → (n : Nat) → List Char
  | 0, _ => []
  | width + 1, n => hexDigits width (n / 16) ++ [hexDigit n]

namespace Quoted

/-- The mark around a text: a double quote exactly if it spares escaping single quotes. -/
def mark (ps : List CodePoint) : Char :=
  if .character '\'' ∈ ps ∧ .character '"' ∉ ps then '"' else '\''

/-- A code point by its number. -/
def escapeCode (p : CodePoint) : List Char :=
  if p.code < 0x100 then '\\' :: 'x' :: hexDigits 2 p.code
  else if p.code < 0x10000 then '\\' :: 'u' :: hexDigits 4 p.code
  else '\\' :: 'U' :: hexDigits 8 p.code

/-- A code point as it is written between marks `q`. -/
def escape (q : Char) : CodePoint → List Char
  | .character c =>
    if c = q ∨ c = '\\' then ['\\', c]
    else if c = '\n' then ['\\', 'n']
    else if c = '\r' then ['\\', 'r']
    else if c = '\t' then ['\\', 't']
    else if isPrintable c then [c]
    else escapeCode (.character c)
  | .half place => escapeCode (.half place)

/-- The characters of a quoted text, marks included. -/
def encode (ps : List CodePoint) : List Char :=
  mark ps :: ps.flatMap (escape (mark ps)) ++ [mark ps]

end Quoted

/-- A text between quotation marks. -/
def quoted (t : CodeText) : String :=
  String.ofList (Quoted.encode t.points)

theorem length_hexDigits (width n : Nat) : (hexDigits width n).length = width := by
  induction width generalizing n with
  | zero => rfl
  | succ width ih => simp [hexDigits, ih]

end Text
end Reckon
