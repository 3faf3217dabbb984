import Reckon.Text.CodeRange

/-!
# Digit — decimal digits of every script

A decimal digit is a character of the general category *decimal number*.  The standard encodes the
digits of a script as ten consecutive code points, zero first, so the table of zeros determines the
value of each digit.  Superscripts, circled digits and the like are digits too, but they have no
place in a positional numeral; they are kept in a table of their own.
-/

namespace Reckon
namespace Text

/-- The code points of the digit zero, one for each set of decimal digits. -/
def digitZeros : List Nat :=
  [0x30, 0x660, 0x6F0, 0x7C0, 0x966, 0x9E6, 0xA66, 0xAE6, 0xB66, 0xBE6, 0xC66, 0xCE6, 0xD66,
    0xDE6, 0xE50, 0xED0, 0xF20, 0x1040, 0x1090, 0x17E0, 0x1810, 0x1946, 0x19D0, 0x1A80, 0x1A90,
    0x1B50, 0x1BB0, 0x1C40, 0x1C50, 0xA620, 0xA8D0, 0xA900, 0xA9D0, 0xA9F0, 0xAA50, 0xABF0,
    0xFF10, 0x104A0, 0x10D30, 0x11066, 0x110F0, 0x11136, 0x111D0, 0x112F0, 0x11450, 0x114D0,
    0x11650, 0x116C0, 0x11730, 0x118E0, 0x11950, 0x11C50, 0x11D50, 0x11DA0, 0x16A60, 0x16AC0,
    0x16B50, 0x1D7CE, 0x1D7D8, 0x1D7E2, 0x1D7EC, 0x1D7F6, 0x1E140, 0x1E2F0, 0x1E950, 0x1FBF0]

/-- The code points of the digits that are not decimal digits, such as superscripts. -/
def ornamentalDigitRanges : CodeRanges :=
  [(0xB2, 0xB3), (0xB9, 0xB9), (0x1369, 0x1371), (0x19DA, 0x19DA), (0x2070, 0x2070),
    (0x2074, 0x2079), (0x2080, 0x2089), (0x2460, 0x2468), (0x2474, 0x247C), (0x2488, 0x2490),
    (0x24EA, 0x24EA), (0x24F5, 0x24FD), (0x24FF, 0x24FF), (0x2776, 0x277E), (0x2780, 0x2788),
    (0x278A, 0x2792), (0x10A40, 0x10A43), (0x10E60, 0x10E68), (0x11052, 0x1105A),
    (0x1F100, 0x1F10A)]

/-- The value of a decimal digit of any script. -/
def decimalDigit? (c : Char) : Option Nat :=
  (digitZeros.find? fun start => start ≤ c.toNat && c.toNat ≤ start + 9).map (c.toNat - ·)

/-- Whether a character is a decimal digit of some script. -/
def isDecimalDigit (c : Char) : Bool :=
  (decimalDigit? c).isSome

/-- Whether a character is a digit, be it decimal or ornamental. -/
def isDigit (c : Char) : Bool :=
  isDecimalDigit c || ornamentalDigitRanges.contains c

/-- The ASCII digit of the same value, for a decimal digit of any script. -/
def plainDigit (c : Char) : Char :=
  ((decimalDigit? c).map Nat.digitChar).getD c

/-- The value of a digit in a radix up to sixteen, written in ASCII and in either letter case. -/
def radixDigit? (radix : Nat) (c : Char) : Option Nat :=
  let value? :=
    if '0' ≤ c ∧ c ≤ '9' then some (c.toNat - '0'.toNat)
    else if 'a' ≤ c ∧ c ≤ 'f' then some (c.toNat - 'a'.toNat + 10)
    else if 'A' ≤ c ∧ c ≤ 'F' then some (c.toNat - 'A'.toNat + 10)
    else none
  value?.filter (· < radix)

/-- The number that a list of digits denotes in a radix, most significant digit first. -/
def ofDigits (radix : Nat) (digits : List Nat) : Nat :=
  digits.foldl (fun value digit => radix * value + digit) 0

/-- The natural number that digits in a radix denote; there must be one at least. -/
def readRadix? (radix : Nat) (cs : List Char) : Option Nat :=
  match cs.mapM (radixDigit? radix) with
  | some (d :: ds) => some (ofDigits radix (d :: ds))
  | _ => none

/-- The characters without underscores, each of which must stand between two digits; `behindDigit`
tells whether a digit stands in front of the first character. -/
def dropSeparators? (digit : Char → Bool) (behindDigit : Bool) : List Char → Option (List Char)
  | [] => some []
  | '_' :: cs =>
    match cs with
    | c :: rest =>
      if behindDigit && digit c then (dropSeparators? digit true rest).map (c :: ·) else none
    | [] => none
  | c :: cs => (dropSeparators? digit (digit c) cs).map (c :: ·)

theorem dropSeparators?_of_notMem {digit : Char → Bool} {behindDigit : Bool} {cs : List Char}
    (h : '_' ∉ cs) : dropSeparators? digit behindDigit cs = some cs := by
  induction cs generalizing behindDigit with
  | nil => rfl
  | cons c cs ih =>
    rw [List.mem_cons, not_or] at h
    have hc : c ≠ '_' := fun hc => h.1 hc.symm
    rw [dropSeparators?]
    · simp [ih h.2]
    · exact hc

theorem ofDigits_nil (radix : Nat) : ofDigits radix [] = 0 := rfl

theorem ofDigits_concat (radix : Nat) (digits : List Nat) (digit : Nat) :
    ofDigits radix (digits ++ [digit]) = radix * ofDigits radix digits + digit := by
  simp [ofDigits]

end Text
end Reckon
