import Reckon.Text.CodeRange

/-!
# Blank — white space

White space separates tokens and is trimmed from settings.  The class holds every character whose
bidirectional type is a separator of paragraphs, segments or words, together with the space
separators; so the four information separators `U+001C`–`U+001F` belong to it, while the zero-width
space `U+200B` does not.

The margin of a numeral is white space too, but the information separators have no place in it.
-/

namespace Reckon
namespace Text

/-- The code points of white space. -/
def blankRanges : CodeRanges :=
  [(0x09, 0x0D), (0x1C, 0x20), (0x85, 0x85), (0xA0, 0xA0), (0x1680, 0x1680), (0x2000, 0x200A),
    (0x2028, 0x2029), (0x202F, 0x202F), (0x205F, 0x205F), (0x3000, 0x3000)]

/-- Whether a character is white space. -/
def isBlank (c : Char) : Bool :=
  blankRanges.contains c

/-- Whether a character separates units of information, as far as it is white space. -/
def isInformationSeparator (c : Char) : Bool :=
  0x1C ≤ c.toNat && c.toNat ≤ 0x1F

/-- Whether a character may stand in the margin of a numeral. -/
def isMargin (c : Char) : Bool :=
  isBlank c && !isInformationSeparator c

/-- The characters left after those in a class are dropped at the end. -/
def trimEnd (inClass : Char → Bool) (cs : List Char) : List Char :=
  (cs.reverse.dropWhile inClass).reverse

/-- The characters left after those in a class are dropped at both ends. -/
def trim (inClass : Char → Bool) (cs : List Char) : List Char :=
  trimEnd inClass (cs.dropWhile inClass)

theorem dropWhile_of_forall {inClass : Char → Bool} {cs : List Char}
    (h : ∀ c ∈ cs, inClass c = false) : cs.dropWhile inClass = cs := by
  cases cs with
  | nil => rfl
  | cons c cs => exact List.dropWhile_cons_of_neg (by simp [h c])

theorem trimEnd_of_forall {inClass : Char → Bool} {cs : List Char}
    (h : ∀ c ∈ cs, inClass c = false) : trimEnd inClass cs = cs := by
  have hreverse : ∀ c ∈ cs.reverse, inClass c = false := fun c hc => h c (List.mem_reverse.1 hc)
  rw [trimEnd, dropWhile_of_forall hreverse, List.reverse_reverse]

theorem trim_of_forall {inClass : Char → Bool} {cs : List Char}
    (h : ∀ c ∈ cs, inClass c = false) : trim inClass cs = cs := by
  rw [trim, dropWhile_of_forall h, trimEnd_of_forall h]

end Text
end Reckon
