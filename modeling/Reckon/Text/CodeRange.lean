/-!
# CodeRange — character classes as tables of code points

A character class of the Unicode standard is kept as a list of closed intervals of code points.
Membership is decidable by running through the list, so every class below can be evaluated both by
the compiled program and inside a proof.
-/

namespace Reckon
namespace Text

/-- A list of closed intervals `(first, last)` of code points. -/
abbrev CodeRanges := List (Nat × Nat)

namespace CodeRanges

/-- Whether some interval of the table holds the character. -/
def contains (ranges : CodeRanges) (c : Char) : Bool :=
  ranges.any fun range => range.1 ≤ c.toNat && c.toNat ≤ range.2

theorem contains_iff {ranges : CodeRanges} {c : Char} :
    ranges.contains c = true ↔ ∃ range ∈ ranges, range.1 ≤ c.toNat ∧ c.toNat ≤ range.2 := by
  simp [contains]

end CodeRanges

end Text
end Reckon
