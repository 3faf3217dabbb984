/-!
# CodePoint — characters and halves of characters

The code points from `U+D800` to `U+DFFF` belong to no character.  Where texts are written in units
of sixteen bits, a character beyond the first 65536 is written by two of them: one from the lower
half of the range in front of one from the upper half.  In a text that is supplied from outside,
either of the two may stand alone.

So a `CodeText` is a list of code points, each of which is a character or half of one.  A `String`,
which has characters only, is taken for the text that consists of them.

* `CodePoint.ofCode` — the code point with a number;
* `CodeText.unicode?` — the string that a text consists of;
* `CodeText.leadingCharacters`, `CodeText.firstHalves` — where a text stops to be one of characters.
-/

namespace Reckon

/-- A character or half of one. -/
inductive CodePoint where
  | character (c : Char)
  /-- Half of a character, by its place among the code points from `U+D800` on. -/
  | half (place : Fin 0x800)
  deriving DecidableEq, Repr

namespace CodePoint

/-- The number of a code point. -/
def code : CodePoint → Nat
  | .character c => c.toNat
  | .half place => 0xD800 + place

/-- The code point with a number. -/
def ofCode (n : Nat) : CodePoint :=
  if h : 0xD800 ≤ n ∧ n < 0xE000 then .half ⟨n - 0xD800, by omega⟩ else .character (Char.ofNat n)

/-- The character that a code point is. -/
def character? : CodePoint → Option Char
  | .character c => some c
  | .half _ => none

/-- Whether a code point is a character. -/
def isCharacter (p : CodePoint) : Bool :=
  p.character?.isSome

theorem ofCode_code (p : CodePoint) : ofCode p.code = p := by
  cases p with
  | character c =>
    have hvalid : c.toNat < 0xD800 ∨ 0xDFFF < c.toNat ∧ c.toNat < 0x110000 := c.valid
    rw [code, ofCode, dif_neg (by omega), Char.ofNat_toNat]
  | half place =>
    have hplace := place.isLt
    rw [code, ofCode, dif_pos (by omega)]
    simp

theorem code_lt (p : CodePoint) : p.code < 0x110000 := by
  cases p with
  | character c =>
    have hvalid : c.toNat < 0xD800 ∨ 0xDFFF < c.toNat ∧ c.toNat < 0x110000 := c.valid
    rw [code]
    omega
  | half place =>
    have hplace := place.isLt
    rw [code]
    omega

end CodePoint

/-- A text by its code points. -/
@[ext] structure CodeText where
  points : List CodePoint
  deriving DecidableEq, Repr, Inhabited

namespace CodeText

/-- The text that consists of the characters of a string. -/
def ofString (s : String) : CodeText :=
  ⟨s.toList.map .character⟩

instance : Coe String CodeText := ⟨ofString⟩

def length (t : CodeText) : Nat :=
  t.points.length

instance : Append CodeText := ⟨fun s t => ⟨s.points ++ t.points⟩⟩

/-- The numbers of the code points of a text. -/
def codes (t : CodeText) : List Nat :=
  t.points.map CodePoint.code

/-- Texts are compared by the numbers of their code points. -/
instance : LT CodeText := ⟨fun s t => s.codes < t.codes⟩

instance : DecidableLT CodeText := fun s t => inferInstanceAs (Decidable (s.codes < t.codes))

/-- The string of the characters of a text, if it consists of characters. -/
def unicode? (t : CodeText) : Option String :=
  (t.points.mapM CodePoint.character?).map String.ofList

/-- The characters in front of the first half of one. -/
def leadingCharacters (t : CodeText) : List CodePoint :=
  t.points.takeWhile CodePoint.isCharacter

/-- The first halves of characters that stand side by side. -/
def firstHalves (t : CodeText) : List CodePoint :=
  (t.points.dropWhile CodePoint.isCharacter).takeWhile fun p => !p.isCharacter

theorem points_append (s t : CodeText) : (s ++ t).points = s.points ++ t.points := rfl

theorem length_append (s t : CodeText) : (s ++ t).length = s.length + t.length :=
  List.length_append

theorem length_ofString (s : String) : (s : CodeText).length = s.length := by
  rw [length, ofString, List.length_map, String.length_toList]

theorem lt_trans {s t u : CodeText} (h : s < t) (h' : t < u) : s < u :=
  List.lt_trans h h'

theorem lt_of_not_lt_of_lt {s t u : CodeText} (h : ¬t < s) (h' : t < u) : s < u := by
  change s.codes < u.codes
  exact List.lt_of_le_of_lt (List.not_lt.1 h) h'

theorem lt_of_lt_of_not_lt {s t u : CodeText} (h : s < t) (h' : ¬u < t) : s < u :=
  Decidable.byContradiction fun hnot => h' (lt_of_not_lt_of_lt hnot h)

theorem mapM_character?_eq_some_iff {ps : List CodePoint} {cs : List Char} :
    ps.mapM CodePoint.character? = some cs ↔ ps = cs.map .character := by
  induction ps generalizing cs with
  | nil => cases cs <;> simp
  | cons p ps ih =>
    cases p with
    | half place => cases cs <;> simp [CodePoint.character?]
    | character c =>
      rw [List.mapM_cons]
      change ((ps.mapM CodePoint.character?).bind fun cs => some (c :: cs)) = some cs ↔ _
      rw [Option.bind_eq_some_iff]
      cases cs with
      | nil => simp
      | cons d ds => simpa [ih] using and_comm

theorem unicode?_eq_some_iff {t : CodeText} {s : String} : t.unicode? = some s ↔ t = s := by
  rw [unicode?, Option.map_eq_some_iff]
  constructor
  · rintro ⟨cs, hcs, rfl⟩
    obtain ⟨points⟩ := t
    obtain rfl := mapM_character?_eq_some_iff.1 hcs
    rw [ofString, String.toList_ofList]
  · rintro rfl
    exact ⟨s.toList, mapM_character?_eq_some_iff.2 rfl, String.ofList_toList⟩

theorem unicode?_ofString (s : String) : (s : CodeText).unicode? = some s :=
  unicode?_eq_some_iff.2 rfl

end CodeText

end Reckon
