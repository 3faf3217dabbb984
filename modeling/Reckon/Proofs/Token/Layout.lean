import Reckon.Numeric.NumberFormat
import Reckon.Proofs.Double.Digits
import Reckon.Proofs.Token.Numeral

/-!
# Layout — printed numbers are numerals

A number is printed as a numeral of the language, in front of which a minus may stand.  Whichever
way its digits are laid out, the numeral denotes the number that the digits stand for, which need
not be the double itself; but it is near enough to be read back as the double.

* `Numeral.amount` — the exact number that a numeral denotes;
* `NumberFormat.exists_numeral` — the layout of a decimal magnitude;
* `NumberFormat.exists_numeral_of_finite` — a printed double is read back.
-/

namespace Reckon

open Text

/-! ## Digits -/

theorem decimalDigit?_of_isDigit {c : Char} (h : c.isDigit = true) :
    decimalDigit? c = some (c.toNat - '0'.toNat) := by
  have hrange : 48 ≤ c.toNat ∧ c.toNat ≤ 57 := by
    simp only [Char.isDigit, Bool.and_eq_true, decide_eq_true_eq] at h
    exact ⟨h.1, h.2⟩
  -- the digits of ASCII stand first in the table
  have hfind : (digitZeros.find? fun start => start ≤ c.toNat && c.toNat ≤ start + 9) =
      some 48 := by
    unfold digitZeros
    rw [List.find?_cons_of_pos (by simpa using hrange)]
  rw [decimalDigit?, hfind]
  rfl

theorem isDecimalDigit_of_isDigit {c : Char} (h : c.isDigit = true) : isDecimalDigit c = true := by
  rw [isDecimalDigit, decimalDigit?_of_isDigit h]
  rfl

/-- The number that digits of ASCII denote. -/
theorem ofDigits_filterMap {cs : List Char} (h : ∀ c ∈ cs, c.isDigit = true) :
    ofDigits 10 (cs.filterMap decimalDigit?) = Nat.ofDigitChars 10 cs 0 := by
  have hfold : ∀ init, (cs.filterMap decimalDigit?).foldl (fun value digit => 10 * value + digit)
      init = Nat.ofDigitChars 10 cs init := by
    induction cs with
    | nil =>
      intro init
      rfl
    | cons c cs ih =>
      intro init
      obtain ⟨hc, hcs⟩ := List.forall_mem_cons.1 h
      rw [List.filterMap_cons_some (decimalDigit?_of_isDigit hc), List.foldl_cons,
        Nat.ofDigitChars_cons]
      exact ih hcs _
  exact hfold 0

/-- A run of ASCII digits. -/
def DigitRun.ascii (cs : List Char) (h : ∀ c ∈ cs, c.isDigit = true) : DigitRun :=
  ⟨cs, fun c hc => isDecimalDigit_of_isDigit (h c hc)⟩

theorem isDigit_decimalDigits {n : Nat} : ∀ c ∈ NumberFormat.decimalDigits n, c.isDigit = true :=
  fun _ hc => Nat.isDigit_of_mem_toDigits (by decide) (by decide) hc

theorem isDigit_zeros (n : Nat) : ∀ c ∈ List.replicate n '0', c.isDigit = true := by
  intro c hc
  rw [List.eq_of_mem_replicate hc]
  rfl

theorem isDigit_padded (width n : Nat) : ∀ c ∈ NumberFormat.padded width n, c.isDigit = true :=
  List.forall_mem_append.2 ⟨isDigit_zeros _, isDigit_decimalDigits⟩

theorem ofDigitChars_zeros (n : Nat) (cs : List Char) :
    Nat.ofDigitChars 10 (List.replicate n '0' ++ cs) 0 = Nat.ofDigitChars 10 cs 0 := by
  rw [Nat.ofDigitChars_append, Nat.ofDigitChars_replicate_zero, Nat.mul_zero]

theorem ofDigitChars_padded (width n : Nat) :
    Nat.ofDigitChars 10 (NumberFormat.padded width n) 0 = n := by
  unfold NumberFormat.padded
  dsimp only
  rw [ofDigitChars_zeros]
  exact Nat.ofDigitChars_ten_toDigits

/-! ## Amounts -/

namespace Numeral

/-- The exact number that a numeral denotes. -/
def amount (n : Numeral) : ℚ :=
  n.coefficient * 10 ^ n.scale

/-- The number that the exponent of a numeral denotes. -/
def exponentValue (e : Option NumeralExponent) : ℤ :=
  (e.map NumeralExponent.value).getD 0

/-- Digits of ASCII around a point, with or without an exponent. -/
theorem exists_pointed {whole fraction : List Char} (hne : whole ≠ [])
    (hdigits : ∀ c ∈ whole ++ fraction, c.isDigit = true) (e : Option NumeralExponent) :
    ∃ n : Numeral, n.characters = whole ++ '.' :: fraction ++ exponentCharacters e ∧
      n.amount = Nat.ofDigitChars 10 (whole ++ fraction) 0 *
        10 ^ (exponentValue e - fraction.length) := by
  obtain ⟨hwhole, hfraction⟩ := List.forall_mem_append.1 hdigits
  refine ⟨⟨.ascii whole hwhole, some (.ascii fraction hfraction), e, Or.inl hne⟩, ?_, ?_⟩
  · simp [characters, fractionCharacters, DigitRun.ascii]
  · have hlength := (DigitRun.ascii fraction hfraction).length_values
    simp only [DigitRun.ascii] at hlength
    simp only [amount, coefficient, scale, fractionDigits, Option.map_some, Option.getD_some,
      DigitRun.values, DigitRun.ascii, exponentValue, ← List.filterMap_append,
      ofDigits_filterMap hdigits]
    simp only [DigitRun.values] at hlength
    rw [hlength]

/-- Digits of ASCII without a point. -/
theorem exists_unpointed {whole : List Char} (hne : whole ≠ [])
    (hdigits : ∀ c ∈ whole, c.isDigit = true) (e : Option NumeralExponent) :
    ∃ n : Numeral, n.characters = whole ++ exponentCharacters e ∧
      n.amount = Nat.ofDigitChars 10 whole 0 * 10 ^ exponentValue e := by
  refine ⟨⟨.ascii whole hdigits, none, e, Or.inl hne⟩, ?_, ?_⟩
  · simp [characters, fractionCharacters, DigitRun.ascii]
  · simp only [amount, coefficient, scale, fractionDigits, Option.map_none, Option.getD_none,
      DigitRun.values, DigitRun.ascii, exponentValue, List.append_nil, ofDigits_filterMap hdigits,
      List.length_nil, Nat.cast_zero, sub_zero]

/-- A numeral that denotes zero is read as zero. -/
theorem double_of_amount_zero {n : Numeral} (h : n.amount = 0) : n.double = 0 := by
  have hcoefficient : n.coefficient = 0 := by
    have hpower : (10 : ℚ) ^ n.scale ≠ 0 := by positivity
    exact Nat.cast_eq_zero.1 ((mul_eq_zero.1 h).resolve_right hpower)
  have hvanishes : Decimal.vanishes n.coefficient n.scale = true := by
    simp [Decimal.vanishes, hcoefficient]
  rw [double, Decimal.nearestMagnitude, if_pos hvanishes]

end Numeral

namespace NumberFormat

/-! ## Layouts -/

variable {ds : List Char} {exponent : ℤ}

/-- Digits around a point are a numeral without an exponent. -/
theorem exists_positional (hdigits : ∀ c ∈ ds, c.isDigit = true) (hne : ds ≠ []) (exponent : ℤ) :
    ∃ n : Numeral, n.characters = positional ds exponent ∧
      n.amount = Nat.ofDigitChars 10 ds 0 * 10 ^ (exponent + 1 - ds.length) := by
  unfold positional
  split
  · -- zeros stand between the point and the digits
    have hall : ∀ c ∈ ['0'] ++ (List.replicate ((-exponent).toNat - 1) '0' ++ ds),
        c.isDigit = true :=
      List.forall_mem_append.2
        ⟨isDigit_zeros 1, List.forall_mem_append.2 ⟨isDigit_zeros _, hdigits⟩⟩
    obtain ⟨n, hcharacters, hamount⟩ := Numeral.exists_pointed (by simp) hall none
    refine ⟨n, by simpa [Numeral.exponentCharacters] using hcharacters, hamount.trans ?_⟩
    have hzeros : ['0'] ++ (List.replicate ((-exponent).toNat - 1) '0' ++ ds) =
        List.replicate (1 + ((-exponent).toNat - 1)) '0' ++ ds := by
      rw [List.replicate_add, List.append_assoc]
      rfl
    have hscale : Numeral.exponentValue none -
        (List.replicate ((-exponent).toNat - 1) '0' ++ ds).length = exponent + 1 - ds.length := by
      rw [List.length_append, List.length_replicate]
      simp only [Numeral.exponentValue, Option.map_none, Option.getD_none]
      omega
    rw [hzeros, ofDigitChars_zeros, hscale]
  · rename_i hexponent
    dsimp only
    by_cases hlong : exponent.toNat + 1 < ds.length
    · -- the point stands among the digits
      have hsplit : ds.take (exponent.toNat + 1) ++ ds.drop (exponent.toNat + 1) = ds :=
        List.take_append_drop _ _
      have hwholeNe : ds.take (exponent.toNat + 1) ≠ [] := by
        simpa using hne
      have hfraction : (ds.drop (exponent.toNat + 1)).isEmpty = false := by
        simpa using hlong
      have hzeros : exponent.toNat + 1 - ds.length = 0 := by omega
      have hall : ∀ c ∈ ds.take (exponent.toNat + 1) ++ ds.drop (exponent.toNat + 1),
          c.isDigit = true := by
        rwa [hsplit]
      obtain ⟨n, hcharacters, hamount⟩ := Numeral.exists_pointed hwholeNe hall none
      refine ⟨n, ?_, hamount.trans ?_⟩
      · rw [hcharacters, hzeros, hfraction]
        simp [Numeral.exponentCharacters]
      · have hscale : Numeral.exponentValue none - (ds.drop (exponent.toNat + 1)).length =
            exponent + 1 - ds.length := by
          rw [List.length_drop]
          simp only [Numeral.exponentValue, Option.map_none, Option.getD_none]
          omega
        rw [hsplit, hscale]
    · -- the point stands behind the digits and zeros
      have hall : ∀ c ∈ (ds ++ List.replicate (exponent.toNat + 1 - ds.length) '0') ++ ['0'],
          c.isDigit = true :=
        List.forall_mem_append.2
          ⟨List.forall_mem_append.2 ⟨hdigits, isDigit_zeros _⟩, isDigit_zeros 1⟩
      have htake : ds.take (exponent.toNat + 1) = ds := List.take_of_length_le (by omega)
      have hdrop : ds.drop (exponent.toNat + 1) = [] := List.drop_eq_nil_of_le (by omega)
      obtain ⟨n, hcharacters, hamount⟩ := Numeral.exists_pointed (by simp [hne]) hall none
      refine ⟨n, ?_, hamount.trans ?_⟩
      · rw [hcharacters, htake, hdrop]
        simp [Numeral.exponentCharacters]
      · have hscale : exponent + 1 - ds.length =
            ((exponent.toNat + 1 - ds.length : ℕ) : ℤ) := by omega
        have hone : ['0'] = List.replicate 1 '0' := rfl
        rw [hscale, zpow_natCast, Nat.ofDigitChars_append, Nat.ofDigitChars_append, hone,
          Nat.ofDigitChars_replicate_zero, Nat.ofDigitChars_replicate_zero, List.length_replicate]
        simp only [Numeral.exponentValue, Option.map_none, Option.getD_none]
        push_cast
        norm_num
        ring

/-- An exponent as it is printed, always with a sign. -/
def printedExponent (width : Nat) (exponent : ℤ) : NumeralExponent where
  letter := 'e'
  isLetter := Or.inl rfl
  sign := if exponent < 0 then .minus else .plus
  run := .ascii _ (isDigit_padded width exponent.natAbs)
  nonempty := by simp [DigitRun.ascii, padded, decimalDigits, Nat.toDigits_ne_nil]

theorem characters_printedExponent (width : Nat) (exponent : ℤ) :
    (printedExponent width exponent).characters =
      'e' :: (if exponent < 0 then '-' else '+') :: padded width exponent.natAbs := by
  unfold NumeralExponent.characters printedExponent
  dsimp only
  split <;> rfl

theorem value_printedExponent (width : Nat) (exponent : ℤ) :
    (printedExponent width exponent).value = exponent := by
  have hdigits : ofDigits 10 (printedExponent width exponent).run.values = exponent.natAbs := by
    rw [DigitRun.values]
    exact (ofDigits_filterMap (isDigit_padded _ _)).trans (ofDigitChars_padded _ _)
  unfold NumeralExponent.value
  rw [hdigits]
  unfold printedExponent
  dsimp only
  by_cases hnegative : exponent < 0
  · rw [if_pos hnegative, if_pos rfl]
    omega
  · rw [if_neg hnegative, if_neg (by decide)]
    omega

/-- Digits in front of an exponent are a numeral with one. -/
theorem exists_scientific (f : NumberFormat) (hdigits : ∀ c ∈ ds, c.isDigit = true) (hne : ds ≠ [])
    (exponent : ℤ) :
    ∃ n : Numeral, n.characters = f.scientific ds exponent ∧
      n.amount = Nat.ofDigitChars 10 ds 0 * 10 ^ (exponent + 1 - ds.length) := by
  obtain ⟨d, ds, rfl⟩ := List.exists_cons_of_ne_nil hne
  have hvalue : Numeral.exponentValue (some (printedExponent f.exponentDigits exponent)) =
      exponent := value_printedExponent f.exponentDigits exponent
  have hwritten := characters_printedExponent f.exponentDigits exponent
  have hscale : exponent + 1 - (d :: ds).length = exponent - ds.length := by
    rw [List.length_cons]
    push_cast
    ring
  rw [hscale]
  -- a single digit stands without a point
  cases ds with
  | nil =>
    obtain ⟨n, hcharacters, hamount⟩ := Numeral.exists_unpointed hne hdigits
      (some (printedExponent f.exponentDigits exponent))
    refine ⟨n, ?_, ?_⟩
    · rw [hcharacters, Numeral.exponentCharacters, hwritten]
      rfl
    · rw [hamount, hvalue]
      simp
  | cons d' ds =>
    obtain ⟨n, hcharacters, hamount⟩ := Numeral.exists_pointed (List.cons_ne_nil d []) hdigits
      (some (printedExponent f.exponentDigits exponent))
    refine ⟨n, ?_, ?_⟩
    · rw [hcharacters, Numeral.exponentCharacters, hwritten]
      rfl
    · rw [hamount, hvalue]
      rfl

/-- Whichever way it is laid out, a magnitude is a numeral that denotes it. -/
theorem exists_magnitude (f : NumberFormat) (d : DecimalMagnitude) :
    ∃ n : Numeral, n.characters = f.magnitude d ∧ n.amount = d.significand * 10 ^ d.exponent := by
  have hne : decimalDigits d.significand ≠ [] := Nat.toDigits_ne_nil
  have hlength := List.length_pos_iff.2 hne
  have hvalue : Nat.ofDigitChars 10 (decimalDigits d.significand) 0 = d.significand :=
    Nat.ofDigitChars_ten_toDigits
  have hscale : d.exponent + ((decimalDigits d.significand).length - 1 : ℕ) + 1 -
      (decimalDigits d.significand).length = d.exponent := by omega
  unfold magnitude
  dsimp only
  split
  · obtain ⟨n, hcharacters, hamount⟩ := exists_positional isDigit_decimalDigits hne
      (d.exponent + ((decimalDigits d.significand).length - 1 : ℕ))
    exact ⟨n, hcharacters, by rw [hamount, hscale, hvalue]⟩
  · obtain ⟨n, hcharacters, hamount⟩ := exists_scientific f isDigit_decimalDigits hne
      (d.exponent + ((decimalDigits d.significand).length - 1 : ℕ))
    exact ⟨n, hcharacters, by rw [hamount, hscale, hvalue]⟩

/-! ## Printed doubles -/

/-- A finite double is printed as a numeral, with a minus in front of it if it is negative, and the
numeral is read back as the double. -/
theorem exists_numeral_of_isFinite (f : NumberFormat) {x : Float} (h : x.isFinite = true) :
    ∃ n : Numeral, f.characters x =
        (if Double.isNegative x then '-' :: n.characters else n.characters) ∧
      Double.signed (Double.isNegative x) n.double = x := by
  obtain ⟨m, hm⟩ := Double.exists_magnitude h
  obtain ⟨hcanonical, hbits⟩ := Double.IsCanonical.of_magnitude hm
  have hread : ∀ n : Numeral, n.double = Float.ofBits (UInt64.ofNat (Double.magnitudeBits x)) →
      Double.signed (Double.isNegative x) n.double = x := by
    intro n hn
    rw [hn]
    exact Double.signed_magnitude x
  have hcharacters : ∀ n : Numeral, n.characters =
      (if m.significand = 0 then ['0', '.', '0'] else f.magnitude (Shortest.digits m)) →
        f.characters x = if Double.isNegative x then '-' :: n.characters else n.characters := by
    intro n hn
    unfold characters
    rw [Double.isNaN_of_isFinite h, hm, hn]
    rfl
  -- zero has no digits that the interval could hold, and is printed by itself
  rcases Nat.eq_zero_or_pos m.significand with hzero | hpos
  · rw [if_pos hzero] at hcharacters
    obtain ⟨n, hn, hamount⟩ :=
      Numeral.exists_pointed (List.cons_ne_nil '0' []) (isDigit_zeros 2) none
    have hexponent : m.exponent = Double.leastExponent := by
      have hleast : Double.leastExponent = -1074 := rfl
      rcases hcanonical with h | h <;> omega
    have hnone : Double.magnitudeBits x = 0 := by
      rw [Double.magnitudeBits, hbits, hexponent, hzero, Int.sub_self]
      rfl
    refine ⟨n, hcharacters n hn, hread n ?_⟩
    have hdigits : Nat.ofDigitChars 10 (List.replicate 2 '0') 0 = 0 := by decide
    have hamountZero : n.amount = 0 := by
      rw [hamount]
      exact mul_eq_zero_of_left (Nat.cast_eq_zero.2 hdigits) _
    rw [hnone, n.double_of_amount_zero hamountZero]
    rfl
  · rw [if_neg hpos.ne'] at hcharacters
    obtain ⟨n, hn, hamount⟩ := exists_magnitude f (Shortest.digits m)
    refine ⟨n, hcharacters n hn, hread n ?_⟩
    have hcontains := Shortest.contains_digits hcanonical hpos
    rw [← hamount] at hcontains
    rw [Double.magnitudeBits, hbits]
    exact Decimal.nearestMagnitude_of_contains hcanonical hpos hcontains

end NumberFormat

end Reckon
