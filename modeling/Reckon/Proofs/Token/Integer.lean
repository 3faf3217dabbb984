import Reckon.Binding
import Reckon.Proofs.Double.Closest
import Reckon.Proofs.Token.Tiling

/-!
# Integer — one number in several notations

A natural number can be written with decimal digits of any script, or behind a zero and a letter with
the digits of another radix, and it can be supplied as an integer, as a decimal or as a fraction.  All
of these come to the double nearest to the number, as long as it does not round beyond the largest
one.  From there on decimal notations are infinite, and the others are refused.

* `Literal.IsDecimalSpelling`, `Literal.IsRadixSpelling` — the ways to write a natural number;
* `Literal.lex_of_spelling` — each of them is one token;
* `integers_read_alike` — what they denote.
-/

namespace Reckon
namespace Literal

open Text Token

/-- Digits that denote a number, with any zeros in front. -/
def Denotes (digit? : Char → Option Nat) (radix : Nat) (cs : List Char) (n : Nat) : Prop :=
  cs ≠ [] ∧ ∃ ds, cs.mapM digit? = some ds ∧ ofDigits radix ds = n

/-- A natural number in decimal digits of any script. -/
def IsDecimalSpelling (n : Nat) (text : String) : Prop :=
  Denotes decimalDigit? 10 text.toList n

/-- The letters behind the zero of an integer with a radix. -/
def radixLetters : List (Char × Nat) :=
  [('x', 16), ('X', 16), ('o', 8), ('O', 8), ('b', 2), ('B', 2)]

/-- A natural number in digits of radix sixteen, eight or two. -/
def IsRadixSpelling (n : Nat) (text : String) : Prop :=
  ∃ letter radix cs, (letter, radix) ∈ radixLetters ∧ text = String.ofList ('0' :: letter :: cs) ∧
    Denotes (radixDigit? radix) radix cs n

variable {n : Nat} {text : String} {cs : List Char}

/-! ## Digits -/

/-- Characters that are all digits. -/
theorem forall_of_mapM {digit? : Char → Option Nat} {ds : List Nat} (h : cs.mapM digit? = some ds) :
    (∀ c ∈ cs, (digit? c).isSome = true) ∧ cs.filterMap digit? = ds := by
  induction cs generalizing ds with
  | nil =>
    cases h
    exact ⟨nofun, rfl⟩
  | cons c cs ih =>
    rw [List.mapM_cons] at h
    obtain ⟨d, hd, h⟩ := Option.bind_eq_some_iff.1 h
    obtain ⟨ds', hds, h⟩ := Option.bind_eq_some_iff.1 h
    cases h
    obtain ⟨hcs, hvalues⟩ := ih hds
    refine ⟨List.forall_mem_cons.2 ⟨by rw [hd]; rfl, hcs⟩, ?_⟩
    rw [List.filterMap_cons_some hd, hvalues]

/-- Decimal digits as a numeral. -/
theorem exists_numeral_of_denotes (h : Denotes decimalDigit? 10 cs n) :
    ∃ m : Numeral, m.characters = cs ∧ m.double = Decimal.nearestMagnitude n 0 := by
  obtain ⟨hne, ds, hds, rfl⟩ := h
  obtain ⟨hdigits, hvalues⟩ := forall_of_mapM hds
  refine ⟨⟨⟨cs, hdigits⟩, none, none, Or.inl hne⟩, ?_, ?_⟩
  · simp [Numeral.characters, Numeral.fractionCharacters, Numeral.exponentCharacters]
  · simp [Numeral.double, Numeral.coefficient, Numeral.scale, Numeral.fractionDigits,
      DigitRun.values, hvalues]

theorem radix?_of_mem {letter : Char} {radix : Nat} (h : (letter, radix) ∈ radixLetters) :
    radix? letter = some radix := by
  have hall : ∀ p ∈ radixLetters, radix? p.1 = some p.2 := by decide
  exact hall _ h

/-! ## Tokens -/

/-- A number begins with a digit or a point. -/
theorem isBlank_of_numberLength {c : Char} (h : numberLength (c :: cs) ≠ 0) : isBlank c = false := by
  by_cases hpoint : c = '.'
  · subst hpoint
    decide
  · refine isBlank_of_isDecimalDigit ?_
    by_contra hdigit
    exact h (numberLength_eq_zero (Bool.eq_false_of_not_eq_true hdigit) hpoint cs)

/-- A source text that is a number from its first character to its last. -/
theorem lex_of_numberLength (hne : cs ≠ []) (h : numberLength cs = cs.length) :
    lex (String.ofList cs) = ⟨[⟨.number, String.ofList cs, 0⟩], none⟩ := by
  obtain ⟨c, cs, rfl⟩ := List.exists_cons_of_ne_nil hne
  have hnumber : numberLength (c :: cs) ≠ 0 := by
    rw [h]
    exact Nat.succ_ne_zero _
  refine lex_of_firstToken (isBlank_of_numberLength hnumber) ?_
  refine (if_pos hnumber).trans ?_
  rw [ofLength, h, List.take_length]
  rfl

theorem numberLength_of_radix {letter : Char} {radix : Nat} (hradix : radix? letter = some radix)
    (hne : cs ≠ []) (hcs : ∀ c ∈ cs, (radixDigit? radix c).isSome = true) :
    numberLength ('0' :: letter :: cs) = ('0' :: letter :: cs).length := by
  have hall : cs.takeWhile (fun d => (radixDigit? radix d).isSome) = cs :=
    List.takeWhile_eq_self_iff.2 hcs
  have hlength : radixLength ('0' :: letter :: cs) = 2 + cs.length := by
    simp [radixLength, hradix, hall, hne]
  rw [numberLength, hlength, if_neg (by omega), List.length_cons, List.length_cons]
  omega

/-- A natural number in whichever notation is one number token. -/
theorem lex_of_spelling (h : IsDecimalSpelling n text ∨ IsRadixSpelling n text) :
    lex text = ⟨[⟨.number, text, 0⟩], none⟩ := by
  rcases h with h | ⟨letter, radix, cs, hletter, rfl, hne, ds, hds, -⟩
  · obtain ⟨m, hcharacters, -⟩ := exists_numeral_of_denotes h
    have hend : Numeral.Stops [] := by
      rintro c ⟨⟩
    have hlength := m.numberLength_append hend
    rw [List.append_nil, hcharacters] at hlength
    have hlex := lex_of_numberLength h.1 hlength
    rwa [String.ofList_toList] at hlex
  · have hdigits := (forall_of_mapM hds).1
    -- the zero alone would be a decimal number, but a radix comes first
    exact lex_of_numberLength (List.cons_ne_nil _ _)
      (numberLength_of_radix (radix?_of_mem hletter) hne hdigits)

/-! ## Values -/

/-- Without an exponent a decimal number is rounded as it is. -/
theorem nearestMagnitude_natCast (n : Nat) :
    Decimal.nearestMagnitude n 0 = (Double.nearest? n 1).getD Double.infinity := by
  rcases Nat.eq_zero_or_pos n with rfl | hpos
  · rfl
  · have hvanishes : Decimal.vanishes n 0 = false := by
      simp [Decimal.vanishes, hpos.ne']
    have hexceeds : Decimal.exceeds 0 = false := by decide
    have hone : Nat.pow 10 (Int.toNat 0) = 1 := rfl
    rw [Decimal.nearestMagnitude, hvanishes, hexceeds, neg_zero, hone, Nat.mul_one]
    rfl

theorem value_of_decimalSpelling (h : IsDecimalSpelling n text) :
    value text = .ok ((Double.nearest? n 1).getD Double.infinity) := by
  obtain ⟨m, hcharacters, hdouble⟩ := exists_numeral_of_denotes h
  have hvalue := m.value_characters
  rwa [hcharacters, String.ofList_toList, hdouble, nearestMagnitude_natCast] at hvalue

theorem value_of_radixSpelling (h : IsRadixSpelling n text) :
    value text = (Double.nearest? n 1).elim (.error (.limit .integerTooLarge)) .ok := by
  obtain ⟨letter, radix, cs, hletter, rfl, hne, ds, hds, rfl⟩ := h
  have hradix := radix?_of_mem hletter
  obtain ⟨hdigits, hvalues⟩ := forall_of_mapM hds
  have hread : readRadix? radix cs = some (ofDigits radix ds) := by
    cases ds with
    | nil =>
      -- there is a digit, and it has a value
      obtain ⟨c, cs, rfl⟩ := List.exists_cons_of_ne_nil hne
      have hnone := List.filterMap_eq_nil_iff.1 hvalues c List.mem_cons_self
      have hsome := hdigits c List.mem_cons_self
      rw [hnone] at hsome
      cases hsome
    | cons d ds =>
      simp only [readRadix?, hds]
  have hnumber : radixNumber? radix cs = some (ofDigits radix ds) :=
    (radixNumber?_eq (mem_of_radix? hradix) hdigits).trans hread
  rw [value, String.toList_ofList]
  simp only [hradix, radixValue, hnumber]
  cases Double.nearest? (ofDigits radix ds) 1 <;> rfl

end Literal

/-! ## Supplied numbers -/

namespace Supplied

theorem coerce_integer (n : Nat) :
    (Supplied.integer n).coerce = within .integerTooLarge (Double.nearest? n 1) := by
  have hsign : decide ((n : Int) < 0) = false := decide_eq_false (by omega)
  rw [coerce, Double.ofInt?, Int.natAbs_natCast, hsign]
  cases Double.nearest? n 1 <;> rfl

theorem coerce_fraction (n : Nat) :
    (Supplied.fraction n 1).coerce = within .quotientTooLarge (Double.nearest? n 1) := by
  have hsign : decide ((n : Int) < 0) = false := decide_eq_false (by omega)
  have hpositive : decide ((1 : Int) < 0) = false := by decide
  have hone : Int.natAbs 1 = 1 := rfl
  rw [coerce, nearestFraction?, Int.natAbs_natCast, hone, hsign, hpositive,
    Bool.and_false]
  cases Double.nearest? n 1 <;> rfl

theorem coerce_decimal (n : Nat) :
    (Supplied.decimal (.finite false n 0)).coerce =
      .ok (.value (.number ((Double.nearest? n 1).getD Double.infinity))) := by
  rw [← Literal.nearestMagnitude_natCast]
  rfl

end Supplied

/-! ## All notations -/

open Literal

/-- Every number of a source text denotes a double, unless it is refused for its size.  A natural
number in whichever notation is one token, and all of its notations denote the double nearest to it,
as do the integer, the decimal and the fraction.  Where the number rounds beyond the largest double,
the decimal notations are infinite and the others are refused. -/
theorem integers_read_alike :
    (∀ source, ∀ t ∈ (Token.lex source).tokens, t.kind = .number →
      (∃ x, value t.text = .ok x) ∨ value t.text = .error (.limit .integerTooLarge)) ∧
    (∀ n text, IsDecimalSpelling n text ∨ IsRadixSpelling n text →
      Token.lex text = ⟨[⟨.number, text, 0⟩], none⟩) ∧
    (∀ n < Double.overflowBound, ∃ x, Double.IsNearest x n ∧
      (∀ text, IsDecimalSpelling n text ∨ IsRadixSpelling n text → value text = .ok x) ∧
      ∀ s ∈ [Supplied.integer n, .decimal (.finite false n 0), .fraction n 1],
        s.coerce = .ok (.value (.number x))) ∧
    ∀ n ≥ Double.overflowBound,
      (∀ text, IsDecimalSpelling n text → value text = .ok Double.infinity) ∧
      (∀ text, IsRadixSpelling n text → value text = .error (.limit .integerTooLarge)) ∧
      (Supplied.decimal (.finite false n 0)).coerce = .ok (.value (.number Double.infinity)) ∧
      (Supplied.integer n).coerce = .error .integerTooLarge ∧
      (Supplied.fraction n 1).coerce = .error .quotientTooLarge := by
  have hbound : ∀ n : Nat, Double.nearest? n 1 = none ↔ Double.overflowBound ≤ n := by
    intro n
    rw [Double.nearest?_eq_none_iff Nat.one_pos, Nat.cast_one, div_one, Nat.cast_le]
  -- every way to the double goes through the rounding of `n / 1`, so its outcome settles them all
  refine ⟨?_, fun n text => lex_of_spelling, ?_, ?_⟩
  · intro source t ht hkind
    exact (value_of_isNumber (Token.isNumber_of_lex ht hkind)).imp_right And.left
  · intro n hn
    have hsome : Double.nearest? n 1 ≠ none := fun hnone => absurd ((hbound n).1 hnone) (not_le.2 hn)
    obtain ⟨x, hx⟩ := Option.ne_none_iff_exists'.1 hsome
    have hnearest := Double.isNearest_of_nearest? Nat.one_pos hx
    rw [Nat.cast_one, div_one] at hnearest
    refine ⟨x, hnearest, ?_, ?_⟩
    · rintro text (h | h)
      · rw [value_of_decimalSpelling h, hx]
        rfl
      · rw [value_of_radixSpelling h, hx]
        rfl
    · simp only [List.mem_cons, List.not_mem_nil, or_false, forall_eq_or_imp, forall_eq,
        Supplied.coerce_integer, Supplied.coerce_decimal, Supplied.coerce_fraction, hx]
      exact ⟨rfl, rfl, rfl⟩
  · intro n hn
    have hnone := (hbound n).2 hn
    rw [Supplied.coerce_integer, Supplied.coerce_decimal, Supplied.coerce_fraction, hnone]
    refine ⟨?_, ?_, rfl, rfl, rfl⟩
    · intro text h
      rw [value_of_decimalSpelling h, hnone]
      rfl
    · intro text h
      rw [value_of_radixSpelling h, hnone]
      rfl

/-- Two notations of a number that lies in the middle between two doubles, and the first number that
is too large. -/
theorem integers_read_alike_of_tie :
    IsDecimalSpelling 9007199254740993 "09007199254740993" ∧
    IsRadixSpelling 9007199254740993 "0X20000000000001" ∧
    Token.lex "0X20000000000001" = ⟨[⟨.number, "0X20000000000001", 0⟩], none⟩ ∧
    (∃ x, Double.IsNearest x (9007199254740993 : Nat) ∧ value "09007199254740993" = .ok x ∧
      value "0X20000000000001" = .ok x ∧
      (Supplied.integer 9007199254740993).coerce = .ok (.value (.number x))) ∧
    (Supplied.integer Double.overflowBound).coerce = .error .integerTooLarge := by
  obtain ⟨-, hlex, hsmall, hlarge⟩ := integers_read_alike
  have hdecimal : IsDecimalSpelling 9007199254740993 "09007199254740993" :=
    ⟨by decide, [0, 9, 0, 0, 7, 1, 9, 9, 2, 5, 4, 7, 4, 0, 9, 9, 3], by decide, by decide⟩
  have hradix : IsRadixSpelling 9007199254740993 "0X20000000000001" :=
    ⟨'X', 16, "20000000000001".toList, by decide, by decide, by decide,
      [2, 0, 0, 0, 0, 0, 0, 0, 0, 0, 0, 0, 0, 1], by decide, by decide⟩
  obtain ⟨x, hx, hvalue, hcoerce⟩ := hsmall 9007199254740993 (by decide +kernel)
  exact ⟨hdecimal, hradix, hlex _ _ (Or.inr hradix),
    ⟨x, hx, hvalue _ (Or.inl hdecimal), hvalue _ (Or.inr hradix), hcoerce _ List.mem_cons_self⟩,
    (hlarge _ le_rfl).2.2.2.1⟩

end Reckon
