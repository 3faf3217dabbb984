import Reckon.Token.Lexer

/-!
# Numeral — decimal numerals as data

A decimal numeral without a sign has digits in front of a point, digits behind it, and an exponent.
Each part may be missing, but there is a digit somewhere in front of the exponent.  The reader of
tokens finds such numerals by their lengths, and the reader of decimals finds what they denote:

* `Numeral` — the parts of a numeral, and `Numeral.characters` — how it is written;
* `Numeral.value_characters` — the double that it denotes as a literal;
* `Numeral.exists_of_decimalLength` — what the reader of tokens takes for a decimal number is a
  numeral;
* `Numeral.numberLength_append` — and it takes all of it.
-/

namespace Reckon

open Text

/-- Characters that are decimal digits. -/
structure DigitRun where
  characters : List Char
  digits : ∀ c ∈ characters, isDecimalDigit c = true

/-- The sign of an exponent, which need not be there. -/
inductive ExponentSign where
  | none
  | plus
  | minus
  deriving DecidableEq, Repr

/-- The exponent of a numeral. -/
structure NumeralExponent where
  letter : Char
  isLetter : letter = 'e' ∨ letter = 'E'
  sign : ExponentSign
  run : DigitRun
  nonempty : run.characters ≠ []

/-- A decimal numeral without a sign. -/
structure Numeral where
  whole : DigitRun
  fraction : Option DigitRun
  exponent : Option NumeralExponent
  nonempty : whole.characters ≠ [] ∨ ∃ run, fraction = some run ∧ run.characters ≠ []

/-! ## Runs of characters -/

namespace Text

variable {p : Char → Bool} {cs rest : List Char}

theorem take_length_takeWhile (p : Char → Bool) (cs : List Char) :
    cs.take (cs.takeWhile p).length = cs.takeWhile p :=
  (List.prefix_iff_eq_take.1 (List.takeWhile_prefix p)).symm

/-- A run ends where a character stands that is not in its class. -/
theorem takeWhile_append_of_head (hcs : ∀ c ∈ cs, p c = true)
    (hrest : ∀ c, rest.head? = some c → p c = false) : (cs ++ rest).takeWhile p = cs := by
  have hend : rest.takeWhile p = [] := by
    cases rest with
    | nil =>
      rfl
    | cons c rest =>
      exact List.takeWhile_cons_of_neg (by simp [hrest c rfl])
  rw [List.takeWhile_append_of_pos hcs, hend, List.append_nil]

theorem ne_sign_of_isDecimalDigit {c : Char} (h : isDecimalDigit c = true) : c ≠ '-' ∧ c ≠ '+' := by
  constructor
  · rintro rfl
    exact absurd h (by decide)
  · rintro rfl
    exact absurd h (by decide)

end Text

/-! ## Parts -/

/-- What follows does not begin with a decimal digit. -/
def EndsDigits (rest : List Char) : Prop :=
  ∀ c, rest.head? = some c → isDecimalDigit c = false

theorem endsDigits_nil : EndsDigits [] := by
  rintro c ⟨⟩

namespace DigitRun

/-- The digits of a run. -/
def values (r : DigitRun) : List Nat :=
  r.characters.filterMap decimalDigit?

theorem length_values (r : DigitRun) : r.values.length = r.characters.length := by
  obtain ⟨cs, hcs⟩ := r
  unfold values
  induction cs with
  | nil =>
    rfl
  | cons c cs ih =>
    obtain ⟨hc, hcs⟩ := List.forall_mem_cons.1 hcs
    obtain ⟨d, hd⟩ := Option.isSome_iff_exists.1 hc
    have hrest := ih hcs
    simpa [hd] using hrest

theorem values_ne_nil {r : DigitRun} (h : r.characters ≠ []) : r.values ≠ [] := by
  rw [← List.length_pos_iff, length_values, List.length_pos_iff]
  exact h

theorem spanDigits_append (r : DigitRun) {rest : List Char} (hrest : EndsDigits rest) :
    Decimal.spanDigits (r.characters ++ rest) = (r.values, rest) := by
  obtain ⟨cs, hcs⟩ := r
  unfold values
  induction cs with
  | nil =>
    cases rest with
    | nil =>
      rfl
    | cons c rest =>
      have hc : decimalDigit? c = none := by simpa [isDecimalDigit] using hrest c rfl
      simp [Decimal.spanDigits, hc]
  | cons c cs ih =>
    obtain ⟨hc, hcs⟩ := List.forall_mem_cons.1 hcs
    obtain ⟨d, hd⟩ := Option.isSome_iff_exists.1 hc
    have hspan := ih hcs
    simp [Decimal.spanDigits, hd, hspan]

theorem digitCount_append (r : DigitRun) {rest : List Char} (hrest : EndsDigits rest) :
    Token.digitCount (r.characters ++ rest) = r.characters.length := by
  unfold Token.digitCount
  rw [takeWhile_append_of_head r.digits hrest]

/-- The digits at the front of some characters. -/
def front (cs : List Char) : DigitRun :=
  ⟨cs.takeWhile isDecimalDigit, fun _ hc => List.all_eq_true.1 List.all_takeWhile _ hc⟩

theorem take_digitCount (cs : List Char) :
    cs.take (Token.digitCount cs) = (front cs).characters :=
  take_length_takeWhile isDecimalDigit cs

end DigitRun

namespace ExponentSign

def characters : ExponentSign → List Char
  | none => []
  | plus => ['+']
  | minus => ['-']

end ExponentSign

namespace NumeralExponent

def characters (e : NumeralExponent) : List Char :=
  e.letter :: e.sign.characters ++ e.run.characters

def value (e : NumeralExponent) : Int :=
  let n : Int := ofDigits 10 e.run.values
  if e.sign = .minus then -n else n

end NumeralExponent

namespace Numeral

/-- The characters of a fraction, the point included. -/
def fractionCharacters : Option DigitRun → List Char
  | none => []
  | some run => '.' :: run.characters

def exponentCharacters : Option NumeralExponent → List Char
  | none => []
  | some e => e.characters

def characters (n : Numeral) : List Char :=
  n.whole.characters ++ (fractionCharacters n.fraction ++ exponentCharacters n.exponent)

/-- The digits behind the point. -/
def fractionDigits (n : Numeral) : List Nat :=
  (n.fraction.map DigitRun.values).getD []

def coefficient (n : Numeral) : Nat :=
  ofDigits 10 (n.whole.values ++ n.fractionDigits)

/-- The power of ten that the coefficient is scaled by. -/
def scale (n : Numeral) : Int :=
  (n.exponent.map NumeralExponent.value).getD 0 - n.fractionDigits.length

end Numeral

/-! ## The characters of a numeral -/

/-- Whether a character may stand in a numeral. -/
def isNumeralCharacter (c : Char) : Bool :=
  isDecimalDigit c || c ∈ ['.', 'e', 'E', '+', '-']

/-- A decimal digit is no white space. -/
theorem isBlank_of_isDecimalDigit {c : Char} (h : isDecimalDigit c = true) : isBlank c = false := by
  obtain ⟨d, hd⟩ := Option.isSome_iff_exists.1 h
  obtain ⟨start, hstart, -⟩ := Option.map_eq_some_iff.1 hd
  have hmem := List.mem_of_find?_eq_some hstart
  have hrange := List.find?_some hstart
  simp only [Bool.and_eq_true, decide_eq_true_eq] at hrange
  -- no run of ten digits meets a range of white space
  have hdisjoint : ∀ first ∈ digitZeros, ∀ range ∈ blankRanges,
      first + 9 < range.1 ∨ range.2 < first := by
    decide
  rw [Bool.eq_false_iff, ne_eq, isBlank, CodeRanges.contains_iff]
  rintro ⟨range, hrangeMem, hlow, hhigh⟩
  have happart := hdisjoint start hmem range hrangeMem
  omega

theorem isBlank_of_isNumeralCharacter {c : Char} (h : isNumeralCharacter c = true) :
    isBlank c = false := by
  simp only [isNumeralCharacter, Bool.or_eq_true, List.mem_cons, List.not_mem_nil, or_false,
    decide_eq_true_eq] at h
  rcases h with h | rfl | rfl | rfl | rfl | rfl
  · exact isBlank_of_isDecimalDigit h
  all_goals decide

theorem radix?_of_isNumeralCharacter {c : Char} (h : isNumeralCharacter c = true) :
    Literal.radix? c = none := by
  have hletter : ∀ x ∈ ['x', 'X', 'o', 'O', 'b', 'B'], c ≠ x := by
    rintro x hx rfl
    have hnone : ∀ x ∈ ['x', 'X', 'o', 'O', 'b', 'B'], isNumeralCharacter x = false := by
      simp only [List.mem_cons, List.not_mem_nil, or_false, forall_eq_or_imp, forall_eq]
      decide
    rw [hnone c hx] at h
    cases h
  simp only [List.mem_cons, List.not_mem_nil, or_false, forall_eq_or_imp, forall_eq] at hletter
  simp [Literal.radix?, hletter]

namespace Numeral

theorem isNumeralCharacter_of_run {r : DigitRun} {c : Char} (hc : c ∈ r.characters) :
    isNumeralCharacter c = true := by
  simp [isNumeralCharacter, r.digits c hc]

theorem isNumeralCharacter_of_exponent {e : NumeralExponent} {c : Char} (hc : c ∈ e.characters) :
    isNumeralCharacter c = true := by
  rcases List.mem_append.1 hc with hc | hc
  · rcases List.mem_cons.1 hc with rfl | hc
    · rcases e.isLetter with h | h <;> rw [h] <;> decide
    · cases hsign : e.sign <;> simp [hsign, ExponentSign.characters] at hc <;> subst hc <;> decide
  · exact isNumeralCharacter_of_run hc

theorem isNumeralCharacter_of_mem {n : Numeral} {c : Char} (hc : c ∈ n.characters) :
    isNumeralCharacter c = true := by
  rcases List.mem_append.1 hc with hc | hc
  · exact isNumeralCharacter_of_run hc
  · rcases List.mem_append.1 hc with hc | hc
    · cases hfraction : n.fraction with
      | none =>
        simp [hfraction, fractionCharacters] at hc
      | some run =>
        rw [hfraction] at hc
        rcases List.mem_cons.1 hc with rfl | hc
        · decide
        · exact isNumeralCharacter_of_run hc
    · cases hexponent : n.exponent with
      | none =>
        simp [hexponent, exponentCharacters] at hc
      | some e =>
        rw [hexponent] at hc
        exact isNumeralCharacter_of_exponent hc

/-! ## Reading -/

/-- What may stand behind a numeral: it continues no part of it. -/
def Stops (rest : List Char) : Prop :=
  ∀ c, rest.head? = some c → isNumeralCharacter c = false ∧ Literal.radix? c = none

theorem Stops.endsDigits {rest : List Char} (h : Stops rest) : EndsDigits rest := by
  intro c hc
  have hcharacter := (h c hc).1
  rw [isNumeralCharacter, Bool.or_eq_false_iff] at hcharacter
  exact hcharacter.1

theorem Stops.ne {rest : List Char} (h : Stops rest) {c x : Char} (hc : rest.head? = some c)
    (hx : isNumeralCharacter x = true) : c ≠ x := by
  rintro rfl
  rw [(h c hc).1] at hx
  cases hx

theorem endsDigits_cons {c : Char} (hc : isDecimalDigit c = false) (cs : List Char) :
    EndsDigits (c :: cs) := by
  intro x hx
  rw [← Option.some.inj hx]
  exact hc

theorem endsDigits_exponent (e : Option NumeralExponent) {rest : List Char}
    (hrest : EndsDigits rest) : EndsDigits (exponentCharacters e ++ rest) := by
  cases e with
  | none =>
    exact hrest
  | some e =>
    refine endsDigits_cons ?_ _
    rcases e.isLetter with h | h <;> rw [h] <;> decide

theorem endsDigits_fraction (f : Option DigitRun) (e : Option NumeralExponent) {rest : List Char}
    (hrest : EndsDigits rest) :
    EndsDigits (fractionCharacters f ++ (exponentCharacters e ++ rest)) := by
  cases f with
  | none =>
    exact endsDigits_exponent e hrest
  | some run =>
    exact endsDigits_cons (by decide) _

theorem spanFraction_append (f : Option DigitRun) (e : Option NumeralExponent) :
    Decimal.spanFraction (fractionCharacters f ++ exponentCharacters e) =
      ((f.map DigitRun.values).getD [], exponentCharacters e) := by
  have hends : EndsDigits (exponentCharacters e) := by
    simpa using endsDigits_exponent e endsDigits_nil
  cases f with
  | some run =>
    exact run.spanDigits_append hends
  | none =>
    cases e with
    | none =>
      rfl
    | some e =>
      -- the letter of the exponent is no point
      have hletter : e.letter ≠ '.' := by
        rcases e.isLetter with h | h <;> rw [h] <;> decide
      simp [fractionCharacters, exponentCharacters, NumeralExponent.characters,
        Decimal.spanFraction, hletter]

/-- The sign of an exponent is found, since no digit is a sign. -/
theorem spanSign_append (sign : ExponentSign) (run : DigitRun) (hne : run.characters ≠ []) :
    Decimal.spanSign (sign.characters ++ run.characters) =
      (decide (sign = .minus), run.characters) := by
  obtain ⟨c, cs, hcs⟩ := List.exists_cons_of_ne_nil hne
  obtain ⟨hminus, hplus⟩ := ne_sign_of_isDecimalDigit (run.digits c (by simp [hcs]))
  cases sign with
  | none =>
    simp [ExponentSign.characters, hcs, Decimal.spanSign, hminus, hplus]
  | plus =>
    rfl
  | minus =>
    rfl

theorem readExponent?_characters (e : Option NumeralExponent) :
    Decimal.readExponent? (exponentCharacters e) = some ((e.map NumeralExponent.value).getD 0) := by
  cases e with
  | none =>
    rfl
  | some e =>
    have hspan : Decimal.spanDigits e.run.characters = (e.run.values, []) := by
      simpa using e.run.spanDigits_append endsDigits_nil
    obtain ⟨d, ds, hvalues⟩ := List.exists_cons_of_ne_nil (DigitRun.values_ne_nil e.nonempty)
    rw [exponentCharacters, NumeralExponent.characters, List.cons_append, Decimal.readExponent?,
      if_pos e.isLetter, spanSign_append e.sign e.run e.nonempty]
    simp only [hspan, hvalues, Option.map_some, Option.getD_some, NumeralExponent.value,
      decide_eq_true_eq]

/-- The reader of decimals finds the coefficient and the scale of a numeral. -/
theorem readUnsigned?_characters (n : Numeral) :
    Decimal.readUnsigned? n.characters = some (n.coefficient, n.scale) := by
  have hends : EndsDigits (fractionCharacters n.fraction ++ exponentCharacters n.exponent) := by
    simpa using endsDigits_fraction n.fraction n.exponent endsDigits_nil
  have hspan : Decimal.spanDigits n.characters =
      (n.whole.values, fractionCharacters n.fraction ++ exponentCharacters n.exponent) :=
    n.whole.spanDigits_append hends
  have hsome : (n.whole.values.isEmpty && n.fractionDigits.isEmpty) = false := by
    rw [Bool.and_eq_false_iff, List.isEmpty_eq_false_iff, List.isEmpty_eq_false_iff]
    rcases n.nonempty with h | ⟨run, hrun, h⟩
    · exact Or.inl (DigitRun.values_ne_nil h)
    · have hdigits : n.fractionDigits = run.values := by simp [fractionDigits, hrun]
      rw [hdigits]
      exact Or.inr (DigitRun.values_ne_nil h)
  have hfraction := spanFraction_append n.fraction n.exponent
  simp only [Decimal.readUnsigned?, hspan, hfraction, readExponent?_characters]
  exact if_neg (by simpa [fractionDigits] using hsome)

/-- A numeral begins with a digit or with the point. -/
theorem exists_head (n : Numeral) :
    ∃ c cs, n.characters = c :: cs ∧ (isDecimalDigit c = true ∨ c = '.') := by
  cases hwhole : n.whole.characters with
  | cons c cs =>
    refine ⟨c, _, by rw [characters, hwhole]; rfl, Or.inl (n.whole.digits c ?_)⟩
    simp [hwhole]
  | nil =>
    rcases n.nonempty with h | ⟨run, hrun, -⟩
    · exact absurd hwhole h
    · exact ⟨'.', _, by rw [characters, hwhole, hrun]; rfl, Or.inr rfl⟩

/-- A numeral does not begin with a sign. -/
theorem head_ne_sign {n : Numeral} {c : Char} (h : n.characters.head? = some c) :
    c ≠ '-' ∧ c ≠ '+' := by
  obtain ⟨d, cs, hcs, hd⟩ := n.exists_head
  rw [hcs] at h
  obtain rfl := Option.some.inj h
  rcases hd with hd | rfl
  · exact ne_sign_of_isDecimalDigit hd
  · decide

/-- A numeral has no margin. -/
theorem trim_characters (n : Numeral) : trim isMargin n.characters = n.characters := by
  refine trim_of_forall ?_
  intro c hc
  rw [isMargin, isBlank_of_isNumeralCharacter (isNumeralCharacter_of_mem hc), Bool.false_and]

theorem read?_characters (n : Numeral) :
    Decimal.read? n.characters = some (.finite false n.coefficient n.scale) := by
  have hsign : Decimal.spanSign n.characters = (false, n.characters) := by
    obtain ⟨c, cs, hcs, -⟩ := n.exists_head
    obtain ⟨hminus, hplus⟩ := n.head_ne_sign (congrArg List.head? hcs)
    simp [hcs, Decimal.spanSign, hminus, hplus]
  rw [Decimal.read?, trim_characters, Decimal.readBare?, hsign]
  simp only [readUnsigned?_characters]

/-- What a numeral denotes as a literal. -/
def double (n : Numeral) : Float :=
  Decimal.nearestMagnitude n.coefficient n.scale

theorem value_characters (n : Numeral) :
    Literal.value (String.ofList n.characters) = .ok n.double := by
  have hunderscore : '_' ∉ n.characters := by
    intro h
    exact absurd (isNumeralCharacter_of_mem h) (by decide)
  have hdecimal : Literal.decimalValue (String.ofList n.characters) = .ok n.double := by
    simp only [Literal.decimalValue, String.toList_ofList,
      dropSeparators?_of_notMem hunderscore, Option.bind_some, read?_characters]
    rfl
  -- behind a zero in front there is no letter of a radix
  rw [Literal.value, String.toList_ofList]
  split
  · rename_i c cs hcs
    have hc : c ∈ n.characters := by simp [hcs]
    rw [radix?_of_isNumeralCharacter (isNumeralCharacter_of_mem hc)]
    exact hdecimal
  · exact hdecimal

/-! ## Finding the end -/

theorem take_fractionLength (cs : List Char) :
    ∃ f, cs.take (Token.fractionLength cs) = fractionCharacters f ∧
      Token.fractionLength cs = (fractionCharacters f).length := by
  unfold Token.fractionLength
  split
  · rename_i cs
    refine ⟨some (.front cs), ?_, ?_⟩
    · rw [Nat.add_comm, List.take_succ_cons, DigitRun.take_digitCount]
      rfl
    · rw [Nat.add_comm]
      rfl
  · exact ⟨none, rfl, rfl⟩

theorem take_signLength (cs : List Char) :
    ∃ sign : ExponentSign, cs.take (Token.signLength cs) = sign.characters := by
  unfold Token.signLength
  split
  · exact ⟨.plus, rfl⟩
  · exact ⟨.minus, rfl⟩
  · exact ⟨.none, rfl⟩

theorem take_exponentLength (cs : List Char) :
    ∃ e, cs.take (Token.exponentLength cs) = exponentCharacters e := by
  unfold Token.exponentLength
  split
  · exact ⟨none, rfl⟩
  · rename_i letter cs
    split
    · rename_i hletter
      obtain ⟨sign, hsign⟩ := take_signLength cs
      dsimp only
      split
      · exact ⟨none, rfl⟩
      · rename_i hdigits
        have hne : (DigitRun.front (cs.drop (Token.signLength cs))).characters ≠ [] := by
          intro hnil
          exact hdigits (congrArg List.length hnil)
        refine ⟨some ⟨letter, hletter, sign, _, hne⟩, ?_⟩
        rw [Nat.add_assoc, Nat.add_comm, List.take_succ_cons, List.take_add, hsign,
          DigitRun.take_digitCount]
        rfl
    · exact ⟨none, rfl⟩

/-- A mantissa has a digit in front of its point or behind it. -/
theorem mantissaLength_of_ne_zero {cs : List Char} (h : Token.mantissaLength cs ≠ 0) :
    Token.mantissaLength cs =
        Token.digitCount cs + Token.fractionLength (cs.drop (Token.digitCount cs)) ∧
      (Token.digitCount cs ≠ 0 ∨ 1 < Token.fractionLength (cs.drop (Token.digitCount cs))) := by
  unfold Token.mantissaLength at h ⊢
  dsimp only at h ⊢
  split at h
  · exact absurd rfl h
  · rename_i hdigit
    rw [if_neg hdigit]
    exact ⟨rfl, by omega⟩

/-- What the reader of tokens takes for a decimal number is a numeral. -/
theorem exists_of_decimalLength {cs : List Char} (h : Token.decimalLength cs ≠ 0) :
    ∃ n : Numeral, cs.take (Token.decimalLength cs) = n.characters := by
  have hmantissa : Token.mantissaLength cs ≠ 0 := by
    intro hzero
    exact h (by simp [Token.decimalLength, hzero])
  have hdecimal : Token.decimalLength cs =
      Token.mantissaLength cs + Token.exponentLength (cs.drop (Token.mantissaLength cs)) := by
    simp [Token.decimalLength, hmantissa]
  obtain ⟨hsum, hdigit⟩ := mantissaLength_of_ne_zero hmantissa
  obtain ⟨f, hf, hlength⟩ := take_fractionLength (cs.drop (Token.digitCount cs))
  obtain ⟨e, he⟩ := take_exponentLength (cs.drop (Token.mantissaLength cs))
  have hnonempty : (DigitRun.front cs).characters ≠ [] ∨
      ∃ run, f = some run ∧ run.characters ≠ [] := by
    rcases hdigit with hwhole | hfraction
    · exact Or.inl fun hnil => hwhole (congrArg List.length hnil)
    · cases f with
      | none =>
        rw [hlength] at hfraction
        exact absurd hfraction (by simp [fractionCharacters])
      | some run =>
        refine Or.inr ⟨run, rfl, ?_⟩
        intro hnil
        rw [hlength, fractionCharacters, hnil] at hfraction
        exact absurd hfraction (by simp)
  refine ⟨⟨.front cs, f, e, hnonempty⟩, ?_⟩
  rw [hdecimal, List.take_add, he, hsum, List.take_add, DigitRun.take_digitCount, hf,
    List.append_assoc]
  rfl

/-! ## Finding no more than the numeral -/

theorem signLength_append (sign : ExponentSign) {run : DigitRun} (hne : run.characters ≠ [])
    (rest : List Char) :
    Token.signLength (sign.characters ++ run.characters ++ rest) = sign.characters.length := by
  obtain ⟨c, cs, hcs⟩ := List.exists_cons_of_ne_nil hne
  obtain ⟨hminus, hplus⟩ := ne_sign_of_isDecimalDigit (run.digits c (by simp [hcs]))
  cases sign with
  | none =>
    simp [ExponentSign.characters, hcs, Token.signLength, hminus, hplus]
  | plus =>
    rfl
  | minus =>
    rfl

theorem exponentLength_append (e : Option NumeralExponent) {rest : List Char} (hrest : Stops rest) :
    Token.exponentLength (exponentCharacters e ++ rest) = (exponentCharacters e).length := by
  cases e with
  | none =>
    cases rest with
    | nil =>
      rfl
    | cons c rest =>
      have hlower : c ≠ 'e' := hrest.ne rfl (by decide)
      have hupper : c ≠ 'E' := hrest.ne rfl (by decide)
      simp [exponentCharacters, Token.exponentLength, hlower, hupper]
  | some e =>
    have hsign := signLength_append e.sign e.nonempty rest
    have hdrop : (e.sign.characters ++ e.run.characters ++ rest).drop e.sign.characters.length =
        e.run.characters ++ rest := by
      rw [List.append_assoc, List.drop_left]
    have hdigits := e.run.digitCount_append hrest.endsDigits
    have hpos : e.run.characters.length ≠ 0 := fun h => e.nonempty (List.eq_nil_of_length_eq_zero h)
    simp only [exponentCharacters, NumeralExponent.characters, List.cons_append,
      Token.exponentLength, if_pos e.isLetter, hsign, hdrop, hdigits, if_neg hpos,
      List.length_cons, List.length_append]
    omega

theorem fractionLength_append (f : Option DigitRun) (e : Option NumeralExponent)
    {rest : List Char} (hrest : Stops rest) :
    Token.fractionLength (fractionCharacters f ++ (exponentCharacters e ++ rest)) =
      (fractionCharacters f).length := by
  cases f with
  | some run =>
    have hdigits := run.digitCount_append (endsDigits_exponent e hrest.endsDigits)
    simp only [fractionCharacters, List.cons_append, Token.fractionLength, hdigits,
      List.length_cons]
    omega
  | none =>
    have hpoint : ∀ c cs, exponentCharacters e ++ rest = c :: cs → c ≠ '.' := by
      intro c cs hcs
      cases e with
      | none =>
        refine hrest.ne ?_ (by decide)
        rw [exponentCharacters, List.nil_append] at hcs
        rw [hcs]
        rfl
      | some e =>
        obtain ⟨rfl, -⟩ := List.cons.inj hcs
        rcases e.isLetter with h | h <;> rw [h] <;> decide
    rw [fractionCharacters, List.nil_append]
    unfold Token.fractionLength
    split
    · rename_i cs hcs
      exact absurd rfl (hpoint _ _ hcs)
    · rfl

theorem decimalLength_append (n : Numeral) {rest : List Char} (hrest : Stops rest) :
    Token.decimalLength (n.characters ++ rest) = n.characters.length := by
  have hassoc : n.characters ++ rest = n.whole.characters ++
      (fractionCharacters n.fraction ++ (exponentCharacters n.exponent ++ rest)) := by
    simp [characters]
  have hwhole : Token.digitCount (n.characters ++ rest) = n.whole.characters.length := by
    rw [hassoc]
    exact n.whole.digitCount_append (endsDigits_fraction _ _ hrest.endsDigits)
  have hfraction : Token.fractionLength ((n.characters ++ rest).drop n.whole.characters.length) =
      (fractionCharacters n.fraction).length := by
    rw [hassoc, List.drop_left]
    exact fractionLength_append n.fraction n.exponent hrest
  have hdigit : ¬(n.whole.characters.length = 0 ∧ (fractionCharacters n.fraction).length ≤ 1) := by
    rintro ⟨hzero, hone⟩
    rcases n.nonempty with h | ⟨run, hrun, h⟩
    · exact h (List.eq_nil_of_length_eq_zero hzero)
    · rw [hrun, fractionCharacters, List.length_cons] at hone
      exact h (List.eq_nil_of_length_eq_zero (by omega))
  have hmantissa : Token.mantissaLength (n.characters ++ rest) =
      n.whole.characters.length + (fractionCharacters n.fraction).length := by
    simp only [Token.mantissaLength, hwhole, hfraction, if_neg hdigit]
  have hexponent : Token.exponentLength ((n.characters ++ rest).drop
      (n.whole.characters.length + (fractionCharacters n.fraction).length)) =
        (exponentCharacters n.exponent).length := by
    rw [hassoc, ← List.drop_drop, List.drop_left, List.drop_left]
    exact exponentLength_append n.exponent hrest
  have hpos : ¬n.whole.characters.length + (fractionCharacters n.fraction).length = 0 := by
    intro hzero
    exact hdigit (by omega)
  have hlength : n.characters.length = n.whole.characters.length +
      (fractionCharacters n.fraction).length + (exponentCharacters n.exponent).length := by
    simp [characters, Nat.add_assoc]
  simp only [Token.decimalLength, hmantissa, hexponent, if_neg hpos, hlength]

/-- The reader of tokens takes all of a numeral, and nothing of what stands behind it. -/
theorem numberLength_append (n : Numeral) {rest : List Char} (hrest : Stops rest) :
    Token.numberLength (n.characters ++ rest) = n.characters.length := by
  have hradix : Token.radixLength (n.characters ++ rest) = 0 := by
    unfold Token.radixLength
    split
    · rename_i c cs hcs
      -- the second character belongs to the numeral, or it is the first one behind it
      have hnone : Literal.radix? c = none := by
        obtain ⟨first, others, hhead, -⟩ := n.exists_head
        rw [hhead] at hcs
        have htail : others ++ rest = c :: cs := (List.cons.inj hcs).2
        cases others with
        | nil =>
          rw [List.nil_append] at htail
          exact (hrest c (by rw [htail]; rfl)).2
        | cons second others =>
          have hmem : second ∈ n.characters := by simp [hhead]
          rw [← (List.cons.inj htail).1]
          exact radix?_of_isNumeralCharacter (isNumeralCharacter_of_mem hmem)
      rw [hnone]
    · rfl
  simp only [Token.numberLength, hradix, n.decimalLength_append hrest, if_true]

end Numeral

end Reckon
