import Reckon.Proofs.Double.Nearest
import Reckon.Proofs.Token.Numeral

/-!
# Word — the tokens that source texts hold

The numbers of a source text are decimal numerals and integers with a radix, and its names begin
with a letter.  So all of its numbers are read, except for integers with a radix beyond the range of
a double.

* `Token.IsNumber`, `Token.IsName` — the texts of numbers and of names;
* `Token.isNumber_of_lex`, `Token.isName_of_lex` — a source text holds no others;
* `Literal.value_of_isNumber` — what such a number denotes.
-/

namespace Reckon

open Text

/-! ## Texts of tokens -/

namespace Token

/-- An integer with a radix: a zero, the letter of the radix, and digits. -/
def IsRadixInteger (text : String) : Prop :=
  ∃ c radix ds, text = String.ofList ('0' :: c :: ds) ∧ Literal.radix? c = some radix ∧ ds ≠ [] ∧
    ∀ d ∈ ds, (radixDigit? radix d).isSome = true

/-- The text of a number token in a source text. -/
def IsNumber (text : String) : Prop :=
  (∃ n : Numeral, text = String.ofList n.characters) ∨ IsRadixInteger text

/-- The text of a name token in a source text. -/
def IsName (text : String) : Prop :=
  ∃ c cs, text = String.ofList (c :: cs) ∧ isLetter c = true ∧
    ∀ x ∈ cs, isNameCharacter x = true

theorem IsName.ne_empty {text : String} (h : IsName text) : text ≠ "" := by
  obtain ⟨c, cs, rfl, -, -⟩ := h
  rw [Ne, String.ofList_eq_empty_iff]
  exact List.cons_ne_nil c cs

theorem isRadixInteger_of_radixLength {cs : List Char} (h : radixLength cs ≠ 0) :
    IsRadixInteger (String.ofList (cs.take (radixLength cs))) := by
  unfold radixLength at h ⊢
  split at h
  · rename_i c cs
    split at h
    · rename_i radix hradix
      dsimp only at h ⊢
      split at h
      · exact absurd rfl h
      · rename_i hdigits
        have hprefix := take_length_takeWhile (fun d => (radixDigit? radix d).isSome) cs
        refine ⟨c, radix, cs.takeWhile fun d => (radixDigit? radix d).isSome, ?_, hradix, ?_, ?_⟩
        · simp only [if_neg hdigits]
          rw [Nat.add_comm, List.take_succ_cons, List.take_succ_cons, hprefix]
        · exact fun hnil => hdigits (congrArg List.length hnil)
        · exact fun d hd => List.all_eq_true.1 List.all_takeWhile d hd
    · exact absurd rfl h
  · exact absurd rfl h

theorem isNumber_of_numberLength {cs : List Char} (h : numberLength cs ≠ 0) :
    IsNumber (String.ofList (cs.take (numberLength cs))) := by
  unfold numberLength at h ⊢
  dsimp only at h ⊢
  by_cases hradix : radixLength cs = 0
  · rw [if_pos hradix] at h ⊢
    obtain ⟨n, hn⟩ := Numeral.exists_of_decimalLength h
    exact Or.inl ⟨n, congrArg String.ofList hn⟩
  · rw [if_neg hradix]
    exact Or.inr (isRadixInteger_of_radixLength hradix)

theorem isName_of_nameLength {cs : List Char} (h : nameLength cs ≠ 0) :
    IsName (String.ofList (cs.take (nameLength cs))) := by
  unfold nameLength at h ⊢
  split at h
  · exact absurd rfl h
  · rename_i c cs
    by_cases hletter : isLetter c = true
    · have hprefix := take_length_takeWhile isNameCharacter cs
      refine ⟨c, cs.takeWhile isNameCharacter, ?_, hletter, ?_⟩
      · simp only [if_pos hletter]
        rw [Nat.add_comm, List.take_succ_cons, hprefix]
      · exact fun x hx => List.all_eq_true.1 List.all_takeWhile x hx
    · rw [if_neg hletter] at h
      exact absurd rfl h

/-- A token whose text suits its kind. -/
def IsWord (t : Token) : Prop :=
  (t.kind = .number → IsNumber t.text) ∧ (t.kind = .name → IsName t.text)

theorem isWord_of_firstToken {position : Nat} {c : Char} {rest : List Char} {t : Token}
    {width : Nat} (h : firstToken position c rest = .ok (t, width)) : t.IsWord := by
  unfold firstToken at h
  dsimp only at h
  split at h
  · rename_i hnumber
    cases h
    exact ⟨fun _ => isNumber_of_numberLength hnumber, nofun⟩
  · split at h
    · split at h
      · cases h
        exact ⟨nofun, nofun⟩
      · cases h
      · cases h
    · split at h
      · rename_i hname
        cases h
        exact ⟨nofun, fun _ => isName_of_nameLength hname⟩
      · cases h
        exact ⟨nofun, nofun⟩

theorem isWord_of_lexFrom {position : Nat} {cs : List Char} {t : Token}
    (h : t ∈ (lexFrom position cs).tokens) : t.IsWord := by
  fun_induction lexFrom position cs with
  | case1 position =>
    cases h
  | case2 position c rest hblank ih =>
    exact ih h
  | case3 position c rest hblank e hfirst =>
    cases h
  | case4 position c rest hblank token width hfirst ih =>
    rcases List.mem_cons.1 h with rfl | h
    · exact isWord_of_firstToken hfirst
    · exact ih h

/-- The number tokens of a source text are numerals and integers with a radix. -/
theorem isNumber_of_lex {source : String} {t : Token} (h : t ∈ (lex source).tokens)
    (hkind : t.kind = .number) : IsNumber t.text :=
  (isWord_of_lexFrom h).1 hkind

theorem isName_of_lex {source : String} {t : Token} (h : t ∈ (lex source).tokens)
    (hkind : t.kind = .name) : IsName t.text :=
  (isWord_of_lexFrom h).2 hkind

end Token

/-! ## Digits of a radix -/

theorem toNat_lt_of_le {c last : Char} {n : Nat} (h : c ≤ last) (hlast : last.toNat < n) :
    c.toNat < n :=
  Nat.lt_of_le_of_lt h hlast

/-- What holds of every ASCII character by inspection. -/
theorem forall_ascii {p : Char → Prop} (h : ∀ n < 128, p (Char.ofNat n)) {c : Char}
    (hc : c.toNat < 128) : p c := by
  have hp := h c.toNat hc
  rwa [Char.ofNat_toNat] at hp

theorem toNat_lt_of_radixDigit? {radix : Nat} {d : Char} (h : (radixDigit? radix d).isSome = true) :
    d.toNat < 128 := by
  unfold radixDigit? at h
  dsimp only at h
  split at h
  · rename_i hrange
    exact toNat_lt_of_le hrange.2 (by decide)
  · split at h
    · rename_i hrange
      exact toNat_lt_of_le hrange.2 (by decide)
    · split at h
      · rename_i hrange
        exact toNat_lt_of_le hrange.2 (by decide)
      · cases h

/-- A digit of a radix is no margin and no separator, and it stands for itself. -/
theorem radixDigit?_plain {radix : Nat} (hradix : radix ∈ [16, 8, 2]) {d : Char}
    (h : (radixDigit? radix d).isSome = true) :
    isMargin d = false ∧ plainDigit d = d ∧ d ≠ '_' := by
  -- digits of a radix are ASCII characters, so they can be gone through
  have hall : ∀ n < 128, ∀ r ∈ [16, 8, 2], (radixDigit? r (Char.ofNat n)).isSome = true →
      isMargin (Char.ofNat n) = false ∧ plainDigit (Char.ofNat n) = Char.ofNat n ∧
        Char.ofNat n ≠ '_' := by
    decide +kernel
  have hp := forall_ascii (p := fun c => ∀ r ∈ [16, 8, 2], (radixDigit? r c).isSome = true →
    isMargin c = false ∧ plainDigit c = c ∧ c ≠ '_') hall (toNat_lt_of_radixDigit? h)
  exact hp radix hradix h

namespace Literal

theorem mem_of_radix? {c : Char} {radix : Nat} (h : radix? c = some radix) :
    radix ∈ [16, 8, 2] := by
  unfold radix? at h
  split at h
  · cases h
    decide
  · split at h
    · cases h
      decide
    · split at h
      · cases h
        decide
      · cases h

/-- Digits of a radix denote a number. -/
theorem exists_of_readRadix {radix : Nat} {ds : List Char} (hne : ds ≠ [])
    (hds : ∀ d ∈ ds, (radixDigit? radix d).isSome = true) : ∃ n, readRadix? radix ds = some n := by
  have hmap : ∃ vs, ds.mapM (radixDigit? radix) = some vs ∧ vs.length = ds.length := by
    clear hne
    induction ds with
    | nil =>
      exact ⟨[], rfl, rfl⟩
    | cons d ds ih =>
      obtain ⟨hd, hds⟩ := List.forall_mem_cons.1 hds
      obtain ⟨v, hv⟩ := Option.isSome_iff_exists.1 hd
      obtain ⟨vs, hvs, hlength⟩ := ih hds
      refine ⟨v :: vs, ?_, congrArg (· + 1) hlength⟩
      rw [List.mapM_cons, hv, hvs]
      rfl
  obtain ⟨vs, hvs, hlength⟩ := hmap
  cases vs with
  | nil =>
    exact absurd (List.eq_nil_of_length_eq_zero hlength.symm) hne
  | cons v vs =>
    exact ⟨ofDigits radix (v :: vs), by simp only [readRadix?, hvs]⟩

/-- Digits of a radix are read as they are. -/
theorem radixNumber?_eq {radix : Nat} (hradix : radix ∈ [16, 8, 2]) {ds : List Char}
    (hds : ∀ d ∈ ds, (radixDigit? radix d).isSome = true) :
    radixNumber? radix ds = readRadix? radix ds := by
  have hplain := fun d hd => radixDigit?_plain hradix (hds d hd)
  have htrim : trimEnd isMargin ds = ds := trimEnd_of_forall fun d hd => (hplain d hd).1
  have hmap : ds.map plainDigit = ds := by
    have hcongr : ds.map plainDigit = ds.map id := List.map_congr_left fun d hd => (hplain d hd).2.1
    rw [hcongr, List.map_id]
  have hunderscore : '_' ∉ ds := fun h => (hplain _ h).2.2 rfl
  simp only [radixNumber?, htrim, hmap, dropSeparators?_of_notMem hunderscore, Option.bind_some]

theorem exists_of_radixNumber {radix : Nat} (hradix : radix ∈ [16, 8, 2]) {ds : List Char}
    (hne : ds ≠ []) (hds : ∀ d ∈ ds, (radixDigit? radix d).isSome = true) :
    ∃ n, radixNumber? radix ds = some n := by
  rw [radixNumber?_eq hradix hds]
  exact exists_of_readRadix hne hds

/-- An integer with a radix that rounds beyond the largest double. -/
def IsTooLarge (text : String) : Prop :=
  ∃ c radix ds n, text = String.ofList ('0' :: c :: ds) ∧ radix? c = some radix ∧
    radixNumber? radix ds = some n ∧ Double.overflowBound ≤ n

/-- The numbers of a source text are read, unless they are integers with a radix beyond the
range. -/
theorem value_of_isNumber {text : String} (h : Token.IsNumber text) :
    (∃ x, value text = .ok x) ∨
      value text = .error (.limit .integerTooLarge) ∧ IsTooLarge text := by
  rcases h with ⟨n, rfl⟩ | ⟨c, radix, ds, rfl, hradix, hne, hds⟩
  · exact Or.inl ⟨_, n.value_characters⟩
  · obtain ⟨n, hn⟩ := exists_of_radixNumber (mem_of_radix? hradix) hne hds
    have hvalue : value (String.ofList ('0' :: c :: ds)) =
        radixValue (String.ofList ('0' :: c :: ds)) radix ds := by
      simp only [value, String.toList_ofList, hradix]
    rw [hvalue, radixValue, hn]
    dsimp only
    cases hnearest : Double.nearest? n 1 with
    | some x =>
      exact Or.inl ⟨x, rfl⟩
    | none =>
      rw [Double.nearest?_eq_none_iff Nat.one_pos, Nat.cast_one, div_one, Nat.cast_le] at hnearest
      exact Or.inr ⟨rfl, c, radix, ds, n, rfl, hradix, hn, hnearest⟩

end Literal

end Reckon
