import Reckon.Proofs.Token.Spelling

/-!
# Extent — how far a token reaches

The reader of tokens looks ahead: a point, a letter or a sign behind digits may belong to the same
number.  A *delimiter* is a character that no number and no name goes on with.  In front of one,
characters are read as they are read at the end of a source text, so a text that is read without an
error can be put in front of anything that begins with a delimiter.

* `Token.IsExtent` — a length that a delimiter puts an end to;
* `Token.firstToken_append`, `Token.lexFrom_append` — one token, and all of them;
* `Token.Spells.append` — the same for words, whatever their position.
-/

namespace Reckon
namespace Token

open Text

/-- Whether a character goes on with no number and no name. -/
def isDelimiter (c : Char) : Bool :=
  !(isNameCharacter c || isDecimalDigit c || c ∈ ['.', '+', '-'])

variable {cs rest more : List Char} {d : Char}

theorem isNameCharacter_of_isDelimiter (h : isDelimiter d = true) : isNameCharacter d = false := by
  rw [isDelimiter, Bool.not_eq_true', Bool.or_eq_false_iff, Bool.or_eq_false_iff] at h
  exact h.1.1

theorem isDecimalDigit_of_isDelimiter (h : isDelimiter d = true) : isDecimalDigit d = false := by
  rw [isDelimiter, Bool.not_eq_true', Bool.or_eq_false_iff, Bool.or_eq_false_iff] at h
  exact h.1.2

theorem ne_of_isDelimiter (h : isDelimiter d = true) {c : Char} (hc : isDelimiter c = false) :
    d ≠ c := by
  rintro rfl
  rw [hc] at h
  cases h

/-- A name goes on with the digits of every radix. -/
theorem isNameCharacter_of_radixDigit? {radix : Nat} {c : Char}
    (h : (radixDigit? radix c).isSome = true) : isNameCharacter c = true := by
  have hletter : ∀ {first last : Char}, 'a' ≤ first ∧ last ≤ 'z' ∨ 'A' ≤ first ∧ last ≤ 'Z' →
      first ≤ c ∧ c ≤ last → isNameCharacter c = true := by
    intro first last hrange hc
    rcases hrange with ⟨hfirst, hlast⟩ | ⟨hfirst, hlast⟩
    · simp [isNameCharacter, isLetter, hfirst.trans hc.1, hc.2.trans hlast]
    · simp [isNameCharacter, isLetter, hfirst.trans hc.1, hc.2.trans hlast]
  unfold radixDigit? at h
  dsimp only at h
  split at h
  · rename_i hdigit
    simp [isNameCharacter, hdigit]
  · split at h
    · rename_i hlower
      exact hletter (Or.inl ⟨le_rfl, by decide⟩) hlower
    · split at h
      · rename_i hupper
        exact hletter (Or.inr ⟨le_rfl, by decide⟩) hupper
      · cases h

/-! ## Lengths -/

/-- A length at the front of characters that a delimiter puts an end to. -/
structure IsExtent (f : List Char → Nat) : Prop where
  le_length (cs : List Char) : f cs ≤ cs.length
  append (cs : List Char) {d : Char} (hd : isDelimiter d = true) (more : List Char) :
    f (cs ++ d :: more) = f cs

namespace IsExtent

variable {f g : List Char → Nat}

theorem takeWhile {p : Char → Bool} (hp : ∀ d, isDelimiter d = true → p d = false) :
    IsExtent fun cs => (cs.takeWhile p).length where
  le_length cs := (List.takeWhile_prefix p).length_le
  append cs d hd more := by
    induction cs with
    | nil =>
      exact congrArg List.length (List.takeWhile_cons_of_neg (by simp [hp d hd]))
    | cons c cs ih =>
      cases hc : p c with
      | false =>
        simp [hc]
      | true =>
        simpa [hc] using ih

/-- What lies behind a part does not depend on what follows a delimiter either. -/
theorem drop_append (hf : IsExtent f) (hd : isDelimiter d = true) (cs more : List Char) :
    (cs ++ d :: more).drop (f (cs ++ d :: more)) = cs.drop (f cs) ++ d :: more := by
  rw [hf.append cs hd, List.drop_append_of_le_length (hf.le_length cs)]

/-- One part behind another. -/
theorem seq (hf : IsExtent f) (hg : IsExtent g) : IsExtent fun cs => f cs + g (cs.drop (f cs)) where
  le_length cs := by
    have hfirst := hf.le_length cs
    have hsecond := hg.le_length (cs.drop (f cs))
    rw [List.length_drop] at hsecond
    omega
  append cs d hd more := by
    rw [hf.drop_append hd, hg.append _ hd, hf.append cs hd]

/-- A length that is told by the first character and what stands behind it. -/
theorem of_cons (hnil : f [] = 0) (hdelimiter : ∀ d, isDelimiter d = true → ∀ cs, f (d :: cs) = 0)
    (hcons : ∀ c cs, f (c :: cs) ≤ cs.length + 1 ∧
      ∀ d, isDelimiter d = true → ∀ more, f (c :: (cs ++ d :: more)) = f (c :: cs)) :
    IsExtent f where
  le_length cs := by
    cases cs with
    | nil =>
      exact Nat.le_of_eq hnil
    | cons c cs =>
      exact (hcons c cs).1
  append cs d hd more := by
    cases cs with
    | nil =>
      exact (hdelimiter d hd more).trans hnil.symm
    | cons c cs =>
      exact (hcons c cs).2 d hd more

end IsExtent

theorem isExtent_digitCount : IsExtent digitCount :=
  .takeWhile fun _ => isDecimalDigit_of_isDelimiter

theorem isExtent_signLength : IsExtent signLength := by
  refine .of_cons rfl ?_ ?_
  · intro d hd cs
    have hplus : d ≠ '+' := ne_of_isDelimiter hd (by decide)
    have hminus : d ≠ '-' := ne_of_isDelimiter hd (by decide)
    simp [signLength, hplus, hminus]
  · intro c cs
    by_cases hplus : c = '+'
    · simp [signLength, hplus]
    · by_cases hminus : c = '-'
      · simp [signLength, hminus]
      · simp [signLength, hplus, hminus]

theorem isExtent_fractionLength : IsExtent fractionLength := by
  refine .of_cons rfl ?_ ?_
  · intro d hd cs
    have hpoint : d ≠ '.' := ne_of_isDelimiter hd (by decide)
    simp [fractionLength, hpoint]
  · intro c cs
    by_cases hpoint : c = '.'
    · subst hpoint
      have hle := isExtent_digitCount.le_length cs
      refine ⟨?_, ?_⟩
      · rw [fractionLength, Nat.add_comm]
        exact Nat.succ_le_succ hle
      · intro d hd more
        simp [fractionLength, isExtent_digitCount.append cs hd]
    · simp [fractionLength, hpoint]

theorem isExtent_exponentLength : IsExtent exponentLength := by
  refine .of_cons rfl ?_ ?_
  · intro d hd cs
    have hlower : d ≠ 'e' := ne_of_isDelimiter hd (by decide)
    have hupper : d ≠ 'E' := ne_of_isDelimiter hd (by decide)
    simp [exponentLength, hlower, hupper]
  · intro c cs
    unfold exponentLength
    have hle := (isExtent_signLength.seq isExtent_digitCount).le_length cs
    refine ⟨?_, ?_⟩
    · dsimp only at hle ⊢
      split
      · split <;> omega
      · exact Nat.zero_le _
    · -- the digits are looked for behind the sign, and neither reaches the delimiter
      intro d hd more
      dsimp only
      rw [isExtent_signLength.drop_append hd, isExtent_signLength.append cs hd,
        isExtent_digitCount.append _ hd]

theorem isExtent_mantissaLength : IsExtent mantissaLength where
  le_length cs := by
    have hle := (isExtent_digitCount.seq isExtent_fractionLength).le_length cs
    unfold mantissaLength
    dsimp only at hle ⊢
    split
    · exact Nat.zero_le _
    · exact hle
  append cs d hd more := by
    unfold mantissaLength
    dsimp only
    rw [isExtent_digitCount.drop_append hd, isExtent_digitCount.append cs hd,
      isExtent_fractionLength.append _ hd]

theorem isExtent_decimalLength : IsExtent decimalLength where
  le_length cs := by
    have hle := (isExtent_mantissaLength.seq isExtent_exponentLength).le_length cs
    unfold decimalLength
    dsimp only at hle ⊢
    split
    · exact Nat.zero_le _
    · exact hle
  append cs d hd more := by
    unfold decimalLength
    dsimp only
    rw [isExtent_mantissaLength.drop_append hd, isExtent_mantissaLength.append cs hd,
      isExtent_exponentLength.append _ hd]

/-- The digits of a radix. -/
theorem isExtent_radixDigits (radix : Nat) :
    IsExtent fun cs => (cs.takeWhile fun d => (radixDigit? radix d).isSome).length := by
  refine .takeWhile fun d hd => ?_
  rw [Bool.eq_false_iff]
  intro hdigit
  have hname := isNameCharacter_of_radixDigit? hdigit
  rw [isNameCharacter_of_isDelimiter hd] at hname
  cases hname

theorem radix?_of_isDelimiter (h : isDelimiter d = true) : Literal.radix? d = none := by
  have hletters : ∀ c ∈ ['x', 'X', 'o', 'O', 'b', 'B'], isDelimiter c = false := by
    simp only [List.mem_cons, List.not_mem_nil, or_false, forall_eq_or_imp, forall_eq]
    decide
  have hne : ∀ c ∈ ['x', 'X', 'o', 'O', 'b', 'B'], d ≠ c :=
    fun c hc => ne_of_isDelimiter h (hletters c hc)
  simp only [List.mem_cons, List.not_mem_nil, or_false, forall_eq_or_imp, forall_eq] at hne
  simp [Literal.radix?, hne]

theorem isExtent_radixLength : IsExtent radixLength := by
  refine .of_cons rfl ?_ ?_
  · intro d hd cs
    have hzero : d ≠ '0' := ne_of_isDelimiter hd (by decide)
    simp [radixLength, hzero]
  · intro c cs
    by_cases hzero : c = '0'
    · subst hzero
      cases cs with
      | nil =>
        refine ⟨by simp [radixLength], ?_⟩
        intro d hd more
        simp [radixLength, radix?_of_isDelimiter hd]
      | cons c cs =>
        cases hradix : Literal.radix? c with
        | none =>
          simp [radixLength, hradix]
        | some radix =>
          have hle := (isExtent_radixDigits radix).le_length cs
          have happend := fun d hd => (isExtent_radixDigits radix).append cs (d := d) hd
          simp only [radixLength, hradix, List.cons_append]
          refine ⟨?_, ?_⟩
          · rw [List.length_cons]
            split <;> omega
          · intro d hd more
            rw [happend d hd more]
    · simp [radixLength, hzero]

theorem isExtent_numberLength : IsExtent numberLength where
  le_length cs := by
    unfold numberLength
    dsimp only
    split
    · exact isExtent_decimalLength.le_length cs
    · exact isExtent_radixLength.le_length cs
  append cs d hd more := by
    unfold numberLength
    rw [isExtent_radixLength.append cs hd, isExtent_decimalLength.append cs hd]

theorem isExtent_nameLength : IsExtent nameLength := by
  have hletter : ∀ {c}, isLetter c = true → isNameCharacter c = true := by
    intro c hc
    simp [isNameCharacter, hc]
  have hrest : IsExtent fun cs => (cs.takeWhile isNameCharacter).length :=
    .takeWhile fun _ => isNameCharacter_of_isDelimiter
  refine .of_cons rfl ?_ ?_
  · intro d hd cs
    have hd : isLetter d = false := by
      rw [Bool.eq_false_iff]
      intro hd'
      have hname := hletter hd'
      rw [isNameCharacter_of_isDelimiter hd] at hname
      cases hname
    simp [nameLength, hd]
  · intro c cs
    have hle := hrest.le_length cs
    refine ⟨?_, ?_⟩
    · rw [nameLength, Nat.add_comm 1]
      split
      · exact Nat.add_le_add_right hle 1
      · exact Nat.zero_le _
    · intro d hd more
      rw [nameLength, nameLength, hrest.append cs hd]

/-! ## Tokens -/

theorem TextBody.exists_of_cons {c : Char} {width length : Nat} {body : TextBody}
    {content : List Char} (h : body.cons c width = .closed content length) :
    ∃ content' length', body = .closed content' length' ∧ content = c :: content' ∧
      length = width + length' := by
  cases body with
  | closed content' length' =>
    cases h
    exact ⟨content', length', rfl, rfl, rfl⟩
  | unclosed escapeAt =>
    cases h

/-- A text ends at its closing mark, whatever follows. -/
theorem readText_append {quote : Char} {content : List Char} {length : Nat}
    (h : readText quote cs = .closed content length) (more : List Char) :
    readText quote (cs ++ more) = .closed content length ∧ length ≤ cs.length := by
  fun_induction readText quote cs generalizing content length with
  | case1 =>
    cases h
  | case2 cs =>
    cases h
    exact ⟨readText_mark quote (cs ++ more), by simp⟩
  | case3 c hmark hescape =>
    cases h
  | case4 c hmark hescape d ds ih =>
    obtain ⟨content', length', hbody, rfl, rfl⟩ := TextBody.exists_of_cons h
    obtain ⟨hread, hle⟩ := ih hbody
    refine ⟨?_, ?_⟩
    · rw [List.cons_append, List.cons_append, readText.eq_def]
      dsimp only
      rw [if_neg hmark, if_pos hescape, hread]
      rfl
    · rw [List.length_cons, List.length_cons]
      omega
  | case5 c cs hmark hescape ih =>
    obtain ⟨content', length', hbody, rfl, rfl⟩ := TextBody.exists_of_cons h
    obtain ⟨hread, hle⟩ := ih hbody
    refine ⟨?_, ?_⟩
    · rw [List.cons_append, readText.eq_def]
      dsimp only
      rw [if_neg hmark, if_neg hescape, hread]
      rfl
    · rw [List.length_cons]
      omega

/-- A token shows the same characters if its length reaches no further. -/
theorem ofLength_append {length : Nat} (h : length ≤ cs.length) (kind : TokenKind)
    (more : List Char) (position : Nat) :
    ofLength kind (cs ++ more) length position = ofLength kind cs length position := by
  rw [ofLength, List.take_append_of_le_length h, ofLength]

/-- A token and its width are the same in front of a delimiter and at the end. -/
theorem firstToken_append {position : Nat} {c : Char} {t : Token} {width : Nat}
    (h : firstToken position c rest = .ok (t, width)) (hd : isDelimiter d = true)
    (more : List Char) :
    firstToken position c (rest ++ d :: more) = .ok (t, width) ∧ width ≤ rest.length := by
  have hnumber := isExtent_numberLength.append (c :: rest) hd more
  have hname := isExtent_nameLength.append (c :: rest) hd more
  have hnumberLe := isExtent_numberLength.le_length (c :: rest)
  have hnameLe := isExtent_nameLength.le_length (c :: rest)
  -- the lengths are the same, so the same tests tell what kind of token it is
  unfold firstToken at h ⊢
  dsimp only at h ⊢
  rw [← List.cons_append, hnumber, hname, ofLength_append hnumberLe, ofLength_append hnameLe]
  rw [List.length_cons] at hnumberLe hnameLe
  split at h
  · rename_i hne
    cases h
    exact ⟨if_pos hne, by omega⟩
  · rename_i hzero
    rw [if_neg hzero]
    split at h
    · rename_i hquote
      rw [if_pos hquote]
      cases hbody : readText c rest with
      | unclosed escapeAt =>
        rw [hbody] at h
        cases escapeAt <;> cases h
      | closed content length =>
        rw [hbody] at h
        cases h
        obtain ⟨hread, hle⟩ := readText_append hbody (d :: more)
        rw [hread]
        exact ⟨rfl, hle⟩
    · rename_i hquote
      rw [if_neg hquote]
      split at h
      · rename_i hne
        cases h
        exact ⟨if_pos hne, by omega⟩
      · rename_i hzero'
        cases h
        exact ⟨if_neg hzero', Nat.zero_le _⟩

/-- Characters that are read without an error are read in the same way in front of a delimiter, and
what begins with the delimiter is read as if nothing stood before it. -/
theorem lexFrom_append {position : Nat} (h : (lexFrom position cs).failure = none)
    (hd : isDelimiter d = true) (more : List Char) :
    lexFrom position (cs ++ d :: more) =
      ⟨(lexFrom position cs).tokens ++ (lexFrom (position + cs.length) (d :: more)).tokens,
        (lexFrom (position + cs.length) (d :: more)).failure⟩ := by
  -- tokens are cut off at the front, and what is left always ends in front of the delimiter
  fun_induction lexFrom position cs with
  | case1 position =>
    rfl
  | case2 position c rest hblank ih =>
    rw [List.cons_append, lexFrom, if_pos hblank, ih h, List.length_cons]
    rw [Nat.add_assoc, Nat.add_comm 1]
  | case3 position c rest hblank e hfirst =>
    cases h
  | case4 position c rest hblank t width hfirst ih =>
    obtain ⟨hsame, hle⟩ := firstToken_append hfirst hd more
    have hposition : position + 1 + width + (rest.drop width).length =
        position + (c :: rest).length := by
      rw [List.length_drop, List.length_cons]
      omega
    rw [List.cons_append, lexFrom, if_neg hblank, hsame]
    dsimp only
    rw [List.drop_append_of_le_length hle, ih h, hposition]
    rfl

/-! ## Words -/

/-- A token does not depend on its position, apart from bearing it. -/
theorem firstToken_at {position : Nat} {c : Char} {t : Token} {width : Nat}
    (h : firstToken position c rest = .ok (t, width)) (position' : Nat) :
    t.position = position ∧
      firstToken position' c rest = .ok ({ t with position := position' }, width) := by
  unfold firstToken at h ⊢
  dsimp only at h ⊢
  split at h
  · rename_i hne
    cases h
    exact ⟨rfl, if_pos hne⟩
  · rename_i hzero
    rw [if_neg hzero]
    split at h
    · rename_i hquote
      rw [if_pos hquote]
      split at h
      · cases h
        exact ⟨rfl, rfl⟩
      · cases h
      · cases h
    · rename_i hquote
      rw [if_neg hquote]
      split at h
      · rename_i hne
        cases h
        exact ⟨rfl, if_pos hne⟩
      · rename_i hzero'
        cases h
        exact ⟨rfl, if_neg hzero'⟩

theorem exists_firstToken {position : Nat} {c : Char} {t : Token} {width : Nat}
    (h : firstToken position c rest = .ok (t, width)) (position' : Nat) :
    ∃ t', firstToken position' c rest = .ok (t', width) ∧ t'.word = t.word :=
  ⟨_, (firstToken_at h position').2, rfl⟩

/-- What is read without an error is read as the same words everywhere. -/
theorem spells_of_lexFrom {position : Nat} (h : (lexFrom position cs).failure = none) :
    Spells cs ((lexFrom position cs).tokens.map word) := by
  fun_induction lexFrom position cs with
  | case1 position =>
    exact spells_nil
  | case2 position c rest hblank ih =>
    exact (ih h).blank hblank
  | case3 position c rest hblank e hfirst =>
    cases h
  | case4 position c rest hblank t width hfirst ih =>
    exact (ih h).token (Bool.eq_false_of_not_eq_true hblank) rfl (exists_firstToken hfirst)

/-- Words in front of others, of which the first one begins with a delimiter. -/
theorem Spells.append {words words' : List (TokenKind × String)} (h : Spells cs words)
    (hmore : Spells (d :: more) words') (hd : isDelimiter d = true) :
    Spells (cs ++ d :: more) (words ++ words') := by
  intro position
  obtain ⟨hfailure, htokens⟩ := h position
  obtain ⟨hfailure', htokens'⟩ := hmore (position + cs.length)
  rw [lexFrom_append hfailure hd, List.map_append, htokens, htokens']
  exact ⟨hfailure', rfl⟩

end Token
end Reckon
