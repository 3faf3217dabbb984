import Reckon.Proofs.Token.Body
import Reckon.Proofs.Token.Extent
import Reckon.Proofs.Token.Layout

/-!
# Spacing — white space between tokens

White space that is put in front of tokens, and at the end of a source text, changes nothing but the
positions of the tokens.  Tokens may touch one another, and the reader looks beyond a token to see
whether it goes on; what it has settled on without the characters behind the token remains so if they
move away.

* `Token.IsSettled` — a length that is the same without the characters beyond it;
* `Token.firstToken_of_cut` — a token whose neighbours move away;
* `Spacing` — white space to be put into a source text, and where it may go;
* `Spacing.lex_apply` — the tokens of the source text with the white space in it.
-/

namespace Reckon

open Text

namespace Token

variable {cs rest more : List Char}

/-! ## Lengths -/

/-- A length at the front of characters that is the same without those beyond it. -/
structure IsSettled (f : List Char → Nat) : Prop where
  take (cs : List Char) {n : Nat} (h : f cs ≤ n) : f (cs.take n) = f cs

namespace IsSettled

variable {f : List Char → Nat}

theorem takeWhile (p : Char → Bool) : IsSettled fun cs => (cs.takeWhile p).length where
  take cs n h := by
    rw [← List.take_takeWhile, List.take_of_length_le h]

/-- A length that is told by the first character and what stands behind it. -/
theorem of_cons (hnil : f [] = 0)
    (hcons : ∀ c cs n, f (c :: cs) ≤ n + 1 → f (c :: cs.take n) = f (c :: cs)) :
    IsSettled f where
  take cs n h := by
    cases cs with
    | nil =>
      rw [List.take_nil]
    | cons c cs =>
      cases n with
      | zero =>
        rw [List.take_zero, hnil, Nat.le_zero.1 h]
      | succ n =>
        exact hcons c cs n h

end IsSettled

theorem isSettled_digitCount : IsSettled digitCount :=
  .takeWhile isDecimalDigit

theorem signLength_le (cs : List Char) : signLength cs ≤ 1 := by
  unfold signLength
  split <;> omega

theorem isSettled_signLength : IsSettled signLength := by
  refine .of_cons rfl ?_
  intro c cs n _
  by_cases hplus : c = '+'
  · simp [signLength, hplus]
  · by_cases hminus : c = '-'
    · simp [signLength, hminus]
    · simp [signLength, hplus, hminus]

theorem isSettled_fractionLength : IsSettled fractionLength := by
  refine .of_cons rfl ?_
  intro c cs n h
  by_cases hpoint : c = '.'
  · subst hpoint
    rw [fractionLength] at h ⊢
    rw [fractionLength, isSettled_digitCount.take cs (by omega)]
  · simp [fractionLength, hpoint]

theorem isSettled_exponentLength : IsSettled exponentLength := by
  refine .of_cons rfl ?_
  intro c cs n h
  unfold exponentLength at h ⊢
  dsimp only at h ⊢
  by_cases hletter : c = 'e' ∨ c = 'E'
  · rw [if_pos hletter] at h ⊢
    rw [if_pos hletter]
    -- without digits nothing has been settled on, and the sign alone may lie beyond
    by_cases hdigits : digitCount (cs.drop (signLength cs)) = 0
    · rw [if_pos hdigits]
      refine if_pos ?_
      by_cases hsign : signLength cs ≤ n
      · rw [isSettled_signLength.take cs hsign, List.drop_take,
          isSettled_digitCount.take _ (by omega), hdigits]
      · obtain rfl : n = 0 := by
          have hle := signLength_le cs
          omega
        rfl
    · rw [if_neg hdigits] at h ⊢
      rw [isSettled_signLength.take cs (by omega), List.drop_take,
        isSettled_digitCount.take _ (by omega), if_neg hdigits]
  · rw [if_neg hletter, if_neg hletter]

theorem isSettled_mantissaLength : IsSettled mantissaLength where
  take cs n h := by
    unfold mantissaLength at h ⊢
    dsimp only at h ⊢
    split at h
    · -- a point alone is no number, whether it lies beyond or not
      rename_i hnone
      obtain ⟨hwhole, hfraction⟩ := hnone
      rw [hwhole, List.drop_zero] at hfraction
      have hwhole' : digitCount (cs.take n) = 0 :=
        (isSettled_digitCount.take cs (by omega)).trans hwhole
      have hfraction' : fractionLength (cs.take n) ≤ 1 := by
        by_cases hle : fractionLength cs ≤ n
        · rw [isSettled_fractionLength.take cs hle]
          exact hfraction
        · have hlength := isExtent_fractionLength.le_length (cs.take n)
          rw [List.length_take] at hlength
          omega
      rw [hwhole', hwhole, List.drop_zero, List.drop_zero, if_pos ⟨rfl, hfraction'⟩,
        if_pos ⟨rfl, hfraction⟩]
    · rename_i hsome
      rw [isSettled_digitCount.take cs (by omega), List.drop_take,
        isSettled_fractionLength.take _ (by omega)]

theorem isSettled_decimalLength : IsSettled decimalLength where
  take cs n h := by
    unfold decimalLength at h ⊢
    dsimp only at h ⊢
    split at h
    · rename_i hzero
      rw [isSettled_mantissaLength.take cs (by omega), if_pos hzero, if_pos hzero]
    · rw [isSettled_mantissaLength.take cs (by omega), List.drop_take,
        isSettled_exponentLength.take _ (by omega)]

theorem isSettled_radixLength : IsSettled radixLength := by
  refine .of_cons rfl ?_
  intro c cs n h
  by_cases hzero : c = '0'
  · subst hzero
    cases cs with
    | nil =>
      rw [List.take_nil]
    | cons c cs =>
      cases hradix : Literal.radix? c with
      | none =>
        cases n <;> simp [radixLength, hradix]
      | some radix =>
        have hdigits : IsSettled fun cs =>
          (cs.takeWhile fun d => (radixDigit? radix d).isSome).length := .takeWhile _
        simp only [radixLength, hradix] at h ⊢
        cases n with
        | zero =>
          split at h
          · rename_i hnone
            rw [if_pos hnone]
            rfl
          · omega
        | succ n =>
          have hle : (cs.takeWhile fun d => (radixDigit? radix d).isSome).length ≤ n := by
            split at h <;> omega
          have htake := hdigits.take cs hle
          simp only [List.take_succ_cons, hradix, htake]
  · simp [radixLength, hzero]

theorem isSettled_numberLength : IsSettled numberLength where
  take cs n h := by
    unfold numberLength at h ⊢
    dsimp only at h ⊢
    split at h
    · rename_i hzero
      rw [isSettled_radixLength.take cs (by omega), if_pos hzero, if_pos hzero,
        isSettled_decimalLength.take cs h]
    · rename_i hne
      rw [isSettled_radixLength.take cs h, if_neg hne, if_neg hne]

theorem isSettled_nameLength : IsSettled nameLength := by
  refine .of_cons rfl ?_
  intro c cs n h
  rw [nameLength] at h ⊢
  rw [nameLength]
  split
  · rename_i hletter
    rw [if_pos hletter] at h
    have htake := (IsSettled.takeWhile isNameCharacter).take cs (n := n) (by omega)
    rw [htake]
  · rfl

/-! ## Tokens -/

/-- A text ends at its closing mark, whatever lies beyond. -/
theorem readText_take {quote : Char} (hquote : isQuote quote = true) {content : List Char}
    {length n : Nat} (h : readText quote cs = .closed content length) (hn : length ≤ n) :
    readText quote (cs.take n) = .closed content length := by
  obtain ⟨written, more, rfl, hbody, rfl⟩ := (readText_eq_closed_iff hquote).1 h
  have htake : (written ++ quote :: more).take n =
      written ++ quote :: more.take (n - (written.length + 1)) := by
    rw [List.take_append, List.take_of_length_le (by omega)]
    obtain ⟨m, hm⟩ : ∃ m, n - written.length = m + 1 := ⟨n - written.length - 1, by omega⟩
    rw [hm, List.take_succ_cons, show n - (written.length + 1) = m by omega]
  exact (readText_eq_closed_iff hquote).2 ⟨written, _, htake, hbody, rfl⟩

theorem ofLength_take (cs : List Char) {length n : Nat} (h : length ≤ n) (kind : TokenKind)
    (position : Nat) :
    ofLength kind (cs.take n) length position = ofLength kind cs length position := by
  rw [ofLength, List.take_take, Nat.min_eq_left h, ofLength]

/-- A token is the same without the characters beyond it. -/
theorem firstToken_take {position : Nat} {c : Char} {t : Token} {width n : Nat}
    (h : firstToken position c rest = .ok (t, width)) (hn : width ≤ n) :
    firstToken position c (rest.take n) = .ok (t, width) := by
  have hnumber : numberLength (c :: rest) ≤ n + 1 →
      numberLength (c :: rest.take n) = numberLength (c :: rest) :=
    isSettled_numberLength.take (c :: rest) (n := n + 1)
  have hname : nameLength (c :: rest) ≤ n + 1 →
      nameLength (c :: rest.take n) = nameLength (c :: rest) :=
    isSettled_nameLength.take (c :: rest) (n := n + 1)
  have hlength : ∀ kind {length}, length ≤ n + 1 →
      ofLength kind (c :: rest.take n) length position =
        ofLength kind (c :: rest) length position :=
    fun kind _ hle => ofLength_take (c :: rest) hle kind position
  unfold firstToken at h ⊢
  dsimp only at h ⊢
  split at h
  · rename_i hne
    cases h
    rw [hnumber (by omega), if_pos hne, hlength .number (by omega)]
  · rename_i hzero
    rw [hnumber (by omega), if_neg hzero]
    split at h
    · rename_i hquote
      rw [if_pos hquote]
      split at h
      · rename_i hread
        cases h
        rw [readText_take hquote hread hn]
      · cases h
      · cases h
    · rename_i hquote
      rw [if_neg hquote]
      split at h
      · rename_i hne
        cases h
        rw [hname (by omega), if_pos hne, hlength .name (by omega)]
      · rename_i hzero'
        cases h
        rw [hname (by omega), if_neg hzero']

/-- White space goes on with no token. -/
theorem isDelimiter_of_isBlank {d : Char} (h : isBlank d = true) : isDelimiter d = true := by
  have hclass : ∀ {c}, isBlank c = false → d ≠ c := by
    rintro c hc rfl
    rw [hc] at h
    cases h
  have hdigit : isDecimalDigit d = false := by
    rw [Bool.eq_false_iff]
    intro hdigit
    exact hclass (isBlank_of_isDecimalDigit hdigit) rfl
  have hletter : isLetter d = false := by
    rw [Bool.eq_false_iff]
    intro hletter
    exact hclass (classes_of_isLetter hletter).1 rfl
  have hascii : ('0' ≤ d && d ≤ '9') = false := by
    rw [Bool.eq_false_iff]
    intro hascii
    have hdigit' : isDecimalDigit d = true := isDecimalDigit_of_isDigit hascii
    exact hclass (isBlank_of_isDecimalDigit hdigit') rfl
  have hpoint : d ≠ '.' := hclass (by decide)
  have hplus : d ≠ '+' := hclass (by decide)
  have hminus : d ≠ '-' := hclass (by decide)
  simp [isDelimiter, isNameCharacter, hdigit, hletter, hascii, hpoint, hplus, hminus]

/-- Characters that stand where a source text ends or white space begins. -/
def EndsToken (more : List Char) : Prop :=
  ∀ c, more.head? = some c → isBlank c = true

/-- A token is the same if white space, or the end, comes behind it or behind its neighbours. -/
theorem firstToken_of_cut {position : Nat} {c : Char} {t : Token} {width n : Nat}
    (h : firstToken position c rest = .ok (t, width)) (hn : width ≤ n) (hmore : EndsToken more) :
    firstToken position c (rest.take n ++ more) = .ok (t, width) := by
  have htake := firstToken_take h hn
  cases more with
  | nil =>
    rwa [List.append_nil]
  | cons d more =>
    exact (firstToken_append htake (isDelimiter_of_isBlank (hmore d rfl)) more).1

/-- A token stands where it has been read. -/
theorem le_position_of_lexFrom {place : Nat} {t : Token} (h : t ∈ (lexFrom place cs).tokens) :
    (place : Int) ≤ t.position := by
  fun_induction lexFrom place cs with
  | case1 place =>
    cases h
  | case2 place c rest hblank ih =>
    have hle := ih h
    omega
  | case3 place c rest hblank e hfirst =>
    cases h
  | case4 place c rest hblank t' width hfirst ih =>
    rcases List.mem_cons.1 h with rfl | h
    · exact (firstToken_at hfirst place).1.ge
    · have hle := ih h
      omega

/-- White space is left out. -/
theorem lexFrom_blanks (place : Nat) {blanks : List Char} (h : ∀ c ∈ blanks, isBlank c = true)
    (cs : List Char) : lexFrom place (blanks ++ cs) = lexFrom (place + blanks.length) cs := by
  induction blanks generalizing place with
  | nil =>
    rfl
  | cons c blanks ih =>
    obtain ⟨hc, hblanks⟩ := List.forall_mem_cons.1 h
    rw [List.cons_append, lexFrom, if_pos hc, ih (place + 1) hblanks, List.length_cons,
      Nat.add_assoc, Nat.add_comm 1]

/-- A token with its position moved. -/
def moved (f : Int → Int) (t : Token) : Token :=
  { t with position := f t.position }

end Token

/-! ## White space in a source text -/

/-- White space to be put into a source text: what goes in front of the character at each place, the
end of the source text being a place as well. -/
structure Spacing where
  gap : Nat → List Char
  blank : ∀ place, ∀ c ∈ gap place, isBlank c = true

namespace Spacing

variable {sp : Spacing} {place width : Nat} {cs : List Char}

/-- White space in a single place. -/
def single (place : Nat) (blanks : List Char)
    (h : blanks.all isBlank = true) : Spacing where
  gap q := if q = place then blanks else []
  blank q c hc := by
    split at hc
    · exact List.all_eq_true.1 h c hc
    · cases hc

/-- Characters from a place on, with the white space among them. -/
def applyFrom (sp : Spacing) (place : Nat) : List Char → List Char
  | [] => sp.gap place
  | c :: cs => sp.gap place ++ c :: sp.applyFrom (place + 1) cs

/-- A source text with the white space in it. -/
def apply (sp : Spacing) (source : String) : String :=
  String.ofList (sp.applyFrom 0 source.toList)

/-- How much white space goes in front of the places below `place`. -/
def inserted (sp : Spacing) : (place : Nat) → Nat
  | 0 => 0
  | place + 1 => sp.inserted place + (sp.gap place).length

/-- The position that a token has after the white space has been put in. -/
def shift (sp : Spacing) (position : Int) : Int :=
  position + sp.inserted (position.toNat + 1)

/-- White space goes in front of tokens, or behind all characters. -/
def SuitsFrom (sp : Spacing) (place : Nat) (cs : List Char) : Prop :=
  ∀ q, place ≤ q → sp.gap q ≠ [] →
    q = place + cs.length ∨ ∃ t ∈ (Token.lexFrom place cs).tokens, t.position = q

/-- White space goes in front of tokens of a source text, or behind it. -/
def Suits (sp : Spacing) (source : String) : Prop :=
  ∀ q, sp.gap q ≠ [] → q = source.length ∨ ∃ t ∈ (Token.lex source).tokens, t.position = q

/-- Where no white space goes in, none is counted. -/
theorem inserted_add (hgaps : ∀ q, place ≤ q → q < place + width → sp.gap q = []) :
    sp.inserted (place + width) = sp.inserted place := by
  induction width with
  | zero =>
    rfl
  | succ width ih =>
    rw [← Nat.add_assoc, inserted, hgaps (place + width) (by omega) (by omega),
      ih fun q hle hlt => hgaps q hle (by omega)]
    rfl

/-- Where no white space goes in, the characters stay together, and white space or the end comes at
some place behind them. -/
theorem exists_cut (hgaps : ∀ q, place ≤ q → q < place + width → sp.gap q = [])
    (hwidth : width ≤ cs.length) :
    ∃ n more, width ≤ n ∧ sp.applyFrom place cs = cs.take n ++ more ∧ Token.EndsToken more := by
  -- the cut is at the first place with white space
  induction cs generalizing place width with
  | nil =>
    exact ⟨0, sp.gap place, hwidth, rfl, fun c hc => sp.blank place c (List.mem_of_head? hc)⟩
  | cons c cs ih =>
    by_cases hgap : sp.gap place = []
    · have hgaps' : ∀ q, place + 1 ≤ q → q < place + 1 + (width - 1) → sp.gap q = [] :=
        fun q hle hlt => hgaps q (by omega) (by omega)
      have hwidth' : width - 1 ≤ cs.length := by
        rw [List.length_cons] at hwidth
        omega
      obtain ⟨n, more, hn, happly, hmore⟩ := ih hgaps' hwidth'
      refine ⟨n + 1, more, by omega, ?_, hmore⟩
      rw [applyFrom, hgap, happly]
      rfl
    · have hzero : width = 0 := by
        by_contra hne
        exact hgap (hgaps place le_rfl (by omega))
      refine ⟨0, sp.applyFrom place (c :: cs), hzero.le, rfl, ?_⟩
      obtain ⟨b, blanks, hblanks⟩ := List.exists_cons_of_ne_nil hgap
      intro c' hc'
      rw [applyFrom, hblanks] at hc'
      obtain rfl := Option.some.inj hc'
      exact sp.blank place _ (hblanks ▸ List.mem_cons_self)

/-- Behind characters among which no white space goes in. -/
theorem drop_applyFrom (hgaps : ∀ q, place ≤ q → q < place + width → sp.gap q = [])
    (hwidth : width ≤ cs.length) :
    (sp.applyFrom place cs).drop width = sp.applyFrom (place + width) (cs.drop width) := by
  induction width generalizing place cs with
  | zero =>
    rfl
  | succ width ih =>
    cases cs with
    | nil =>
      cases hwidth
    | cons c cs =>
      have hgaps' : ∀ q, place + 1 ≤ q → q < place + 1 + width → sp.gap q = [] :=
        fun q hle hlt => hgaps q (by omega) (by omega)
      rw [applyFrom, hgaps place le_rfl (by omega), List.nil_append, List.drop_succ_cons,
        List.drop_succ_cons, ih hgaps' (Nat.le_of_succ_le_succ hwidth), Nat.add_assoc,
        Nat.add_comm 1]

theorem shift_natCast (sp : Spacing) (place : Nat) :
    sp.shift place = (place + sp.inserted place + (sp.gap place).length : Nat) := by
  rw [shift, Int.toNat_natCast, inserted]
  omega

/-- The reader passes the white space in front of a character. -/
theorem lexFrom_applyFrom_cons (sp : Spacing) (place : Nat) (c : Char) (cs : List Char) :
    Token.lexFrom (place + sp.inserted place) (sp.applyFrom place (c :: cs)) =
      Token.lexFrom (place + sp.inserted place + (sp.gap place).length)
        (c :: sp.applyFrom (place + 1) cs) :=
  Token.lexFrom_blanks _ (sp.blank place) _

/-- No white space goes into a token. -/
theorem SuitsFrom.gap_eq_nil {c : Char} {t : Token} (hsuits : sp.SuitsFrom place (c :: cs))
    (hwidth : width ≤ cs.length) (hposition : t.position = place)
    (htokens : (Token.lexFrom place (c :: cs)).tokens =
      t :: (Token.lexFrom (place + 1 + width) (cs.drop width)).tokens) :
    ∀ q, place + 1 ≤ q → q < place + 1 + width → sp.gap q = [] := by
  intro q hle hlt
  by_contra hgap
  rcases hsuits q (by omega) hgap with hend | ⟨t', ht', hq⟩
  · rw [List.length_cons] at hend
    omega
  · rw [htokens] at ht'
    rcases List.mem_cons.1 ht' with rfl | ht'
    · omega
    · have hbehind := Token.le_position_of_lexFrom ht'
      omega

/-- What is left behind a token. -/
theorem SuitsFrom.behind {c : Char} {t : Token} (hsuits : sp.SuitsFrom place (c :: cs))
    (hposition : t.position = place)
    (htokens : (Token.lexFrom place (c :: cs)).tokens =
      t :: (Token.lexFrom (place + 1 + width) (cs.drop width)).tokens) :
    sp.SuitsFrom (place + 1 + width) (cs.drop width) := by
  intro q hle hgap
  rcases hsuits q (by omega) hgap with hend | ⟨t', ht', hq⟩
  · left
    rw [List.length_cons] at hend
    rw [List.length_drop]
    omega
  · rw [htokens] at ht'
    rcases List.mem_cons.1 ht' with rfl | ht'
    · omega
    · exact Or.inr ⟨t', ht', hq⟩

/-- The tokens from a place on keep their kinds and texts. -/
theorem lexFrom_applyFrom (h : (Token.lexFrom place cs).failure = none)
    (hsuits : sp.SuitsFrom place cs) :
    Token.lexFrom (place + sp.inserted place) (sp.applyFrom place cs) =
      ⟨(Token.lexFrom place cs).tokens.map (Token.moved sp.shift), none⟩ := by
  -- one token after another, each with the white space in front of it
  fun_induction Token.lexFrom place cs with
  | case1 place =>
    have hblanks := Token.lexFrom_blanks (place + sp.inserted place) (sp.blank place) []
    rw [List.append_nil, Token.lexFrom] at hblanks
    exact hblanks
  | case2 place c rest hblank ih =>
    have hplace : place + sp.inserted place + (sp.gap place).length + 1 =
        place + 1 + sp.inserted (place + 1) := by
      rw [inserted]
      omega
    have hsuits' : sp.SuitsFrom (place + 1) rest := by
      intro q hle hgap
      have hq := hsuits q (by omega) hgap
      rw [Token.lexFrom, if_pos hblank, List.length_cons] at hq
      exact hq.imp_left fun hend => by omega
    rw [lexFrom_applyFrom_cons, Token.lexFrom, if_pos hblank, hplace, ih h hsuits']
  | case3 place c rest hblank e hfirst =>
    cases h
  | case4 place c rest hblank t width hfirst ih =>
    obtain ⟨hposition, -⟩ := Token.firstToken_at hfirst place
    have htokens : (Token.lexFrom place (c :: rest)).tokens =
        t :: (Token.lexFrom (place + 1 + width) (rest.drop width)).tokens := by
      rw [Token.lexFrom, if_neg hblank, hfirst]
      rfl
    have hwidth : width ≤ rest.length :=
      (Token.firstToken_append hfirst (d := ' ') (by decide) []).2
    have hgaps := hsuits.gap_eq_nil hwidth hposition htokens
    have hplace : place + sp.inserted place + (sp.gap place).length + 1 + width =
        place + 1 + width + sp.inserted (place + 1 + width) := by
      rw [inserted_add hgaps, inserted]
      omega
    obtain ⟨n, more, hn, happly, hmore⟩ := exists_cut hgaps hwidth
    have hcut := Token.firstToken_of_cut hfirst hn hmore
    rw [← happly] at hcut
    obtain ⟨-, hmoved⟩ :=
      Token.firstToken_at hcut (place + sp.inserted place + (sp.gap place).length)
    rw [lexFrom_applyFrom_cons, Token.lexFrom, if_neg hblank, hmoved]
    dsimp only
    rw [drop_applyFrom hgaps hwidth, hplace,
      ih h (hsuits.behind hposition htokens), ← sp.shift_natCast, ← hposition]
    rfl

/-- The tokens of a source text keep their kinds and texts. -/
theorem lex_apply {source : String} (h : (Token.lex source).failure = none)
    (hsuits : sp.Suits source) :
    Token.lex (sp.apply source) =
      ⟨(Token.lex source).tokens.map (Token.moved sp.shift), none⟩ := by
  have hsuits' : sp.SuitsFrom 0 source.toList := by
    intro q _ hgap
    rw [Nat.zero_add, String.length_toList]
    exact hsuits q hgap
  rw [Token.lex, apply, String.toList_ofList]
  exact lexFrom_applyFrom h hsuits'

end Spacing
end Reckon
