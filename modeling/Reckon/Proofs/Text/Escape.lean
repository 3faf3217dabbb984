import Reckon.Proofs.Token.Spelling

/-!
# Escape — quoted texts are read back and stay on one line

Whatever stands behind a quoted text, the text can be told from it: the mark in front is the mark at
the end, and every code point between them is had back from the way in which it is written.

* `Text.readEscaped` — the code point that is written at the front of some characters;
* `Text.Quoted.encode_append_inj` — quoted texts form a prefix code;
* `Text.isLineBreak`, `Text.OneLine` — the characters that end a line, and lines without one;
* `Text.Quoted.oneLine_encode` — a quoted text is such a line.
-/

namespace Reckon
namespace Text

/-! ## Reading back -/

/-- The code point that is written with `width` hexadecimal digits, and what follows. -/
def readCode (width : Nat) (cs : List Char) : Option (CodePoint × List Char) :=
  ((cs.take width).mapM (radixDigit? 16)).map fun ds => (.ofCode (ofDigits 16 ds), cs.drop width)

/-- The code point that is written at the front of what stands between marks, and what follows. -/
def readEscaped : List Char → Option (CodePoint × List Char)
  | '\\' :: 'n' :: cs => some (.character '\n', cs)
  | '\\' :: 'r' :: cs => some (.character '\r', cs)
  | '\\' :: 't' :: cs => some (.character '\t', cs)
  | '\\' :: 'x' :: cs => readCode 2 cs
  | '\\' :: 'u' :: cs => readCode 4 cs
  | '\\' :: 'U' :: cs => readCode 8 cs
  | '\\' :: c :: cs => some (.character c, cs)
  | c :: cs => some (.character c, cs)
  | [] => none

theorem radixDigit?_hexDigit (n : Nat) : radixDigit? 16 (hexDigit n) = some (n % 16) := by
  have hall : ∀ d < 16, radixDigit? 16 (Nat.digitChar d) = some d := by decide
  exact hall (n % 16) (Nat.mod_lt n (by decide))

/-- Hexadecimal digits are had back, as far as there are any. -/
theorem exists_mapM_hexDigits (width n : Nat) :
    ∃ ds, (hexDigits width n).mapM (radixDigit? 16) = some ds ∧
      ofDigits 16 ds = n % 16 ^ width := by
  induction width generalizing n with
  | zero => exact ⟨[], rfl, by rw [Nat.pow_zero, Nat.mod_one, ofDigits_nil]⟩
  | succ width ih =>
    obtain ⟨ds, hread, hvalue⟩ := ih (n / 16)
    refine ⟨ds ++ [n % 16], ?_, ?_⟩
    · rw [hexDigits, List.mapM_append, hread]
      simp [radixDigit?_hexDigit]
    · rw [ofDigits_concat, hvalue, Nat.add_comm, Nat.pow_succ', Nat.mod_mul]

theorem readCode_hexDigits {width : Nat} {p : CodePoint} (h : p.code < 16 ^ width)
    (cs : List Char) : readCode width (hexDigits width p.code ++ cs) = some (p, cs) := by
  obtain ⟨ds, hread, hvalue⟩ := exists_mapM_hexDigits width p.code
  have hlength := length_hexDigits width p.code
  rw [readCode, List.take_left' hlength, List.drop_left' hlength, hread, Option.map_some, hvalue,
    Nat.mod_eq_of_lt h, CodePoint.ofCode_code]

theorem readEscaped_escapeCode (p : CodePoint) (cs : List Char) :
    readEscaped (Quoted.escapeCode p ++ cs) = some (p, cs) := by
  unfold Quoted.escapeCode
  split
  · rename_i h
    exact readCode_hexDigits (by simpa using h) cs
  · split
    · rename_i h
      exact readCode_hexDigits (by simpa using h) cs
    · have hlt : p.code < 16 ^ 8 := Nat.lt_trans p.code_lt (by decide)
      exact readCode_hexDigits hlt cs

/-! ## Lines -/

/-- The code points of the characters that end a line. -/
def lineBreakRanges : CodeRanges :=
  [(0x0A, 0x0D), (0x1C, 0x1E), (0x85, 0x85), (0x2028, 0x2029)]

/-- Whether a character ends a line. -/
def isLineBreak (c : Char) : Bool :=
  lineBreakRanges.contains c

/-- Characters none of which ends a line. -/
def OneLine (cs : List Char) : Prop :=
  ∀ c ∈ cs, isLineBreak c = false

instance (cs : List Char) : Decidable (OneLine cs) :=
  List.decidableBAll (fun c => isLineBreak c = false) cs

theorem oneLine_nil : OneLine [] := nofun

theorem oneLine_cons {c : Char} {cs : List Char} :
    OneLine (c :: cs) ↔ isLineBreak c = false ∧ OneLine cs :=
  List.forall_mem_cons

theorem oneLine_append {cs ds : List Char} : OneLine (cs ++ ds) ↔ OneLine cs ∧ OneLine ds :=
  List.forall_mem_append

/-- Characters that end a line are white space. -/
theorem isBlank_of_isLineBreak {c : Char} (h : isLineBreak c = true) : isBlank c = true := by
  rw [isLineBreak, CodeRanges.contains_iff] at h
  obtain ⟨range, hrange, hlow, hhigh⟩ := h
  have hwithin : ∀ range ∈ lineBreakRanges,
      ∃ blank ∈ blankRanges, blank.1 ≤ range.1 ∧ range.2 ≤ blank.2 := by
    decide
  obtain ⟨blank, hblank, hfirst, hlast⟩ := hwithin range hrange
  exact CodeRanges.contains_iff.2 ⟨blank, hblank, by omega, by omega⟩

theorem isLineBreak_of_isBlank {c : Char} (h : isBlank c = false) : isLineBreak c = false := by
  rw [Bool.eq_false_iff] at h ⊢
  exact fun hbreak => h (isBlank_of_isLineBreak hbreak)

/-- They are not printable. -/
theorem isLineBreak_of_isPrintable {c : Char} (h : isPrintable c = true) :
    isLineBreak c = false := by
  rw [Bool.eq_false_iff]
  intro hbreak
  rw [isLineBreak, CodeRanges.contains_iff] at hbreak
  obtain ⟨range, hrange, hlow, hhigh⟩ := hbreak
  unfold isPrintable at h
  split at h
  · -- within ASCII they are controls
    have hcontrol : ∀ range ∈ lineBreakRanges,
        range.2 < 0x20 ∨ 0x7F < range.1 := by
      decide
    have hbounds := hcontrol range hrange
    simp only [Bool.and_eq_true, decide_eq_true_eq] at h
    omega
  · have hwithin : ∀ range ∈ lineBreakRanges,
        range.2 < 0x80 ∨ ∃ other ∈ unprintableRanges, other.1 ≤ range.1 ∧ range.2 ≤ other.2 := by
      decide +kernel
    rcases hwithin range hrange with hascii | ⟨other, hother, hfirst, hlast⟩
    · omega
    · have hcontains : unprintableRanges.contains c = true :=
        CodeRanges.contains_iff.2 ⟨other, hother, by omega, by omega⟩
      rw [hcontains] at h
      cases h

theorem oneLine_hexDigits (width n : Nat) : OneLine (hexDigits width n) := by
  induction width generalizing n with
  | zero => exact oneLine_nil
  | succ width ih =>
    have hall : ∀ d < 16, isLineBreak (Nat.digitChar d) = false := by decide
    exact oneLine_append.2 ⟨ih _, oneLine_cons.2 ⟨hall _ (Nat.mod_lt n (by decide)), oneLine_nil⟩⟩

namespace Quoted

variable {q c : Char} {ps ps' : List CodePoint} {rest rest' : List Char}

theorem readEscaped_escape (hq : Token.IsMark q) (p : CodePoint) (cs : List Char) :
    readEscaped (escape q p ++ cs) = some (p, cs) := by
  cases p with
  | half place => exact readEscaped_escapeCode _ cs
  | character c =>
    rw [escape]
    split
    · rename_i h
      rcases h with rfl | rfl
      · rcases hq with rfl | rfl <;> rfl
      · rfl
    · rename_i h
      obtain ⟨-, hc⟩ := not_or.1 h
      split
      · rename_i h
        rw [h]
        rfl
      · split
        · rename_i h
          rw [h]
          rfl
        · split
          · rename_i h
            rw [h]
            rfl
          · split
            · simp [readEscaped, hc]
            · exact readEscaped_escapeCode _ cs

/-- What stands for a character does not look like the end of the text. -/
theorem escape_append_ne (hq : Token.IsMark q) (p : CodePoint) :
    escape q p ++ rest ≠ q :: rest' := by
  have hback : '\\' ≠ q := by
    rcases hq with rfl | rfl <;> decide
  have hescaped : ∀ cs, '\\' :: cs ++ rest ≠ q :: rest' := fun cs h => hback (List.cons.inj h).1
  have hcode : ∀ p, escapeCode p ++ rest ≠ q :: rest' := by
    intro p
    unfold escapeCode
    split_ifs <;> exact hescaped _
  cases p with
  | half place => exact hcode _
  | character c =>
    rw [escape]
    split
    · exact hescaped _
    · rename_i h
      obtain ⟨hc, -⟩ := not_or.1 h
      split_ifs
      all_goals first
        | exact hescaped _
        | exact hcode _
        | exact fun h => hc (List.cons.inj h).1

/-- Characters between marks, up to the closing mark, form a prefix code. -/
theorem escapes_append_inj (hq : Token.IsMark q)
    (h : ps.flatMap (escape q) ++ q :: rest = ps'.flatMap (escape q) ++ q :: rest') :
    ps = ps' ∧ rest = rest' := by
  induction ps generalizing ps' with
  | nil =>
    cases ps' with
    | nil => exact ⟨rfl, (List.cons.inj h).2⟩
    | cons p' ps' =>
      rw [List.flatMap_cons, List.append_assoc] at h
      exact absurd h.symm (escape_append_ne hq p')
  | cons p ps ih =>
    cases ps' with
    | nil =>
      rw [List.flatMap_cons, List.append_assoc] at h
      exact absurd h (escape_append_ne hq p)
    | cons p' ps' =>
      rw [List.flatMap_cons, List.flatMap_cons, List.append_assoc, List.append_assoc] at h
      -- both code points are read from the same text
      have hread := congrArg readEscaped h
      rw [readEscaped_escape hq, readEscaped_escape hq] at hread
      obtain ⟨rfl, hbody⟩ := Prod.mk.inj (Option.some.inj hread)
      obtain ⟨rfl, hrest⟩ := ih hbody
      exact ⟨rfl, hrest⟩

/-- Where a quoted text ends, and which text it is, does not depend on what follows. -/
theorem encode_append_inj (h : encode ps ++ rest = encode ps' ++ rest') :
    ps = ps' ∧ rest = rest' := by
  unfold encode at h
  simp only [List.append_assoc, List.cons_append, List.nil_append] at h
  obtain ⟨hmark, h⟩ := List.cons.inj h
  rw [← hmark] at h
  exact escapes_append_inj (Token.isMark_mark ps) h

theorem oneLine_escapeCode (p : CodePoint) : OneLine (escapeCode p) := by
  unfold escapeCode
  split_ifs
  all_goals
    exact oneLine_cons.2 ⟨by decide, oneLine_cons.2 ⟨by decide, oneLine_hexDigits _ _⟩⟩

theorem oneLine_escape (hq : Token.IsMark q) (p : CodePoint) : OneLine (escape q p) := by
  have hpair : ∀ {d}, isLineBreak d = false → OneLine ['\\', d] := fun hd =>
    oneLine_cons.2 ⟨by decide, oneLine_cons.2 ⟨hd, oneLine_nil⟩⟩
  cases p with
  | half place => exact oneLine_escapeCode _
  | character c =>
    rw [escape]
    split
    · rename_i h
      refine hpair ?_
      rcases h with rfl | rfl
      · rcases hq with rfl | rfl <;> decide
      · decide
    · split_ifs with _ _ _ hprintable
      · exact hpair (by decide)
      · exact hpair (by decide)
      · exact hpair (by decide)
      · exact oneLine_cons.2 ⟨isLineBreak_of_isPrintable hprintable, oneLine_nil⟩
      · exact oneLine_escapeCode _

theorem oneLine_encode (ps : List CodePoint) : OneLine (encode ps) := by
  have hq := Token.isMark_mark ps
  have hmark : isLineBreak (mark ps) = false := by
    rcases hq with h | h <;> rw [h] <;> decide
  refine oneLine_cons.2 ⟨hmark, oneLine_append.2 ⟨?_, oneLine_cons.2 ⟨hmark, oneLine_nil⟩⟩⟩
  intro x hx
  obtain ⟨p, -, hp⟩ := List.mem_flatMap.1 hx
  exact oneLine_escape hq p x hp

end Quoted
end Text
end Reckon
