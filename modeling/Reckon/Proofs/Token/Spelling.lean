import Reckon.Proofs.Evaluation.Phrase
import Reckon.Proofs.Token.Word

/-!
# Spelling — characters that are read as given words

A text that is put together from words is read as these words, if each of them ends where the next
one begins.  Symbols end by themselves and texts by their marks; behind a name or a number something
must stand that does not continue it.

* `Token.Spells` — characters that are read as words, whatever their position;
* `Token.Spells.blank`, `Token.Spells.symbol`, `Token.Spells.name`, `Token.Spells.numeral`,
  `Token.Spells.quoted` — one more word in front of others.
-/

namespace Reckon
namespace Token

open Text

/-- Characters that are read as words, wherever they stand. -/
def Spells (cs : List Char) (words : List (TokenKind × String)) : Prop :=
  ∀ position, (lexFrom position cs).failure = none ∧
    (lexFrom position cs).tokens.map word = words

variable {cs rest : List Char} {words : List (TokenKind × String)}

/-! ## Rules -/

theorem spells_nil : Spells [] [] := by
  intro position
  rw [lexFrom]
  exact ⟨rfl, rfl⟩

theorem Spells.blank (h : Spells cs words) {c : Char} (hc : isBlank c = true) :
    Spells (c :: cs) words := by
  intro position
  rw [lexFrom, if_pos hc]
  exact h _

/-- A word in front of others, once its first token is known. -/
theorem Spells.token (h : Spells rest words) {c : Char} {width : Nat} {w : TokenKind × String}
    (hc : isBlank c = false) (hrest : cs.drop width = rest)
    (hfirst : ∀ position, ∃ t, firstToken position c cs = .ok (t, width) ∧ t.word = w) :
    Spells (c :: cs) (w :: words) := by
  intro position
  obtain ⟨t, ht, rfl⟩ := hfirst position
  obtain ⟨hfailure, htokens⟩ := h (position + 1 + width)
  rw [lexFrom, if_neg (by simp [hc]), ht]
  dsimp only
  rw [hrest]
  exact ⟨hfailure, congrArg (t.word :: ·) htokens⟩

/-- What the reading of a source text is made of. -/
theorem Spells.lex {source : String} (h : Spells source.toList words) :
    ∃ ts, lex source = ⟨ts, none⟩ ∧ ts.map word = words := by
  obtain ⟨hfailure, htokens⟩ := h 0
  refine ⟨_, ?_, htokens⟩
  rw [Token.lex, ← hfailure]

/-! ## Symbols and names -/

/-- Only a digit or a point begins a number. -/
theorem numberLength_eq_zero {c : Char} (hdigit : isDecimalDigit c = false) (hpoint : c ≠ '.')
    (cs : List Char) : numberLength (c :: cs) = 0 := by
  have hzero : c ≠ '0' := by
    rintro rfl
    exact absurd hdigit (by decide)
  have hradix : radixLength (c :: cs) = 0 := by
    unfold radixLength
    split
    · rename_i hcons
      exact absurd (List.cons.inj hcons).1 hzero
    · rfl
  have hcount : digitCount (c :: cs) = 0 := by
    rw [digitCount, List.takeWhile_cons_of_neg (by simp [hdigit])]
    rfl
  have hfraction : fractionLength (c :: cs) = 0 := by
    unfold fractionLength
    split
    · rename_i hcons
      exact absurd (List.cons.inj hcons).1 hpoint
    · rfl
  have hmantissa : mantissaLength (c :: cs) = 0 := by
    simp [mantissaLength, hcount, hfraction]
  simp [numberLength, hradix, decimalLength, hmantissa]

/-- Whether a character is the symbol of an operator, or the one in front of a variable. -/
def isSymbol (c : Char) : Bool :=
  c ∈ ['+', '-', '*', '/', '%', ',', '(', ')', '$']

theorem Spells.symbol (h : Spells cs words) {c : Char} (hc : isSymbol c = true) :
    Spells (c :: cs) ((.symbol, c.toString) :: words) := by
  have hclasses : ∀ c ∈ ['+', '-', '*', '/', '%', ',', '(', ')', '$'],
      isBlank c = false ∧ isDecimalDigit c = false ∧ c ≠ '.' ∧ isQuote c = false ∧
        isLetter c = false := by
    simp only [List.mem_cons, List.not_mem_nil, or_false, forall_eq_or_imp, forall_eq]
    decide
  obtain ⟨hblank, hdigit, hpoint, hquote, hletter⟩ := hclasses c (of_decide_eq_true hc)
  have hname : nameLength (c :: cs) = 0 := by
    rw [nameLength, if_neg (by simp [hletter])]
  refine h.token hblank List.drop_zero fun position => ⟨⟨.symbol, c.toString, position⟩, ?_, rfl⟩
  simp [firstToken, numberLength_eq_zero hdigit hpoint, hquote, hname]

/-- A letter begins neither a number nor a text. -/
theorem classes_of_isLetter {c : Char} (h : isLetter c = true) :
    isBlank c = false ∧ isDecimalDigit c = false ∧ c ≠ '.' ∧ isQuote c = false := by
  have hascii : c.toNat < 128 := by
    simp only [isLetter, Bool.or_eq_true, Bool.and_eq_true, decide_eq_true_eq] at h
    rcases h with (h | h) | h
    · exact toNat_lt_of_le h.2 (by decide)
    · exact toNat_lt_of_le h.2 (by decide)
    · rw [h]
      decide
  have hall : ∀ n < 128, isLetter (Char.ofNat n) = true → isBlank (Char.ofNat n) = false ∧
      isDecimalDigit (Char.ofNat n) = false ∧ Char.ofNat n ≠ '.' ∧
        isQuote (Char.ofNat n) = false := by
    decide +kernel
  exact forall_ascii (p := fun c => isLetter c = true → isBlank c = false ∧
    isDecimalDigit c = false ∧ c ≠ '.' ∧ isQuote c = false) hall hascii h

/-- What may stand behind a name. -/
def EndsName (rest : List Char) : Prop :=
  ∀ c, rest.head? = some c → isNameCharacter c = false

theorem nameLength_append {c : Char} (hc : isLetter c = true)
    (hcs : ∀ x ∈ cs, isNameCharacter x = true) (hrest : EndsName rest) :
    nameLength (c :: (cs ++ rest)) = 1 + cs.length := by
  rw [nameLength, if_pos hc, takeWhile_append_of_head hcs hrest]

theorem isName_of_all {name : String} (hhead : name.toList.head?.any isLetter = true)
    (htail : name.toList.tail.all isNameCharacter = true) : IsName name := by
  cases hname : name.toList with
  | nil =>
    rw [hname] at hhead
    cases hhead
  | cons c cs =>
    rw [hname] at hhead htail
    refine ⟨c, cs, ?_, hhead, List.all_eq_true.1 htail⟩
    rw [← hname, String.ofList_toList]

theorem Spells.name (h : Spells rest words) (hrest : EndsName rest) {name : String}
    (hname : IsName name) : Spells (name.toList ++ rest) ((.name, name) :: words) := by
  obtain ⟨c, cs, rfl, hc, hcs⟩ := hname
  obtain ⟨hblank, hdigit, hpoint, hquote⟩ := classes_of_isLetter hc
  have hlength := nameLength_append hc hcs hrest
  rw [String.toList_ofList, List.cons_append]
  refine h.token hblank (List.drop_left) ?_
  intro position
  refine ⟨⟨.name, String.ofList (c :: cs), position⟩, ?_, rfl⟩
  have htake : (c :: (cs ++ rest)).take (1 + cs.length) = c :: cs := by
    rw [Nat.add_comm, List.take_succ_cons, List.take_left]
  simp [firstToken, numberLength_eq_zero hdigit hpoint, hquote, hlength, ofLength, htake]

/-! ## Numbers -/

theorem Spells.numeral (h : Spells rest words) (hrest : Numeral.Stops rest) (n : Numeral) :
    Spells (n.characters ++ rest) ((.number, String.ofList n.characters) :: words) := by
  have hlength := n.numberLength_append hrest
  obtain ⟨c, cs, hcs, -⟩ := n.exists_head
  have hblank : isBlank c = false :=
    isBlank_of_isNumeralCharacter (Numeral.isNumeralCharacter_of_mem (n := n) (by simp [hcs]))
  rw [hcs] at hlength ⊢
  rw [List.cons_append] at hlength ⊢
  refine h.token hblank (List.drop_left) ?_
  intro position
  refine ⟨⟨.number, String.ofList (c :: cs), position⟩, ?_, rfl⟩
  have htake : (c :: (cs ++ rest)).take (cs.length + 1) = c :: cs := by
    rw [List.take_succ_cons, List.take_left]
  simp [firstToken, hlength, ofLength, htake]

/-! ## Texts -/

/-- Whether a character is written in a text in a way in which it is read back. -/
def isWritable (c : Char) : Bool :=
  isPrintable c || c = '\n' || c = '\r' || c = '\t'

/-- A mark that texts are written between. -/
def IsMark (q : Char) : Prop :=
  q = '\'' ∨ q = '"'

theorem isMark_mark (ps : List CodePoint) : IsMark (Quoted.mark ps) := by
  unfold Quoted.mark
  split
  · exact Or.inr rfl
  · exact Or.inl rfl

/-- Behind a backslash a mark or a backslash stands for itself. -/
theorem unescape_self {q c : Char} (hq : IsMark q) (hc : c = q ∨ c = '\\') : unescape c = c := by
  rcases hc with rfl | rfl
  · rcases hq with rfl | rfl <;> decide
  · decide

theorem readText_mark (q : Char) (cs : List Char) : readText q (q :: cs) = .closed [] 1 := by
  rw [readText.eq_def]
  exact if_pos rfl

theorem readText_plain {q c : Char} (hmark : c ≠ q) (hplain : c ≠ '\\') (cs : List Char) :
    readText q (c :: cs) = .cons c 1 (readText q cs) := by
  rw [readText.eq_def]
  exact (if_neg hmark).trans (if_neg fun h => hplain h.1)

theorem readText_pair {q : Char} (hq : IsMark q) (d : Char) (cs : List Char) :
    readText q ('\\' :: d :: cs) = .cons (unescape d) 2 (readText q cs) := by
  have hback : '\\' ≠ q := by
    rcases hq with rfl | rfl <;> decide
  have hquote : q ≠ '`' := by
    rcases hq with rfl | rfl <;> decide
  rw [readText.eq_def]
  exact (if_neg hback).trans (if_pos ⟨rfl, hquote⟩)

/-- A character that is written between marks is read back. -/
theorem readText_escape {q c : Char} (hq : IsMark q) (hc : isWritable c = true) (rest : List Char) :
    ∃ width, readText q (Quoted.escape q (.character c) ++ rest) = .cons c width (readText q rest) ∧
      (Quoted.escape q (.character c)).length = width := by
  have hpair : ∀ d, readText q (['\\', d] ++ rest) = .cons (unescape d) 2 (readText q rest) :=
    fun d => readText_pair hq d rest
  rw [Quoted.escape]
  -- marks and backslashes, the three control characters that have letters, and all the others
  split
  · rename_i hself
    exact ⟨2, by rw [hpair, unescape_self hq hself], rfl⟩
  · rename_i hplain
    rw [not_or] at hplain
    split
    · rename_i hfeed
      exact ⟨2, by rw [hpair, hfeed]; rfl, rfl⟩
    · rename_i hfeed
      split
      · rename_i hreturn
        exact ⟨2, by rw [hpair, hreturn]; rfl, rfl⟩
      · rename_i hreturn
        split
        · rename_i htab
          exact ⟨2, by rw [hpair, htab]; rfl, rfl⟩
        · rename_i htab
          have hprintable : isPrintable c = true := by
            simpa [isWritable, hfeed, hreturn, htab] using hc
          refine ⟨1, ?_, by rw [if_pos hprintable]; rfl⟩
          rw [if_pos hprintable, List.singleton_append, readText_plain hplain.1 hplain.2]

/-- A text that is written between marks is read back up to its closing mark. -/
theorem readText_escapes {q : Char} (hq : IsMark q) (hcs : ∀ c ∈ cs, isWritable c = true)
    (rest : List Char) :
    readText q ((cs.map .character).flatMap (Quoted.escape q) ++ q :: rest) =
      .closed cs (((cs.map .character).flatMap (Quoted.escape q)).length + 1) := by
  induction cs with
  | nil =>
    rw [List.map_nil, List.flatMap_nil, List.nil_append, readText_mark]
    rfl
  | cons c cs ih =>
    obtain ⟨hc, hcs⟩ := List.forall_mem_cons.1 hcs
    obtain ⟨width, hread, hwidth⟩ :=
      readText_escape hq hc ((cs.map .character).flatMap (Quoted.escape q) ++ q :: rest)
    rw [List.map_cons, List.flatMap_cons, List.append_assoc, hread, ih hcs, List.length_append,
      hwidth, Nat.add_assoc]
    rfl

theorem Spells.quoted (h : Spells rest words) {s : String}
    (hs : ∀ c ∈ s.toList, isWritable c = true) :
    Spells ((Text.quoted s).toList ++ rest) ((.text, s) :: words) := by
  have hmark := isMark_mark (s : CodeText).points
  have hread := readText_escapes hmark hs rest
  rw [Text.quoted, String.toList_ofList, Quoted.encode]
  generalize Quoted.mark (s : CodeText).points = q at hmark hread ⊢
  -- the text as it is written between the marks
  change readText q ((s : CodeText).points.flatMap (Quoted.escape q) ++ q :: rest) =
    .closed s.toList (((s : CodeText).points.flatMap (Quoted.escape q)).length + 1) at hread
  generalize (s : CodeText).points.flatMap (Quoted.escape q) = written at hread ⊢
  have hclasses : isBlank q = false ∧ isDecimalDigit q = false ∧ q ≠ '.' ∧ isQuote q = true := by
    rcases hmark with rfl | rfl <;> decide
  obtain ⟨hblank, hdigit, hpoint, hquote⟩ := hclasses
  have hlist : q :: written ++ [q] ++ rest = q :: (written ++ q :: rest) := by simp
  rw [hlist]
  have hdrop : (written ++ q :: rest).drop (written.length + 1) = rest := by
    rw [← List.drop_drop, List.drop_left]
    rfl
  refine h.token hblank hdrop ?_
  intro position
  refine ⟨⟨.text, s, position⟩, ?_, rfl⟩
  simp [firstToken, numberLength_eq_zero hdigit hpoint, hquote, hread]

end Token
end Reckon
