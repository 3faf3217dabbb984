import Reckon.Evaluation
import Reckon.Proofs.Token.Tiling

/-!
# Quotation — every text as a literal

Between single or double quotes every text can be written: a backslash goes in front of every mark
and every backslash, and the characters that have a letter for their escape may be written with it.
Between back quotes a text is written as it is, so these suit all texts but those with a back quote.

* `Token.escaped`, `Token.Abbreviates` — a text as it is written between marks;
* `Token.IsWhole` — a source text that is one token;
* `Token.quotation_reads` — what is written is read back, and is the value of the source text.
-/

namespace Reckon
namespace Token

open Text

/-- A text with a backslash in front of every mark and every backslash. -/
def escaped (mark : Char) (cs : List Char) : List Char :=
  cs.flatMap fun c => if c = mark ∨ c = '\\' then ['\\', c] else [c]

/-- The characters that can be written as an escape with a letter, and the letter. -/
inductive HasLetter : (c letter : Char) → Prop where
  | lineFeed : HasLetter '\n' 'n'
  | tab : HasLetter '\t' 't'
  | carriageReturn : HasLetter '\r' 'r'
  | null : HasLetter '\x00' '0'

/-- The same characters, some of which are written with their letter. -/
inductive Abbreviates : (cs written : List Char) → Prop where
  | nil : Abbreviates [] []
  | keep (c : Char) {cs written : List Char} : Abbreviates cs written →
    Abbreviates (c :: cs) (c :: written)
  | letter {c letter : Char} {cs written : List Char} : HasLetter c letter →
    Abbreviates cs written → Abbreviates (c :: cs) ('\\' :: letter :: written)

/-- A source text that begins and ends with the same mark. -/
def between (mark : Char) (written : List Char) : String :=
  String.ofList (mark :: (written ++ [mark]))

/-- A source text that is one token from its first character to its last. -/
structure IsWhole (source : String) (t : Token) : Prop where
  lex_eq : lex source = ⟨[t], none⟩
  shows : ∃ s : Span, Shows source.toList t s ∧ s.start = 0 ∧ s.stop = source.length

variable {mark : Char} {cs written content : List Char}

/-! ## Written texts -/

theorem unescape_of_hasLetter {c letter : Char} (h : HasLetter c letter) : unescape letter = c := by
  cases h <;> rfl

/-- A mark or a backslash has no letter. -/
theorem not_hasLetter_of_isMark (hmark : IsMark mark) {c letter : Char}
    (hc : c = mark ∨ c = '\\') : ¬HasLetter c letter := by
  have hcases : c = '\'' ∨ c = '"' ∨ c = '\\' := by
    rcases hc with rfl | rfl
    · exact hmark.imp_right Or.inl
    · exact Or.inr (Or.inr rfl)
  rintro (_ | _ | _ | _) <;> revert hcases <;> decide

/-- What is written between marks denotes the text that it was written for. -/
theorem body_of_abbreviates (hmark : IsMark mark) (h : Abbreviates (escaped mark cs) written) :
    Body mark written cs := by
  have hquote := (isMark_iff.1 hmark).2
  induction cs generalizing written with
  | nil =>
    cases h
    exact .nil
  | cons c cs ih =>
    rw [escaped, List.flatMap_cons] at h
    by_cases hc : c = mark ∨ c = '\\'
    · -- the backslash in front of the character stays, and so does the character
      rw [if_pos hc] at h
      cases h with
      | letter hletter _ =>
        exact absurd hletter (not_hasLetter_of_isMark hmark (Or.inr rfl))
      | keep _ h =>
        cases h with
        | letter hletter _ =>
          exact absurd hletter (not_hasLetter_of_isMark hmark hc)
        | keep _ h =>
          have hbody := Body.escape (c := c) hquote (ih h)
          rwa [unescape_self hmark hc] at hbody
    · rw [if_neg hc] at h
      cases h with
      | keep _ h =>
        exact .plain (fun hself => hc (Or.inl hself)) (Or.inl fun hback => hc (Or.inr hback)) (ih h)
      | @letter _ letter _ _ hletter h =>
        have hbody := Body.escape (c := letter) hquote (ih h)
        rwa [unescape_of_hasLetter hletter] at hbody

/-- Between back quotes a text stands as it is. -/
theorem body_backquote_iff : Body '`' written content ↔ written = content ∧ '`' ∉ content := by
  constructor
  · intro h
    induction h with
    | nil =>
      exact ⟨rfl, List.not_mem_nil⟩
    | plain hne _ _ ih =>
      obtain ⟨rfl, hmem⟩ := ih
      exact ⟨rfl, List.not_mem_cons_of_ne_of_not_mem hne.symm hmem⟩
    | escape hquote _ _ =>
      exact absurd rfl hquote
  · rintro ⟨rfl, hmem⟩
    induction written with
    | nil =>
      exact .nil
    | cons c written ih =>
      rw [List.mem_cons, not_or] at hmem
      exact .plain (Ne.symm hmem.1) (Or.inr rfl) (ih hmem.2)

/-! ## Source texts -/

/-- A body between marks is one token. -/
theorem isWhole_between (hmark : isQuote mark = true) {text : String}
    (h : Body mark written text.toList) : IsWhole (between mark written) ⟨.text, text, 0⟩ := by
  have hfirst := firstToken_of_closed hmark h 0 []
  rw [String.ofList_toList] at hfirst
  have hlength : (between mark written).length = written.length + 2 := by
    rw [between, String.length_ofList, List.length_cons, List.length_append]
    rfl
  refine ⟨lex_of_firstToken (classes_of_isQuote hmark).1 ?_,
    ⟨0, written.length + 2, Nat.succ_pos _⟩, ?_, rfl, hlength.symm⟩
  · rwa [List.length_append]
  · refine ⟨rfl, mark, written, [], hmark, h, ?_, (Nat.zero_add _).symm⟩
    exact String.toList_ofList

/-- A source text that is one text has it as its value. -/
theorem IsWhole.evaluate [Capacity] {source text : String} (h : IsWhole source ⟨.text, text, 0⟩)
    (b : Bindings) : Reckon.evaluate source b = .ok (.text text) := by
  rw [Reckon.evaluate, h.lex_eq]
  rfl

/-- What stands between back quotes is one text only if no back quote is in it. -/
theorem not_mem_of_isWhole {text : String} (h : IsWhole (between '`' text.toList) ⟨.text, text, 0⟩) :
    '`' ∉ text.toList := by
  obtain ⟨s, ⟨-, mark, written, more, -, hbody, hdrop, -⟩, hstart, -⟩ := h.shows
  rw [hstart, between, String.toList_ofList, List.drop_zero] at hdrop
  obtain ⟨rfl, -⟩ := List.cons.inj hdrop
  exact (body_backquote_iff.1 hbody).2

/-- Every text can be written between single quotes and between double quotes, with letters for some
characters or for none.  Between back quotes those texts can be written that have no back quote.  In
all these ways the source text is one token, and its value is the text. -/
theorem quotation_reads [Capacity] (text : String) :
    (∀ mark written, IsMark mark → Abbreviates (escaped mark text.toList) written →
      IsWhole (between mark written) ⟨.text, text, 0⟩ ∧
        ∀ b, evaluate (between mark written) b = .ok (.text text)) ∧
    (IsWhole (between '`' text.toList) ⟨.text, text, 0⟩ ↔ '`' ∉ text.toList) ∧
    ('`' ∉ text.toList → ∀ b, evaluate (between '`' text.toList) b = .ok (.text text)) := by
  have hback : '`' ∉ text.toList → IsWhole (between '`' text.toList) ⟨.text, text, 0⟩ :=
    fun hmem => isWhole_between rfl (body_backquote_iff.2 ⟨rfl, hmem⟩)
  refine ⟨?_, ⟨not_mem_of_isWhole, hback⟩, fun hmem => (hback hmem).evaluate⟩
  intro mark written hmark h
  have hwhole := isWhole_between (isMark_iff.1 hmark).1 (body_of_abbreviates hmark h)
  exact ⟨hwhole, hwhole.evaluate⟩

/-- An apostrophe takes a backslash between single quotes, and the end of the line has a letter. -/
theorem quotation_reads_of_line :
    IsMark '\'' ∧ Abbreviates (escaped '\'' "o'clock\n".toList) "o\\'clock\\n".toList ∧
      evaluate "'o\\'clock\\n'" [] = .ok (.text "o'clock\n") := by
  have hwritten : Abbreviates (escaped '\'' "o'clock\n".toList) "o\\'clock\\n".toList := by
    have hline : Abbreviates ['\n'] ['\\', 'n'] := .letter .lineFeed .nil
    exact .keep 'o' (.keep '\\' (.keep '\'' (.keep 'c' (.keep 'l' (.keep 'o' (.keep 'c'
      (.keep 'k' hline)))))))
  have hsource : between '\'' "o\\'clock\\n".toList = "'o\\'clock\\n'" := by decide
  obtain ⟨hmarks, -, -⟩ := quotation_reads "o'clock\n"
  have hvalue := (hmarks '\'' _ (Or.inl rfl) hwritten).2 []
  rw [hsource] at hvalue
  exact ⟨Or.inl rfl, hwritten, hvalue⟩

end Token
end Reckon
