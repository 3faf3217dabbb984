import Reckon.Proofs.Token.Spelling

/-!
# Body — what stands between quotation marks

A text literal ends at the first mark that is not taken away by a backslash in front of it.  Between
back quotes a backslash takes nothing away.  A *body* is what can stand in front of the mark at the
end, so what follows the mark at the front consists of a body and of what puts an end to it.

* `Token.Body` — the characters of a body, and the characters that they denote;
* `Token.exists_body` — the body behind a mark;
* `Token.readText_eq_closed_iff`, `Token.readText_eq_unclosed_iff` — what the reader makes of it;
* `Token.firstToken_of_closed`, `Token.exists_of_firstToken_error` — texts as tokens, and the only
  way in which no token can be read.
-/

namespace Reckon
namespace Token

open Text

/-- Characters that can stand between two marks, and the characters that they denote. -/
inductive Body (mark : Char) : (written content : List Char) → Prop where
  | nil : Body mark [] []
  | plain {c : Char} {written content : List Char} : c ≠ mark → (c ≠ '\\' ∨ mark = '`') →
    Body mark written content → Body mark (c :: written) (c :: content)
  | escape {c : Char} {written content : List Char} : mark ≠ '`' →
    Body mark written content → Body mark ('\\' :: c :: written) (unescape c :: content)

/-- What puts an end to a body: the mark, or the end of the source text, which may come in the middle
of an escape. -/
inductive EndsBody (mark : Char) : List Char → Prop where
  | mark (more : List Char) : EndsBody mark (mark :: more)
  | source : EndsBody mark []
  | escape : mark ≠ '`' → EndsBody mark ['\\']

variable {mark : Char} {cs written content rest : List Char}

/-! ## The body behind a mark -/

/-- Behind a mark there is a body and its end. -/
theorem exists_body (mark : Char) (cs : List Char) :
    ∃ written content rest, cs = written ++ rest ∧ Body mark written content ∧
      EndsBody mark rest := by
  fun_induction readText mark cs with
  | case1 =>
    exact ⟨[], [], [], rfl, .nil, .source⟩
  | case2 cs =>
    exact ⟨[], [], mark :: cs, rfl, .nil, .mark cs⟩
  | case3 c hmark hescape =>
    obtain ⟨rfl, hquote⟩ := hescape
    exact ⟨[], [], ['\\'], rfl, .nil, .escape hquote⟩
  | case4 c hmark hescape d ds ih =>
    obtain ⟨rfl, hquote⟩ := hescape
    obtain ⟨written, content, rest, rfl, hbody, hend⟩ := ih
    exact ⟨'\\' :: d :: written, unescape d :: content, rest, rfl, .escape hquote hbody, hend⟩
  | case5 c cs hmark hescape ih =>
    obtain ⟨written, content, rest, rfl, hbody, hend⟩ := ih
    refine ⟨c :: written, c :: content, rest, rfl, .plain hmark ?_ hbody, hend⟩
    by_cases hback : c = '\\'
    · exact Or.inr (by_contra fun hquote => hescape ⟨hback, hquote⟩)
    · exact Or.inl hback

/-! ## Reading a body -/

/-- What is read behind a body that is written in `width` characters. -/
def TextBody.behind (content : List Char) (width : Nat) : TextBody → TextBody
  | .closed content' length => .closed (content ++ content') (width + length)
  | .unclosed escapeAt => .unclosed (escapeAt.map (width + ·))

theorem TextBody.behind_nil (body : TextBody) : body.behind [] 0 = body := by
  cases body with
  | closed content length =>
    simp [behind]
  | unclosed escapeAt =>
    cases escapeAt <;> simp [behind]

theorem TextBody.cons_behind (c : Char) (width : Nat) (content : List Char) (length : Nat)
    (body : TextBody) :
    (body.behind content length).cons c width = body.behind (c :: content) (width + length) := by
  cases body with
  | closed content' length' =>
    simp [behind, cons, Nat.add_assoc]
  | unclosed escapeAt =>
    cases escapeAt <;> simp [behind, cons, Nat.add_assoc]

/-- The marks between which a backslash begins an escape. -/
theorem isMark_iff : IsMark mark ↔ isQuote mark = true ∧ mark ≠ '`' := by
  constructor
  · rintro (rfl | rfl) <;> decide
  · rintro ⟨hmark, hquote⟩
    simpa [isQuote, hquote, IsMark] using hmark

/-- A mark is no backslash. -/
theorem ne_backslash_of_isQuote (hmark : isQuote mark = true) : '\\' ≠ mark := by
  rintro rfl
  exact absurd hmark (by decide)

/-- The reader goes through a body and on with what follows. -/
theorem readText_body (hmark : isQuote mark = true) (h : Body mark written content)
    (rest : List Char) :
    readText mark (written ++ rest) = (readText mark rest).behind content written.length := by
  induction h with
  | nil =>
    exact (TextBody.behind_nil _).symm
  | @plain c written content hne hplain hbody ih =>
    have hread : readText mark (c :: (written ++ rest)) =
        .cons c 1 (readText mark (written ++ rest)) := by
      rw [readText.eq_def]
      refine (if_neg hne).trans (if_neg ?_)
      rintro ⟨hback, hquote⟩
      exact hplain.elim (fun h => h hback) hquote
    rw [List.cons_append, hread, ih, TextBody.cons_behind, List.length_cons, Nat.add_comm 1]
  | @escape c written content hquote hbody ih =>
    have hread := readText_pair (isMark_iff.2 ⟨hmark, hquote⟩) c (written ++ rest)
    have hlength : ('\\' :: c :: written).length = 2 + written.length := by
      rw [List.length_cons, List.length_cons, Nat.add_assoc, Nat.add_comm]
    rw [List.cons_append, List.cons_append, hread, ih, TextBody.cons_behind, hlength]

theorem readText_escape_end (hmark : isQuote mark = true) (hquote : mark ≠ '`') :
    readText mark ['\\'] = .unclosed (some 0) := by
  rw [readText.eq_def]
  exact (if_neg (ne_backslash_of_isQuote hmark)).trans (if_pos ⟨rfl, hquote⟩)

/-- A text is closed by the mark behind its body. -/
theorem readText_eq_closed_iff (hmark : isQuote mark = true) {length : Nat} :
    readText mark cs = .closed content length ↔
      ∃ written more, cs = written ++ mark :: more ∧ Body mark written content ∧
        length = written.length + 1 := by
  constructor
  · intro h
    obtain ⟨written, content', rest, rfl, hbody, hend⟩ := exists_body mark cs
    rw [readText_body hmark hbody] at h
    cases hend with
    | mark more =>
      rw [readText_mark, TextBody.behind, List.append_nil] at h
      cases h
      exact ⟨written, more, rfl, hbody, rfl⟩
    | source =>
      cases h
    | escape hquote =>
      rw [readText_escape_end hmark hquote] at h
      cases h
  · rintro ⟨written, more, rfl, hbody, rfl⟩
    rw [readText_body hmark hbody, readText_mark, TextBody.behind, List.append_nil]

/-- A text is left open where the source text ends behind its body, or behind the backslash of an
escape. -/
theorem readText_eq_unclosed_iff (hmark : isQuote mark = true) {escapeAt : Option Nat} :
    readText mark cs = .unclosed escapeAt ↔
      (∃ content, Body mark cs content ∧ escapeAt = none) ∨
        mark ≠ '`' ∧ ∃ written content, cs = written ++ ['\\'] ∧ Body mark written content ∧
          escapeAt = some written.length := by
  constructor
  · intro h
    obtain ⟨written, content, rest, rfl, hbody, hend⟩ := exists_body mark cs
    rw [readText_body hmark hbody] at h
    cases hend with
    | mark more =>
      rw [readText_mark] at h
      cases h
    | source =>
      cases h
      exact Or.inl ⟨content, by rwa [List.append_nil], rfl⟩
    | escape hquote =>
      rw [readText_escape_end hmark hquote] at h
      cases h
      exact Or.inr ⟨hquote, written, content, rfl, hbody, rfl⟩
  · rintro (⟨content, hbody, rfl⟩ | ⟨hquote, written, content, rfl, hbody, rfl⟩)
    · have hread := readText_body hmark hbody []
      rw [List.append_nil] at hread
      rw [hread]
      rfl
    · rw [readText_body hmark hbody, readText_escape_end hmark hquote]
      rfl

/-! ## Texts as tokens -/

/-- A mark begins neither a number nor a blank. -/
theorem classes_of_isQuote (hmark : isQuote mark = true) :
    isBlank mark = false ∧ isDecimalDigit mark = false ∧ mark ≠ '.' := by
  simp only [isQuote, Bool.or_eq_true, decide_eq_true_eq] at hmark
  rcases hmark with (rfl | rfl) | rfl <;> decide

theorem firstToken_of_isQuote (hmark : isQuote mark = true) (position : Nat) (cs : List Char) :
    firstToken position mark cs =
      match readText mark cs with
      | .closed content length => .ok (⟨.text, String.ofList content, position⟩, length)
      | .unclosed none => .error (.lexical .unterminatedText position)
      | .unclosed (some offset) =>
        .error (.lexical .unterminatedEscape (position + 1 + offset)) := by
  obtain ⟨-, hdigit, hpoint⟩ := classes_of_isQuote hmark
  have hnumber : ¬numberLength (mark :: cs) ≠ 0 :=
    not_not.2 (numberLength_eq_zero hdigit hpoint cs)
  exact (if_neg hnumber).trans (if_pos hmark)

/-- A mark, a body and a mark are a text. -/
theorem firstToken_of_closed (hmark : isQuote mark = true) (h : Body mark written content)
    (position : Nat) (more : List Char) :
    firstToken position mark (written ++ mark :: more) =
      .ok (⟨.text, String.ofList content, position⟩, written.length + 1) := by
  have hread : readText mark (written ++ mark :: more) = .closed content (written.length + 1) :=
    (readText_eq_closed_iff hmark).2 ⟨written, more, rfl, h, rfl⟩
  rw [firstToken_of_isQuote hmark, hread]

/-- No token can be read only behind a mark that opens a text without an end. -/
theorem exists_of_firstToken_error {position : Nat} {c : Char} {e : Error}
    (h : firstToken position c rest = .error e) :
    isQuote c = true ∧ ∃ escapeAt, readText c rest = .unclosed escapeAt := by
  unfold firstToken at h
  dsimp only at h
  split at h
  · cases h
  · split at h
    · rename_i hquote
      split at h
      · cases h
      · rename_i hread
        exact ⟨hquote, none, hread⟩
      · rename_i offset hread
        exact ⟨hquote, some offset, hread⟩
    · split at h <;> cases h

end Token
end Reckon
