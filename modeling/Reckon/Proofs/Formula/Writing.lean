import Reckon.Formula.Element
import Reckon.Proofs.Token.Layout
import Reckon.Proofs.Token.Spelling

/-!
# Writing — the words of a written sequence

A sequence is written element by element.  Every element but a negative number is a word or two by
itself, and a negative number is a minus and its absolute value; what stands between two elements
keeps their words apart.  So the words of a sequence are had back from its text.

* `Element.isPresentable` — elements whose text is read back;
* `Element.words` — the words that an element is read as;
* `Element.lex_render` — the words of a written sequence.
-/

namespace Reckon
namespace Element

open Token

/-- Whether an element is an operator, a marker, or a constant whose text is read back: a finite
number, or a text of characters that are written as they are or by a letter behind a backslash. -/
def isPresentable : Element → Bool
  | .constant (.number x) _ => x.isFinite
  | .constant (.text t) _ => t.unicode?.any fun s => s.toList.all isWritable
  | .constant _ _ => false
  | _ => true

/-- The words of a number; a minus is a word of its own. -/
def numberWords (x : Float) : List (TokenKind × String) :=
  match NumberFormat.plain.characters x with
  | '-' :: cs => [(.symbol, Binary.sub.spelling), (.number, String.ofList cs)]
  | cs => [(.number, String.ofList cs)]

/-- The words that an element is read as. -/
def words : Element → List (TokenKind × String)
  | .operator (.function f) => [(.name, f.spelling)]
  | .operator op => [(.symbol, op.spelling)]
  | .constant (.number x) _ => numberWords x
  | .constant (.text t) _ => t.unicode?.toList.map fun s => (.text, s)
  | .constant _ _ => []
  | .marker name => [(.symbol, variableMarker), (.name, name)]

/-- A text that is read back has characters only. -/
theorem exists_of_isPresentable {t : CodeText} {marks : List (Option Nat)}
    (h : (constant (.text t) marks).isPresentable = true) :
    ∃ s : String, t = s ∧ ∀ c ∈ s.toList, isWritable c = true := by
  rw [isPresentable, Option.any_eq_true] at h
  obtain ⟨s, hs, hall⟩ := h
  exact ⟨s, CodeText.unicode?_eq_some_iff.1 hs, List.all_eq_true.1 hall⟩

theorem words_text (s : String) (marks : List (Option Nat)) :
    (constant (.text s) marks).words = [(.text, s)] := by
  rw [words, CodeText.unicode?_ofString]
  rfl

/-- The words of a finite number are a numeral, with a minus in front of it if it is negative, and
the number is had back from them. -/
theorem exists_numberWords {x : Float} (h : x.isFinite = true) :
    ∃ n : Numeral, Double.signed (Double.isNegative x) n.double = x ∧
      NumberFormat.plain.characters x =
        (if Double.isNegative x then '-' :: n.characters else n.characters) ∧
      numberWords x =
        (if Double.isNegative x then [(.symbol, Binary.sub.spelling)] else []) ++
          [(.number, String.ofList n.characters)] := by
  obtain ⟨n, hcharacters, hread⟩ := NumberFormat.exists_numeral_of_isFinite .plain h
  refine ⟨n, hread, hcharacters, ?_⟩
  unfold numberWords
  rw [hcharacters]
  cases Double.isNegative x with
  | true =>
    rfl
  | false =>
    -- a numeral does not begin with a minus
    obtain ⟨c, cs, hcs, -⟩ := n.exists_head
    have hminus := (n.head_ne_sign (congrArg List.head? hcs)).1
    simp [hcs, hminus]

/-! ## What stands between elements -/

/-- What may stand behind an element: something that continues neither a name nor a number. -/
def Follows (rest : List Char) : Prop :=
  ∀ c, rest.head? = some c → c ∈ [' ', ')', ',', '(']

theorem Follows.stops {rest : List Char} (h : Follows rest) : Numeral.Stops rest := by
  intro c hc
  have hall : ∀ c ∈ [' ', ')', ',', '('], isNumeralCharacter c = false ∧
      Literal.radix? c = none := by
    simp only [List.mem_cons, List.not_mem_nil, or_false, forall_eq_or_imp, forall_eq]
    decide
  exact hall c (h c hc)

theorem Follows.endsName {rest : List Char} (h : Follows rest) : EndsName rest := by
  intro c hc
  have hall : ∀ c ∈ [' ', ')', ',', '('], isNameCharacter c = false := by
    simp only [List.mem_cons, List.not_mem_nil, or_false, forall_eq_or_imp, forall_eq]
    decide
  exact hall c (h c hc)

/-- Only behind an opening bracket anything may follow. -/
theorem follows_renderAfter {previous : Element} (h : previous ≠ leftBracket) (es : List Element) :
    Follows (renderAfter previous es).toList := by
  intro c hc
  cases es with
  | nil =>
    cases hc
  | cons e es =>
    rw [renderAfter, String.append_assoc, String.toList_append] at hc
    by_cases htight : isTight previous e = true
    · rw [if_pos htight, String.toList_append] at hc
      -- a closing bracket, a comma, or the bracket of a call
      unfold isTight at htight
      split at htight
      · exact absurd rfl h
      · cases hc
        decide
      · cases hc
        decide
      · cases hc
        decide
      · cases htight
    · rw [if_neg htight] at hc
      cases hc
      decide

/-! ## Reading what is written -/

theorem isName_spelling (f : Function) : IsName f.spelling := by
  cases f <;> exact isName_of_all (by decide) (by decide)

variable {rest : List Char} {ws : List (TokenKind × String)}

theorem spells_operator (op : Operator) (hrest : .operator op = leftBracket ∨ Follows rest)
    (h : Spells rest ws) :
    Spells ((text (.operator op)).toList ++ rest) (words (.operator op) ++ ws) := by
  cases op with
  | function f =>
    rcases hrest with hrest | hrest
    · cases hrest
    · exact h.name hrest.endsName (isName_spelling f)
  | binary op =>
    cases op <;> exact h.symbol (by decide)
  | bracket side =>
    cases side <;> exact h.symbol (by decide)

theorem spells_number {x : Float} (hx : x.isFinite = true) (hrest : Follows rest)
    (h : Spells rest ws) :
    Spells (NumberFormat.plain.characters x ++ rest) (numberWords x ++ ws) := by
  obtain ⟨n, -, hcharacters, hwords⟩ := exists_numberWords hx
  have hnumeral := h.numeral hrest.stops n
  rw [hcharacters, hwords]
  cases Double.isNegative x with
  | true =>
    exact hnumeral.symbol (by decide)
  | false =>
    exact hnumeral

/-- An element in front of others is read as its words, if it ends where they begin. -/
theorem spells_text {e : Element} (he : e.isPresentable = true)
    (hname : ∀ name, e = .marker name → IsName name) (hrest : e = leftBracket ∨ Follows rest)
    (h : Spells rest ws) : Spells (e.text.toList ++ rest) (e.words ++ ws) := by
  cases e with
  | operator op =>
    exact spells_operator op hrest h
  | constant v marks =>
    have hfollows : Follows rest := hrest.resolve_left (by rintro ⟨⟩)
    cases v with
    | number x =>
      have hspells := spells_number he hfollows h
      rwa [text, Value.literal, NumberFormat.write, String.toList_ofList]
    | text t =>
      obtain ⟨s, rfl, hs⟩ := exists_of_isPresentable he
      rw [words_text]
      exact h.quoted hs
    | list vs =>
      cases he
    | stray s =>
      cases he
  | marker name =>
    have hfollows : Follows rest := hrest.resolve_left (by rintro ⟨⟩)
    have hspells := h.name hfollows.endsName (hname name rfl)
    have hmarked := hspells.symbol (c := '$') (by decide)
    rw [text, String.toList_append]
    exact hmarked

theorem spells_renderAfter {es : List Element} (hes : ∀ e ∈ es, e.isPresentable = true)
    (hnames : ∀ name, .marker name ∈ es → IsName name) (previous : Element) :
    Spells (renderAfter previous es).toList (es.flatMap words) := by
  induction es generalizing previous with
  | nil =>
    exact spells_nil
  | cons e es ih =>
    obtain ⟨he, hes⟩ := List.forall_mem_cons.1 hes
    have hname : ∀ name, e = .marker name → IsName name := by
      intro name hname
      exact hnames name (by simp [hname])
    have hspells := ih hes (fun name hmem => hnames name (List.mem_cons_of_mem e hmem)) e
    have hrest : e = leftBracket ∨ Follows (renderAfter e es).toList := by
      by_cases hleft : e = leftBracket
      · exact Or.inl hleft
      · exact Or.inr (follows_renderAfter hleft es)
    have htext := spells_text he hname hrest hspells
    rw [renderAfter, String.append_assoc, String.toList_append, String.toList_append,
      List.flatMap_cons]
    -- the space between two elements is no part of their words
    by_cases htight : isTight previous e = true
    · rw [if_pos htight]
      exact htext
    · rw [if_neg htight]
      exact htext.blank (by decide)

/-- The words of a written sequence are the words of its elements. -/
theorem lex_render {es : List Element} (hes : ∀ e ∈ es, e.isPresentable = true)
    (hnames : ∀ name, .marker name ∈ es → IsName name) :
    ∃ ts, lex (render es) = ⟨ts, none⟩ ∧ ts.map word = es.flatMap words := by
  refine Spells.lex ?_
  -- the first element stands as it would behind an opening bracket
  cases es with
  | nil =>
    exact spells_nil
  | cons e es =>
    have hspells := spells_renderAfter hes hnames leftBracket
    exact hspells

end Element
end Reckon
