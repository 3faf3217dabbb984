import Reckon.Proofs.Formula.Domain
import Reckon.Proofs.Formula.Printing
import Reckon.Proofs.Text.Literal

/-!
# Listing — a formula can be told from its listing

The listing of a formula shows one element on each line, its variables behind them, and nothing is
lost by it: a text may look like anything that occurs in a listing, but it is quoted, so that it
stays on its line and ends where its mark says.

* `Text.lines` — the lines of a text, and `Text.lines_intercalate` — they are what was put together;
* `Formula.IsListable` — what is known of the elements of compiled formulas;
* `Formula.elementLine_inj` — an element is known by its line;
* `Formula.listing_lossless` — formulas with the same listing have the same elements and variables.
-/

namespace Reckon

open Text

/-! ## Lines -/

namespace Text

/-- The lines of a text, whatever they end with. -/
def lines (s : String) : List String :=
  (s.toList.splitOnP isLineBreak).map String.ofList

theorem splitOnP_intercalate {ls : List (List Char)} (hls : ls ≠ []) (h : ∀ l ∈ ls, OneLine l) :
    (['\n'].intercalate ls).splitOnP isLineBreak = ls := by
  induction ls with
  | nil => exact absurd rfl hls
  | cons l ls ih =>
    obtain ⟨hl, hrest⟩ := List.forall_mem_cons.1 h
    cases ls with
    | nil => rw [List.intercalate_singleton, List.splitOnP_eq_singleton hl]
    | cons l' ls =>
      -- the first line feed is the one behind the first line
      have htail := ih (List.cons_ne_nil l' ls) hrest
      rw [List.intercalate_cons_cons, List.append_assoc, List.singleton_append,
        List.splitOnP_append_cons_of_forall_mem hl '\n' (by decide), htail]

/-- Lines that are put together with line feeds are had back. -/
theorem lines_intercalate {ls : List String} (hls : ls ≠ []) (h : ∀ l ∈ ls, OneLine l.toList) :
    lines ("\n".intercalate ls) = ls := by
  have hsplit : (['\n'].intercalate (ls.map String.toList)).splitOnP isLineBreak =
      ls.map String.toList := by
    refine splitOnP_intercalate (by simpa using hls) ?_
    simpa using h
  have hfeed : "\n".toList = ['\n'] := rfl
  rw [lines, String.toList_intercalate, hfeed, hsplit, List.map_map]
  simp

theorem oneLine_of_isDigit {cs : List Char} (h : ∀ c ∈ cs, c.isDigit = true) : OneLine cs :=
  fun c hc =>
    isLineBreak_of_isBlank (isBlank_of_isDecimalDigit (isDecimalDigit_of_isDigit (h c hc)))

end Text

/-- A name has no place for the end of a line. -/
theorem Token.IsName.oneLine {name : String} (h : Token.IsName name) : OneLine name.toList := by
  obtain ⟨c, cs, rfl, hc, hcs⟩ := h
  have hletter : ∀ {c}, Token.isLetter c = true → isLineBreak c = false := fun h =>
    isLineBreak_of_isBlank (Token.classes_of_isLetter h).1
  rw [String.toList_ofList, oneLine_cons]
  refine ⟨hletter hc, fun x hx => ?_⟩
  have hx := hcs x hx
  rw [Token.isNameCharacter, Bool.or_eq_true] at hx
  rcases hx with h | h
  · exact hletter h
  · exact isLineBreak_of_isBlank (isBlank_of_isDecimalDigit (isDecimalDigit_of_isDigit h))

namespace Operator

/-- Operators are told apart by their spellings. -/
theorem spelling_inj {op op' : Operator} (h : op.spelling = op'.spelling) : op = op' := by
  have hlookup := lookup?_spelling op
  rw [h, lookup?_spelling op'] at hlookup
  exact (Option.some.inj hlookup).symm

theorem oneLine_spelling (op : Operator) : OneLine op.spelling.toList := by
  have hall : ∀ op ∈ all, OneLine op.spelling.toList := by decide
  exact hall op (mem_all op)

end Operator

namespace Formula

variable {f g : Formula} {e e' : Element}

/-! ## Elements -/

/-- An element that can be told from its line: its constant is a value of the calculator, and its
variable has a name. -/
inductive IsListable : Element → Prop where
  | operator (op : Operator) : IsListable (.operator op)
  | constant {v : Value} (marks : List (Option Nat)) : v.InDomain → IsListable (.constant v marks)
  | marker {name : String} : Token.IsName name → IsListable (.marker name)

theorem isListable_of_compile [Capacity] {source : String} (h : compile source = .ok f) :
    ∀ e ∈ f.sequence, IsListable e := by
  have hcompiled := isCompiled_of_compile h
  intro e he
  cases e with
  | operator op => exact .operator op
  | constant v marks => exact .constant marks (hcompiled.constants he)
  | marker name =>
    obtain ⟨a, ha, hsequence⟩ := hcompiled
    rw [hsequence] at he
    exact .marker ((formed_of_compile ha).name he)

/-- What the line of an element shows behind the number of the line. -/
def entry : Element → List Char
  | .operator op => "OP    ".toList ++ op.spelling.toList
  | .constant v _ => "CONST ".toList ++ v.literal.toList
  | .marker name => "VAR   $".toList ++ name.toList

theorem toList_elementLine (place : Nat) (e : Element) :
    (elementLine place e).toList = NumberFormat.padded 4 place ++ (':' :: ' ' :: entry e) := by
  have hcolon : ": ".toList = [':', ' '] := rfl
  unfold elementLine
  rw [String.toList_append, String.toList_append, lineNumber, String.toList_ofList,
    List.append_assoc, hcolon]
  cases e with
  | operator op =>
    rw [String.toList_append]
    rfl
  | constant v marks =>
    rw [String.toList_append]
    rfl
  | marker name =>
    rw [String.toList_append, Element.text, String.toList_append]
    rfl

/-- An element is known by its entry, up to the marks of not-a-numbers. -/
theorem entry_inj (he : IsListable e) (he' : IsListable e') (h : entry e = entry e') :
    e.unmarked = e'.unmarked := by
  cases he with
  | operator op =>
    cases he' with
    | operator op' =>
      have hspelling := String.toList_inj.1 (List.append_cancel_left h)
      rw [Operator.spelling_inj hspelling]
    | constant marks hv => exact absurd (List.cons.inj h).1 (by decide)
    | marker hname => exact absurd (List.cons.inj h).1 (by decide)
  | constant marks hv =>
    cases he' with
    | operator op => exact absurd (List.cons.inj h).1 (by decide)
    | constant marks' hv' =>
      have hliteral := String.toList_inj.1 (List.append_cancel_left h)
      rw [Value.literal_inj hv hv' hliteral]
      rfl
    | marker hname => exact absurd (List.cons.inj h).1 (by decide)
  | marker hname =>
    cases he' with
    | operator op => exact absurd (List.cons.inj h).1 (by decide)
    | constant marks hv => exact absurd (List.cons.inj h).1 (by decide)
    | marker hname' =>
      have hsame := String.toList_inj.1 (List.append_cancel_left h)
      rw [hsame]

theorem oneLine_elementLine (place : Nat) (he : IsListable e) :
    OneLine (elementLine place e).toList := by
  rw [toList_elementLine, oneLine_append, oneLine_cons, oneLine_cons]
  refine ⟨oneLine_of_isDigit (isDigit_padded 4 place), by decide, by decide, ?_⟩
  cases he with
  | operator op => exact oneLine_append.2 ⟨by decide, op.oneLine_spelling⟩
  | constant marks hv => exact oneLine_append.2 ⟨by decide, Value.oneLine_literal hv⟩
  | marker hname => exact oneLine_append.2 ⟨by decide, hname.oneLine⟩

/-- An element is known by its line, up to the marks of not-a-numbers. -/
theorem elementLine_inj {place : Nat} (he : IsListable e) (he' : IsListable e')
    (h : elementLine place e = elementLine place e') : e.unmarked = e'.unmarked := by
  have htoList := congrArg String.toList h
  rw [toList_elementLine, toList_elementLine] at htoList
  -- the numbers of the lines are the same, and the colons behind them
  have hentry := List.append_cancel_left htoList
  simp only [List.cons.injEq, true_and] at hentry
  exact entry_inj he he' hentry

theorem unmarked_of_elementLines {es es' : List Element} (hes : ∀ e ∈ es, IsListable e)
    (hes' : ∀ e ∈ es', IsListable e) (h : es.mapIdx elementLine = es'.mapIdx elementLine) :
    es.map Element.unmarked = es'.map Element.unmarked := by
  apply List.ext_getElem?
  intro i
  have hline := congrArg (·[i]?) h
  simp only [List.getElem?_mapIdx] at hline
  rw [List.getElem?_map, List.getElem?_map]
  -- either both sequences have an element there, or neither has
  cases he : es[i]? with
  | none =>
    rw [he, Option.map_none, eq_comm, Option.map_eq_none_iff] at hline
    rw [hline]
  | some e =>
    rw [he, Option.map_some, eq_comm, Option.map_eq_some_iff] at hline
    obtain ⟨e', he', hline⟩ := hline
    rw [he', Option.map_some, Option.map_some,
      elementLine_inj (hes _ (List.mem_of_getElem? he)) (hes' _ (List.mem_of_getElem? he'))
        hline.symm]

/-! ## Listings -/

/-- No element has the line between the elements and the variables. -/
theorem elementLine_ne (place : Nat) (e : Element) : elementLine place e ≠ "-- variables --" := by
  intro h
  have htoList := congrArg String.toList h
  rw [toList_elementLine] at htoList
  -- it begins with a digit
  have hne : NumberFormat.padded 4 place ≠ [] := by
    simp [NumberFormat.padded, NumberFormat.decimalDigits, Nat.toDigits_ne_nil]
  obtain ⟨c, cs, hcs⟩ := List.exists_cons_of_ne_nil hne
  have hdigit : c.isDigit = true := isDigit_padded 4 place c (by rw [hcs]; exact List.mem_cons_self)
  rw [hcs] at htoList
  obtain ⟨rfl, -⟩ := List.cons.inj htoList
  cases hdigit

theorem elementLines_of_listing (h : f.listing = g.listing) :
    f.sequence.mapIdx elementLine = g.sequence.mapIdx elementLine := by
  have hends : ∀ es : List Element, ∀ l ∈ es.mapIdx elementLine,
      (l == "-- variables --") = false := by
    intro es l hl
    obtain ⟨i, hi, rfl⟩ := List.mem_mapIdx.1 hl
    exact beq_false_of_ne (elementLine_ne i es[i])
  -- so the first line of this kind is where the elements end
  have hsplit := congrArg (List.splitOnP (· == "-- variables --")) h
  unfold listing at hsplit
  rw [List.splitOnP_append_cons_of_forall_mem (hends _) _ (beq_self_eq_true _),
    List.splitOnP_append_cons_of_forall_mem (hends _) _ (beq_self_eq_true _)] at hsplit
  exact (List.cons.inj hsplit).1

theorem variableNames_of_unmarked
    (h : f.sequence.map Element.unmarked = g.sequence.map Element.unmarked) :
    f.variableNames = g.variableNames := by
  have hmarkers : ∀ es : List Element,
      (es.map Element.unmarked).filterMap Element.marker? = es.filterMap Element.marker? := by
    intro es
    rw [List.filterMap_map]
    congr 1
    funext e
    cases e <;> rfl
  rw [variableNames, variableNames, ← hmarkers f.sequence, h, hmarkers]

theorem oneLine_listing (hf : ∀ e ∈ f.sequence, IsListable e) :
    ∀ l ∈ f.listing, OneLine l.toList := by
  intro l hl
  unfold listing at hl
  rcases List.mem_append.1 hl with hl | hl
  · obtain ⟨i, hi, rfl⟩ := List.mem_mapIdx.1 hl
    exact oneLine_elementLine i (hf _ (List.getElem_mem hi))
  · rcases List.mem_cons.1 hl with rfl | hl
    · decide
    · obtain ⟨i, hi, rfl⟩ := List.mem_mapIdx.1 hl
      have hmem := mem_variableNames.1 (List.getElem_mem hi)
      have hname : Token.IsName f.variableNames[i] := by
        cases hf _ hmem with
        | marker hname => exact hname
      rw [variableLine, String.toList_append, String.toList_append, String.toList_append,
        oneLine_append, oneLine_append, oneLine_append]
      have hplace : OneLine (toString i).toList := by
        rw [Nat.toString_eq_repr, Nat.repr, String.toList_ofList]
        exact oneLine_of_isDigit isDigit_decimalDigits
      exact ⟨⟨⟨by decide, hplace⟩, by decide⟩, hname.oneLine⟩

/-- Compiled formulas with the same listing have the same elements, one by one, and the same
variables; and the lines of a listing are one for each element, one behind them, and one for each
variable. -/
theorem listing_lossless [Capacity] {source source' : String} (hf : compile source = .ok f)
    (hg : compile source' = .ok g) :
    ("\n".intercalate f.listing = "\n".intercalate g.listing →
      f.sequence.map Element.unmarked = g.sequence.map Element.unmarked ∧
        f.variableNames = g.variableNames) ∧
    Text.lines ("\n".intercalate f.listing) =
      f.sequence.mapIdx elementLine ++
        "-- variables --" :: f.variableNames.mapIdx variableLine := by
  have hlines : ∀ {source f}, compile source = .ok f →
      Text.lines ("\n".intercalate f.listing) = f.listing := by
    intro source f hf
    refine Text.lines_intercalate ?_ (oneLine_listing (isListable_of_compile hf))
    simp [listing]
  refine ⟨fun h => ?_, hlines hf⟩
  have hlisting : f.listing = g.listing := by rw [← hlines hf, ← hlines hg, h]
  have hsequence := unmarked_of_elementLines (isListable_of_compile hf) (isListable_of_compile hg)
    (elementLines_of_listing hlisting)
  exact ⟨hsequence, variableNames_of_unmarked hsequence⟩

/-- A text that looks like the end of its line and another line is quoted on one line. -/
theorem listing_lossless_of_imitation :
    ∃ f g, compile "$x + '\\n0003: OP    *'" = .ok f ∧ compile "$x+\"\\n0003: OP    *\"" = .ok g ∧
      (f.sequence.map Element.unmarked = g.sequence.map Element.unmarked ∧
        f.variableNames = g.variableNames) ∧
      Text.lines ("\n".intercalate f.listing) = ["0000: VAR   $x", "0001: OP    +",
        "0002: CONST '\\n0003: OP    *'", "-- variables --", "[0] x"] := by
  let es : List Element :=
    [.marker "x", .operator (.binary .add), .constant (.text "\n0003: OP    *") []]
  have hf : compile "$x + '\\n0003: OP    *'" = .ok ⟨es, "$x + '\\n0003: OP    *'"⟩ := by
    decide +kernel
  have hg : compile "$x+\"\\n0003: OP    *\"" = .ok ⟨es, "$x+\"\\n0003: OP    *\""⟩ := by
    decide +kernel
  obtain ⟨hsame, hlines⟩ := listing_lossless hf hg
  exact ⟨_, _, hf, hg, hsame rfl, hlines.trans (by decide +kernel)⟩

end Formula

end Reckon
