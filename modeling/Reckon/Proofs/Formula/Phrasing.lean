import Reckon.Proofs.Evaluation.Phrase
import Reckon.Proofs.Formula.Cause
import Reckon.Proofs.Formula.Writing

/-!
# Phrasing — operands as phrases

A compilation puts brackets where the grammar of expressions asks for them, and nowhere else.  So
the sequence of an operand is a phrase, at the level that its precedence admits; and as nothing is
left to be folded in it, the phrase is compiled to the operand again.

* `CompilesTo` — a sequence is a phrase that is compiled to an operand, and `CompilesTo.sum`,
  `CompilesTo.product`, `CompilesTo.call` — how phrases are put together;
* `Fits` — the levels of the phrase that a sequence with a precedence is;
* `phraseShape`, `closed_phraseShape` — deferred operations are such phrases;
* `Operand.Formed.fits` — and so are all operands of a compilation.
-/

namespace Reckon

open Operand

/-! ## Sequences as phrases -/

section

variable [Capacity]

/-- A sequence whose words are a phrase that is compiled to an operand. -/
def CompilesTo (k : Level) (es : List Element) (a : Operand) : Prop :=
  ∃ t : Phrase k, t.words = es.flatMap Element.words ∧ t.meaning Semantics.symbolic = .ok a

namespace CompilesTo

variable {es es' : List Element} {a c : Operand}

theorem factor (h : CompilesTo .atom es a) : CompilesTo .factor es a := by
  obtain ⟨t, hwords, hmeaning⟩ := h
  exact ⟨.atom t, hwords, hmeaning⟩

theorem term (h : CompilesTo .factor es a) : CompilesTo .term es a := by
  obtain ⟨t, hwords, hmeaning⟩ := h
  exact ⟨.factor t, hwords, hmeaning⟩

theorem sum (h : CompilesTo .term es a) : CompilesTo .sum es a := by
  obtain ⟨t, hwords, hmeaning⟩ := h
  exact ⟨.term t, hwords, hmeaning⟩

theorem listing (h : CompilesTo .sum es a) : CompilesTo .listing es a := by
  obtain ⟨t, hwords, hmeaning⟩ := h
  exact ⟨.single t, hwords, hmeaning⟩

theorem bracket (h : CompilesTo .listing es a) : CompilesTo .atom (bracketed true es) a := by
  obtain ⟨t, hwords, hmeaning⟩ := h
  refine ⟨.group t, ?_, hmeaning⟩
  simp only [Phrase.words, hwords, bracketed, if_true, List.flatMap_cons, List.flatMap_append,
    List.flatMap_nil, List.append_nil]
  rfl

/-- A sum of a sum and a term. -/
theorem add {op : Binary} (hop : op = .add ∨ op = .sub) (ha : CompilesTo .sum es a)
    (hc : CompilesTo .term es' c) {z : Operand} (hz : Deferral.binary op a c = .ok z) :
    CompilesTo .sum (es ++ .operator (.binary op) :: es') z := by
  obtain ⟨t, hwords, hmeaning⟩ := ha
  obtain ⟨t', hwords', hmeaning'⟩ := hc
  refine ⟨.sum t op hop t', ?_, ?_⟩
  · simp only [Phrase.words, hwords, hwords', List.flatMap_append, List.flatMap_cons]
    rfl
  · simp only [Phrase.meaning, Phrase.combine, hmeaning, hmeaning', Except.bind_ok]
    exact hz

/-- A product of a term and a factor. -/
theorem mul {op : Binary} (hop : op = .mul ∨ op = .div ∨ op = .rem) (ha : CompilesTo .term es a)
    (hc : CompilesTo .factor es' c) {z : Operand} (hz : Deferral.binary op a c = .ok z) :
    CompilesTo .term (es ++ .operator (.binary op) :: es') z := by
  obtain ⟨t, hwords, hmeaning⟩ := ha
  obtain ⟨t', hwords', hmeaning'⟩ := hc
  refine ⟨.product t op hop t', ?_, ?_⟩
  · simp only [Phrase.words, hwords, hwords', List.flatMap_append, List.flatMap_cons]
    rfl
  · simp only [Phrase.meaning, Phrase.combine, hmeaning, hmeaning', Except.bind_ok]
    exact hz

/-- One more member of a list. -/
theorem join (ha : CompilesTo .listing es a) (hc : CompilesTo .sum es' c) {z : Operand}
    (hz : Deferral.binary .comma a c = .ok z) :
    CompilesTo .listing (es ++ Element.comma :: es') z := by
  obtain ⟨t, hwords, hmeaning⟩ := ha
  obtain ⟨t', hwords', hmeaning'⟩ := hc
  refine ⟨.join t t', ?_, ?_⟩
  · simp only [Phrase.words, hwords, hwords', List.flatMap_append, List.flatMap_cons]
    rfl
  · simp only [Phrase.meaning, Phrase.combine, hmeaning, hmeaning', Except.bind_ok]
    exact hz

theorem call {f : Function} (ha : CompilesTo .listing es a) {z : Operand}
    (hz : Deferral.function f a = .ok z) : CompilesTo .atom (callSequence (.function f) es) z := by
  obtain ⟨t, hwords, hmeaning⟩ := ha
  refine ⟨.call f f.spelling (Operator.lookup?_spelling (.function f)) t, ?_, ?_⟩
  · simp only [Phrase.words, hwords, callSequence, bracketed, if_true, List.cons_append,
      List.flatMap_cons, List.flatMap_append, List.flatMap_nil, List.append_nil]
    rfl
  · simp only [Phrase.meaning, hmeaning, Except.bind_ok]
    exact hz

end CompilesTo

/-! ## Precedences and levels -/

/-- The levels at which a sequence with a precedence is a phrase that is compiled to an operand. -/
structure Fits (p : Int) (es : List Element) (a : Operand) : Prop where
  listing : CompilesTo .listing es a
  sum : 1 ≤ p → CompilesTo .sum es a
  term : 2 ≤ p → CompilesTo .term es a
  factor : 2 < p → CompilesTo .factor es a

namespace Fits

variable {p : Int} {es : List Element} {a : Operand}

theorem of_factor (p : Int) (h : CompilesTo .factor es a) : Fits p es a where
  listing := h.term.sum.listing
  sum _ := h.term.sum
  term _ := h.term
  factor _ := h

theorem of_term (h : CompilesTo .term es a) : Fits 2 es a where
  listing := h.sum.listing
  sum _ := h.sum
  term _ := h
  factor hp := absurd hp (by decide)

theorem of_sum (h : CompilesTo .sum es a) : Fits 1 es a where
  listing := h.listing
  sum _ := h
  term hp := absurd hp (by decide)
  factor hp := absurd hp (by decide)

/-- A list needs brackets wherever it is no list of arguments. -/
theorem of_listing (h : CompilesTo .listing es a) : Fits (-1) es a where
  listing := h
  sum hp := absurd hp (by decide)
  term hp := absurd hp (by decide)
  factor hp := absurd hp (by decide)

/-- An operand in brackets where they are asked for. -/
theorem operandSequence {k : Level} {wrap : Bool} (h : Fits p a.sequence a)
    (hatom : CompilesTo .atom (bracketed true a.sequence) a →
      CompilesTo k (bracketed true a.sequence) a)
    (hplain : wrap = false → CompilesTo k a.sequence a) :
    CompilesTo k (Operand.operandSequence wrap a) a := by
  cases wrap with
  | true =>
    exact hatom h.listing.bracket
  | false =>
    exact hplain rfl

/-- Two operands with an operator between them, in brackets where its precedence asks for them. -/
theorem binarySequence {a c z : Operand} (ha : Fits a.precedence a.sequence a)
    (hc : Fits c.precedence c.sequence c) {op : Binary} (hop : op ≠ .comma)
    (hz : Deferral.binary op a c = .ok z) :
    Fits op.precedence (Operand.binarySequence a (.binary op) c op.precedence) z := by
  -- the operator is one of a sum or one of a product
  have hcases : (op = .add ∨ op = .sub) ∨ op = .mul ∨ op = .div ∨ op = .rem := by
    cases op <;> simp at hop ⊢
  rcases hcases with hadds | hmultiplies
  · have hprecedence : op.precedence = 1 := by
      rcases hadds with rfl | rfl <;> rfl
    rw [hprecedence]
    refine .of_sum (.add hadds ?_ ?_ hz)
    · refine ha.operandSequence (fun h => h.factor.term.sum) fun hwrap => ha.sum ?_
      have hle := of_decide_eq_false hwrap
      omega
    · refine hc.operandSequence (fun h => h.factor.term) fun hwrap => hc.term ?_
      have hlt := of_decide_eq_false hwrap
      omega
  · have hprecedence : op.precedence = 2 := by
      rcases hmultiplies with rfl | rfl | rfl <;> rfl
    rw [hprecedence]
    refine .of_term (.mul hmultiplies ?_ ?_ hz)
    · refine ha.operandSequence (fun h => h.factor.term) fun hwrap => ha.term ?_
      have hle := of_decide_eq_false hwrap
      omega
    · refine hc.operandSequence (fun h => h.factor) fun hwrap => hc.factor ?_
      have hlt := of_decide_eq_false hwrap
      omega

end Fits

end

/-! ## Members -/

theorem marked_nil (v : Value) : marked v [] = value v :=
  congrArg (fun marks => Operand.atom (.constant v marks)) List.take_nil

/-- Operands that are a single member of a list, with nothing to tell them apart from what is read:
no constant is not-a-number. -/
inductive IsMember : Operand → Prop where
  | symbolic {m : Operand} : m.value? = none → m.groupMembers = [m] → IsMember m
  | number {x : Float} : x.isNaN = false → IsMember (value (.number x))
  | text (s : CodeText) : IsMember (value (.text s))

/-- What commas make of members; a single one is itself. -/
def listed : List Operand → Operand
  | [m] => m
  | ms => if ms.any isSymbolic then .group ms else value (.list (values ms))

section Members

variable {m : Operand} {ms : List Operand}

theorem listed_of_two (h : 2 ≤ ms.length) :
    listed ms = if ms.any isSymbolic then .group ms else value (.list (values ms)) := by
  match ms, h with
  | _ :: _ :: _, _ =>
    rfl

theorem IsMember.groupMembers (h : IsMember m) : m.groupMembers = [m] := by
  cases h with
  | symbolic _ hmembers =>
    exact hmembers
  | number _ =>
    rfl
  | text s =>
    rfl

/-- A member that is not symbolic is a number or a text without marks. -/
theorem IsMember.value (h : IsMember m) (hs : m.isSymbolic = false) :
    ∃ v, m = Operand.value v ∧ v.members = [v] ∧ v.undefinedCount = 0 ∧ ofMember v [] = m := by
  cases h with
  | symbolic hnone _ =>
    rw [isSymbolic_iff.2 hnone] at hs
    cases hs
  | @number x hx =>
    have hcount : (Value.number x).undefinedCount = 0 := by
      rw [Value.undefinedCount, hx]
      rfl
    exact ⟨_, rfl, rfl, hcount, marked_nil _⟩
  | text s =>
    exact ⟨_, rfl, rfl, rfl, rfl⟩

/-- Members with values are had back from the list of their values. -/
theorem ofMembers_values (hms : ∀ m ∈ ms, IsMember m) (hs : ms.any isSymbolic = false) :
    ofMembers (values ms) [] = ms ∧ Value.memberUndefinedCount (values ms) = 0 := by
  induction ms with
  | nil =>
    exact ⟨rfl, rfl⟩
  | cons m ms ih =>
    rw [List.any_cons, Bool.or_eq_false_iff] at hs
    obtain ⟨hm, hms⟩ := List.forall_mem_cons.1 hms
    obtain ⟨hvalues, hcount⟩ := ih hms hs.2
    obtain ⟨v, rfl, -, hv, hmember⟩ := hm.value hs.1
    have hcons : values (Operand.value v :: ms) = v :: values ms := rfl
    rw [hcons]
    constructor
    · rw [ofMembers, hmember, List.drop_nil, hvalues]
    · rw [Value.memberUndefinedCount, hv, hcount]

/-- A list contributes its members to a longer one. -/
theorem groupMembers_listed (hne : ms ≠ []) (hms : ∀ m ∈ ms, IsMember m) :
    (listed ms).groupMembers = ms := by
  match ms, hne with
  | [m], _ =>
    exact (hms m (by simp)).groupMembers
  | m :: n :: ms, _ =>
    rw [listed_of_two (by simp)]
    cases hs : (m :: n :: ms).any isSymbolic with
    | true =>
      rfl
    | false =>
      obtain ⟨hvalues, hcount⟩ := ofMembers_values hms hs
      have hmarks : (Operand.value (.list (values (m :: n :: ms)))).marks = [] := by
        simp only [Operand.marks, Element.marks, Value.undefinedCount, hcount, List.take_zero]
      simp only [groupMembers, Operand.value?, Element.value?]
      exact (congrArg (ofMembers _) hmarks).trans hvalues

theorem isSymbolic_listed (hne : ms ≠ []) : (listed ms).isSymbolic = ms.any isSymbolic := by
  match ms, hne with
  | [m], _ =>
    simp [listed]
  | m :: n :: ms, _ =>
    rw [listed_of_two (by simp)]
    cases hs : (m :: n :: ms).any isSymbolic <;> rfl

/-- Members with values make a value. -/
theorem value_listed (hne : ms ≠ []) (hms : ∀ m ∈ ms, IsMember m)
    (hs : ms.any isSymbolic = false) :
    ∃ v, (listed ms).value? = some v ∧ v.members = values ms := by
  match ms, hne with
  | [m], _ =>
    rw [List.any_cons, List.any_nil, Bool.or_false] at hs
    obtain ⟨v, rfl, hmembers, -, -⟩ := (hms m (by simp)).value hs
    exact ⟨v, rfl, hmembers⟩
  | m :: n :: ms, _ =>
    rw [listed_of_two (by simp), hs]
    exact ⟨_, rfl, rfl⟩

variable [Capacity]

/-- A comma puts one more member behind the others. -/
theorem binary_comma_listed (hne : ms ≠ []) (hms : ∀ m ∈ ms, IsMember m) {n : Operand}
    (hn : IsMember n) : Deferral.binary .comma (listed ms) n = .ok (listed (ms ++ [n])) := by
  have hpos := List.length_pos_iff.2 hne
  have hall : ∀ m ∈ ms ++ [n], IsMember m :=
    List.forall_mem_append.2 ⟨hms, List.forall_mem_singleton.2 hn⟩
  have hlength : 2 ≤ (ms ++ [n]).length := by
    rw [List.length_append, List.length_singleton]
    omega
  have hany : (ms ++ [n]).any isSymbolic = ((listed ms).isSymbolic || n.isSymbolic) := by
    rw [isSymbolic_listed hne, List.any_append, List.any_cons, List.any_nil, Bool.or_false]
  rw [listed_of_two hlength, hany]
  cases hs : (listed ms).isSymbolic || n.isSymbolic with
  | true =>
    -- one symbolic member is enough for a group
    have hnone : (listed ms).value? = none ∨ n.value? = none := by
      rw [Bool.or_eq_true] at hs
      exact hs.imp isSymbolic_iff.1 isSymbolic_iff.1
    rw [Deferral.binary_of_symbolic hnone]
    change Except.ok (makeGroup (listed ms) n) = _
    rw [makeGroup, groupMembers_listed hne hms, hn.groupMembers]
    rfl
  | false =>
    have hboth := Bool.or_eq_false_iff.1 hs
    have hnone : ms.any isSymbolic = false := (isSymbolic_listed hne).symm.trans hboth.1
    obtain ⟨v, hv, hmembers⟩ := value_listed hne hms hnone
    obtain ⟨w, rfl, hw, -, -⟩ := hn.value hboth.2
    have hcount := (ofMembers_values hall (hany.trans hs)).2
    have hvalues : values (ms ++ [Operand.value w]) = values ms ++ [w] := List.filterMap_append
    rw [hvalues] at hcount ⊢
    rw [Deferral.binary_of_values hv rfl, Binary.execute_comma, hmembers, hw, Except.bind_ok,
      marked, Value.undefinedCount, hcount, List.take_zero]
    rfl

/-- Commas group from the left, so the members are joined one by one. -/
theorem CompilesTo.members {es : List Element} {front : List Operand} (hne : front ≠ [])
    (hfront : ∀ m ∈ front, IsMember m) (h : CompilesTo .listing es (listed front))
    (hms : ∀ m ∈ ms, IsMember m ∧ CompilesTo .sum m.sequence m) :
    CompilesTo .listing (es ++ ms.flatMap fun m => Element.comma :: m.sequence)
      (listed (front ++ ms)) := by
  -- `front` are the members that have been joined so far, and `es` is how they are written
  induction ms generalizing es front with
  | nil =>
    simpa using h
  | cons n ms ih =>
    obtain ⟨⟨hn, hsequence⟩, hms⟩ := List.forall_mem_cons.1 hms
    have hjoin := h.join hsequence (binary_comma_listed hne hfront hn)
    have hfront' : ∀ m ∈ front ++ [n], IsMember m :=
      List.forall_mem_append.2 ⟨hfront, List.forall_mem_singleton.2 hn⟩
    have hrest := ih (by simp) hfront' hjoin hms
    simpa using hrest

/-- The members of a group, separated by commas, are compiled to the group. -/
theorem CompilesTo.group (hlength : 2 ≤ ms.length) (hsymbolic : ∃ m ∈ ms, m.isSymbolic = true)
    (hms : ∀ m ∈ ms, IsMember m ∧ m.member = m.sequence ∧ CompilesTo .sum m.sequence m) :
    CompilesTo .listing (joinMembers ms) (.group ms) := by
  have hlisted : listed ms = .group ms := by
    rw [listed_of_two hlength, List.any_eq_true.2 hsymbolic]
    rfl
  cases ms with
  | nil =>
    cases hlength
  | cons m ms =>
    obtain ⟨⟨hm, hmember, hsequence⟩, hms⟩ := List.forall_mem_cons.1 hms
    have hfirst : ∀ n ∈ [m], IsMember n := List.forall_mem_singleton.2 hm
    have hjoin := CompilesTo.members (List.cons_ne_nil m []) hfirst hsequence.listing
      fun n hn => ⟨(hms n hn).1, (hms n hn).2.2⟩
    rw [List.singleton_append, hlisted] at hjoin
    rw [joinMembers_cons hmember fun n hn => (hms n hn).2.1]
    exact hjoin

end Members

/-! ## Operands as phrases -/

variable [Capacity]

/-- Variables whose names are names, and deferred operations that are phrases if their constants are
had back from their texts. -/
def phraseShape : Shape where
  Text _ := True
  Marker := Token.IsName
  Deferred es origin p :=
    1 ≤ p ∧ (∀ name, .marker name ∈ es → Token.IsName name) ∧
      ((∀ e ∈ es, e.isPresentable = true) → Fits p es (.deferred es origin p))

namespace Operand

variable {a : Operand}

/-- A finite number is a numeral, or the opposite of one. -/
theorem compilesTo_number {x : Float} (h : x.isFinite = true) :
    CompilesTo .factor [.constant (.number x) []] (value (.number x)) := by
  obtain ⟨n, hread, -, hwords⟩ := Element.exists_numberWords h
  have hwords' : [Element.constant (.number x) []].flatMap Element.words = Element.numberWords x :=
    List.append_nil _
  have hnumeral : (Phrase.number (String.ofList n.characters)).meaning Semantics.symbolic =
      .ok (value (.number n.double)) := by
    rw [Phrase.meaning, n.value_characters]
    rfl
  cases hsign : Double.isNegative x with
  | true =>
    rw [hsign] at hread hwords
    refine ⟨.minus (.atom (.number (String.ofList n.characters))), ?_, ?_⟩
    · rw [hwords', hwords]
      rfl
    · have hopposite : Deferral.function .opp (value (.number n.double)) =
          .ok (marked (.number (-n.double)) []) := rfl
      have hx : -n.double = x := hread
      rw [marked_nil, hx] at hopposite
      rw [Phrase.meaning, Phrase.meaning, hnumeral]
      exact hopposite
  | false =>
    rw [hsign] at hread hwords
    have hx : n.double = x := hread
    refine ⟨.atom (.number (String.ofList n.characters)), ?_, ?_⟩
    · rw [hwords', hwords]
      rfl
    · rw [Phrase.meaning, hnumeral, hx]

/-- A constant that is had back from its text has no marks. -/
theorem compilesTo_constant {v : Value} {marks : List (Option Nat)}
    (hmarks : marks.length ≤ v.undefinedCount)
    (hpresentable : (Element.constant v marks).isPresentable = true) :
    IsMember (.atom (.constant v marks)) ∧
      CompilesTo .factor [.constant v marks] (.atom (.constant v marks)) := by
  cases v with
  | number x =>
    have hnumber : x.isNaN = false := Double.isNaN_of_isFinite hpresentable
    have hnone : marks = [] := by
      rw [Value.undefinedCount, hnumber] at hmarks
      exact List.eq_nil_of_length_eq_zero (Nat.le_zero.1 hmarks)
    subst hnone
    exact ⟨.number hnumber, compilesTo_number hpresentable⟩
  | text t =>
    have hnone : marks = [] := List.eq_nil_of_length_eq_zero (Nat.le_zero.1 hmarks)
    subst hnone
    obtain ⟨s, rfl, -⟩ := Element.exists_of_isPresentable hpresentable
    have hwords : [Element.constant (.text s) []].flatMap Element.words = [(.text, s)] := by
      rw [List.flatMap_singleton, Element.words_text]
    exact ⟨.text s, .factor ⟨.text s, hwords.symm, rfl⟩⟩
  | list vs =>
    cases hpresentable
  | stray s =>
    cases hpresentable

theorem IsScalar.name (h : a.IsScalar phraseShape) {name : String}
    (hname : .marker name ∈ a.sequence) : Token.IsName name := by
  cases h with
  | constant _ _ =>
    cases List.mem_singleton.1 hname
  | marker h =>
    cases List.mem_singleton.1 hname
    exact h
  | deferred h =>
    exact h.2.1 name hname

/-- A scalar is a member of a list, and its sequence is a phrase. -/
theorem IsScalar.fits (h : a.IsScalar phraseShape)
    (hpresentable : ∀ e ∈ a.sequence, e.isPresentable = true) :
    IsMember a ∧ Fits a.precedence a.sequence a := by
  cases h with
  | constant _ hmarks =>
    obtain ⟨hmember, hfactor⟩ := compilesTo_constant hmarks (hpresentable _ List.mem_cons_self)
    exact ⟨hmember, .of_factor _ hfactor⟩
  | @marker name hname =>
    have hisName : Token.IsName name := hname
    have hnamed : CompilesTo .atom [.marker name] (.marker name) :=
      ⟨.named name, rfl, Semantics.resolve_symbolic hisName.ne_empty⟩
    exact ⟨.symbolic rfl rfl, .of_factor _ hnamed.factor⟩
  | deferred h =>
    exact ⟨.symbolic rfl rfl, h.2.2 hpresentable⟩

theorem IsScalar.one_le_precedence (h : a.IsScalar phraseShape) : 1 ≤ a.precedence := by
  have hatomic : 1 ≤ atomicPrecedence := by decide
  cases h with
  | constant _ _ =>
    exact hatomic
  | marker _ =>
    exact hatomic
  | deferred h =>
    exact h.1

theorem compilesTo_joinMembers {ms : List Operand} (hlength : 2 ≤ ms.length)
    (hsymbolic : ∃ m ∈ ms, m.isSymbolic = true) (hms : ∀ m ∈ ms, m.IsScalar phraseShape)
    (hpresentable : ∀ e ∈ joinMembers ms, e.isPresentable = true) :
    CompilesTo .listing (joinMembers ms) (.group ms) := by
  refine .group hlength hsymbolic ?_
  intro m hm
  obtain ⟨hmember, hfits⟩ := (hms m hm).fits
    fun e he => hpresentable e ((infix_joinMembers hm).subset he)
  exact ⟨hmember, (hms m hm).member_eq_sequence And.left, hfits.sum (hms m hm).one_le_precedence⟩

theorem Formed.name (h : a.Formed phraseShape) {name : String}
    (hname : .marker name ∈ a.sequence) : Token.IsName name := by
  cases h with
  | scalar h =>
    exact h.name hname
  | list marks _ =>
    cases List.mem_singleton.1 hname
  | group _ _ h =>
    rcases mem_joinMembers hname with ⟨m, hm, hmem⟩ | ⟨op, hop⟩
    · exact (h m hm).name hmem
    · cases hop

/-- The sequence of an operand is a phrase that is compiled to the operand. -/
theorem Formed.fits (h : a.Formed phraseShape)
    (hpresentable : ∀ e ∈ a.sequence, e.isPresentable = true) :
    Fits a.precedence a.sequence a := by
  cases h with
  | scalar h =>
    exact (h.fits hpresentable).2
  | list marks _ =>
    -- a list is not had back from its text
    have hlist := hpresentable _ (List.mem_singleton_self _)
    cases hlist
  | group hlength hsymbolic h =>
    exact .of_listing (compilesTo_joinMembers hlength hsymbolic h hpresentable)

end Operand

/-- Deferring an operator on phrases makes a phrase. -/
theorem closed_phraseShape : phraseShape.Closed where
  text _ _ := trivial
  combine := by
    intro op a c hop ha hc hbinary
    have hpositive : 1 ≤ op.precedence := by
      cases op <;> simp [Binary.precedence] at hop ⊢
    refine ⟨hpositive, ?_, ?_⟩
    · intro name hname
      rcases mem_binarySequence hname with hname | hname | ⟨op, hop⟩
      · exact ha.name hname
      · exact hc.name hname
      · cases hop
    · intro hpresentable
      obtain ⟨hleft, hright⟩ := infix_binarySequence a (.binary op) c op.precedence
      have ha' := ha.fits fun e he => hpresentable e (hleft.subset he)
      have hc' := hc.fits fun e he => hpresentable e (hright.subset he)
      exact ha'.binarySequence hc' hop hbinary
  call := by
    intro f a ha hnone
    refine ⟨by decide, ?_, ?_⟩
    · intro name hname
      rcases mem_callSequence hname with hname | ⟨op, hop⟩
      · exact ha.name hname
      · cases hop
    · intro hpresentable
      have ha' := (ha.fits fun e he =>
        hpresentable e ((infix_callSequence _ _).subset he)).2
      have hcall := (Deferral.function_of_symbolic hnone).trans (ha.deferCall f)
      exact .of_factor _ (ha'.listing.call hcall).factor
  callGroup := by
    intro f ms hlength hsymbolic hms hfold
    refine ⟨by decide, ?_, ?_⟩
    · intro name hname
      rcases mem_callSequence hname with hname | ⟨op, hop⟩
      · rcases mem_joinMembers hname with ⟨m, hm, hname⟩ | ⟨op, hop⟩
        · exact (hms m hm).name hname
        · cases hop
      · cases hop
    · intro hpresentable
      have hmembers := compilesTo_joinMembers hlength hsymbolic hms
        fun e he => hpresentable e ((infix_callSequence _ _).subset he)
      have hcall : Deferral.function f (.group ms) =
          .ok (Deferral.call (.function f) (joinMembers ms) ms) := by
        rw [Deferral.function_of_symbolic rfl, Deferral.deferCall, hfold]
        rfl
      exact .of_factor _ (hmembers.call hcall).factor

end Reckon
