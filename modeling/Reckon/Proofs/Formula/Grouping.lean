import Reckon.Proofs.Evaluation.Chain
import Reckon.Proofs.Formula.Padding
import Reckon.Proofs.Formula.Sameness

/-!
# Grouping — brackets within a list leave no trace

A list of values is made by one operator, and a list with symbolic members by another one, which
keeps the members themselves.  Either takes a list to pieces before it puts it into a longer one, so
the members stand in the order of the expressions, and a list is known by its members:

* `Operand.enlisted` — the list that members make;
* `Phrase.gathers_symbolic` — the comma on operands of a compilation puts members behind members;
* `Phrase.brackets_immaterial` — however brackets are put around sub-chains of a list, the list
  evaluates to the same and is compiled to the same sequence, also as the argument of a function.

The not-a-numbers of a sequence are compared with their marks, whether these are written out or not.
-/

namespace Reckon

open Operand

/-! ## Marks of members -/

namespace Value

theorem memberUndefinedCount_append (vs ws : List Value) :
    memberUndefinedCount (vs ++ ws) = memberUndefinedCount vs + memberUndefinedCount ws := by
  induction vs with
  | nil =>
    simp [memberUndefinedCount]
  | cons v vs ih =>
    rw [List.cons_append, memberUndefinedCount, memberUndefinedCount, ih, Nat.add_assoc]

theorem undefinedCount_members {P : CodeText → Prop} {v : Value} (h : v.IsPlain P) :
    memberUndefinedCount v.members = v.undefinedCount := by
  cases h with
  | scalar h =>
    rw [h.members]
    rfl
  | list _ _ =>
    rfl

end Value

namespace Operand

variable {P : CodeText → Prop} {vs ws : List Value} {marks marks' : List (Option Nat)}

theorem ofMember_append {v : Value} (h : v.undefinedCount ≤ marks.length) :
    ofMember v (marks ++ marks') = ofMember v marks := by
  unfold ofMember
  split
  · rfl
  · rfl
  · rw [marked, marked, List.take_append_of_le_length h]

/-- Every member finds its marks where they were. -/
theorem ofMembers_append (h : marks.length = Value.memberUndefinedCount vs) :
    ofMembers (vs ++ ws) (marks ++ marks') = ofMembers vs marks ++ ofMembers ws marks' := by
  induction vs generalizing marks with
  | nil =>
    obtain rfl : marks = [] := List.eq_nil_of_length_eq_zero h
    rfl
  | cons v vs ih =>
    rw [Value.memberUndefinedCount] at h
    have hfirst : v.undefinedCount ≤ marks.length := by omega
    have hrest : (marks.drop v.undefinedCount).length = Value.memberUndefinedCount vs := by
      rw [List.length_drop]
      omega
    rw [List.cons_append, ofMembers, ofMembers, ofMember_append hfirst,
      List.drop_append_of_le_length hfirst, ih hrest, List.cons_append]

theorem padded_marked {v : Value} (h : v.undefinedCount ≤ marks.length) :
    (marked v marks).padded = marked v marks := by
  have hlength : (marks.take v.undefinedCount).length = v.undefinedCount :=
    List.length_take_of_le h
  exact congrArg (fun ms => Operand.atom (.constant v ms)) (Element.marks_of_length hlength)

theorem padded_ofMember {v : Value} (h : v.undefinedCount ≤ marks.length) :
    (ofMember v marks).padded = ofMember v marks := by
  unfold ofMember
  split
  · rfl
  · rfl
  · exact padded_marked h

/-- The members of a list with all its marks have all of theirs. -/
theorem map_padded_ofMembers (h : marks.length = Value.memberUndefinedCount vs) :
    (ofMembers vs marks).map padded = ofMembers vs marks := by
  induction vs generalizing marks with
  | nil =>
    rfl
  | cons v vs ih =>
    rw [Value.memberUndefinedCount] at h
    have hfirst : v.undefinedCount ≤ marks.length := by omega
    have hrest : (marks.drop v.undefinedCount).length = Value.memberUndefinedCount vs := by
      rw [List.length_drop]
      omega
    rw [ofMembers, List.map_cons, padded_ofMember hfirst, ih hrest]

theorem ofMember_scalar {v : Value} (h : v.IsScalar P) : ofMember v marks = marked v marks := by
  cases h <;> rfl

/-- A list is had back from its members. -/
theorem of_ofMembers (hvs : ∀ v ∈ vs, v.IsScalar P)
    (h : marks.length = Value.memberUndefinedCount vs) :
    (ofMembers vs marks).any isSymbolic = false ∧ values (ofMembers vs marks) = vs ∧
      (ofMembers vs marks).flatMap Operand.marks = marks := by
  induction vs generalizing marks with
  | nil =>
    obtain rfl : marks = [] := List.eq_nil_of_length_eq_zero h
    exact ⟨rfl, rfl, rfl⟩
  | cons v vs ih =>
    obtain ⟨hv, hvs⟩ := List.forall_mem_cons.1 hvs
    rw [Value.memberUndefinedCount] at h
    have hfirst : (marks.take v.undefinedCount).length = v.undefinedCount :=
      List.length_take_of_le (by omega)
    have hrest : (marks.drop v.undefinedCount).length = Value.memberUndefinedCount vs := by
      rw [List.length_drop]
      omega
    obtain ⟨hsymbolic, hvalues, hmarks⟩ := ih hvs hrest
    have hown : (marked v marks).marks = marks.take v.undefinedCount :=
      Element.marks_of_length hfirst
    rw [ofMembers, ofMember_scalar hv]
    refine ⟨hsymbolic, ?_, ?_⟩
    · exact congrArg (v :: ·) hvalues
    · rw [List.flatMap_cons, hown, hmarks, List.take_append_drop]

/-! ## Lists and their members -/

/-- The list that members make: a constant, unless one of them is symbolic. -/
def enlisted (ms : List Operand) : Operand :=
  if ms.any isSymbolic then .group ms
  else .atom (.constant (.list (values ms)) (ms.flatMap Operand.marks))

/-- What an operand contributes to a list, with all marks. -/
def parts (a : Operand) : List Operand :=
  a.groupMembers.map padded

theorem marked_list (h : marks.length = Value.memberUndefinedCount vs) :
    marked (.list vs) marks = .atom (.constant (.list vs) marks) :=
  congrArg (fun ms => Operand.atom (.constant (.list vs) ms)) (List.take_of_length_le h.le)

theorem parts_list (h : marks.length = Value.memberUndefinedCount vs) :
    (marked (.list vs) marks).parts = ofMembers vs marks := by
  have hmarks : (Operand.atom (.constant (.list vs) marks)).marks = marks :=
    Element.marks_of_length h
  rw [marked_list h]
  change (ofMembers vs (Operand.atom (.constant (.list vs) marks)).marks).map padded = _
  rw [hmarks, map_padded_ofMembers h]

/-- A constant list is made of its members. -/
theorem padded_list (hvs : ∀ v ∈ vs, v.IsScalar P)
    (h : marks.length = Value.memberUndefinedCount vs) :
    (marked (.list vs) marks).padded = enlisted (marked (.list vs) marks).parts := by
  obtain ⟨hsymbolic, hvalues, hmarks⟩ := of_ofMembers hvs h
  rw [padded_marked (v := .list vs) h.ge, parts_list h, enlisted, hsymbolic, hvalues, hmarks,
    marked_list h]
  rfl

theorem exists_of_value? {a : Operand} (ha : a.Formed plainShape) {v : Value}
    (hv : a.value? = some v) : ∃ marks, a = .atom (.constant v marks) := by
  cases ha with
  | scalar h =>
    cases h with
    | @constant w marks _ _ =>
      cases hv
      exact ⟨marks, rfl⟩
    | marker _ =>
      cases hv
    | deferred _ =>
      cases hv
  | list marks _ =>
    cases hv
    exact ⟨marks, rfl⟩
  | group _ _ _ =>
    cases hv

theorem length_marks {a : Operand} (ha : a.Formed plainShape) {v : Value}
    (hv : a.value? = some v) : a.marks.length = Value.memberUndefinedCount v.members := by
  rw [Value.undefinedCount_members (ha.value? hv)]
  obtain ⟨marks, rfl⟩ := exists_of_value? ha hv
  exact Element.length_marks v marks

theorem parts_of_value {a : Operand} (ha : a.Formed plainShape) {v : Value}
    (hv : a.value? = some v) : a.parts = ofMembers v.members a.marks := by
  have hlength := length_marks ha hv
  obtain ⟨marks, rfl⟩ := exists_of_value? ha hv
  cases ha.value? hv with
  | scalar h =>
    -- a number or a text is its own member
    have hpadded : (Operand.atom (.constant v marks)).padded =
        marked v (Operand.atom (.constant v marks)).marks := by
      rw [← marks_padded]
      refine congrArg (fun ms => Operand.atom (.constant v ms)) ?_
      rw [marks_padded]
      exact (List.take_of_length_le (Element.length_marks v marks).le).symm
    have hmembers : (Operand.atom (.constant v marks)).groupMembers =
        [.atom (.constant v marks)] := by
      cases h <;> rfl
    rw [parts, hmembers, h.members, ofMembers, ofMember_scalar h, ofMembers, ← hpadded]
    rfl
  | list _ _ =>
    exact map_padded_ofMembers hlength

end Operand

namespace Phrase

/-! ## The comma on operands -/

section

variable [Capacity]

theorem comma_of_values {a c : Operand} (ha : a.Formed plainShape) (hc : c.Formed plainShape)
    {v w : Value} (hv : a.value? = some v) (hw : c.value? = some w) :
    ∃ z, Deferral.binary .comma a c = .ok z ∧ z.padded = enlisted z.parts ∧
      z.parts = a.parts ++ c.parts := by
  have hlength := length_marks ha hv
  have hscalars : ∀ u ∈ v.members ++ w.members, u.IsScalar fun _ => True :=
    List.forall_mem_append.2 ⟨(ha.value? hv).members.2, (hc.value? hw).members.2⟩
  have hmarks : (a.marks ++ c.marks).length =
      Value.memberUndefinedCount (v.members ++ w.members) := by
    rw [List.length_append, Value.memberUndefinedCount_append, hlength, length_marks hc hw]
  refine ⟨marked (.list (v.members ++ w.members)) (a.marks ++ c.marks), ?_,
    padded_list hscalars hmarks, ?_⟩
  · rw [Deferral.binary_of_values hv hw, Binary.execute_comma, Except.bind_ok, if_pos rfl]
  · rw [parts_list hmarks, ofMembers_append hlength, parts_of_value ha hv, parts_of_value hc hw]

theorem comma_of_symbolic {a c : Operand} (ha : a.Formed plainShape) (hc : c.Formed plainShape)
    (h : a.value? = none ∨ c.value? = none) :
    ∃ z, Deferral.binary .comma a c = .ok z ∧ z.padded = enlisted z.parts ∧
      z.parts = a.parts ++ c.parts := by
  have hparts : (makeGroup a c).parts = a.parts ++ c.parts := List.map_append
  refine ⟨makeGroup a c, Deferral.binary_of_symbolic h, ?_, hparts⟩
  -- a symbolic member stays symbolic, so there is a group on both sides
  have hsymbolic : (makeGroup a c).parts.any isSymbolic = true := by
    have hgroup := ha.makeGroup hc h
    cases hgroup with
    | scalar h =>
      cases h
    | group _ hmember _ =>
      obtain ⟨m, hm, hs⟩ := hmember
      refine List.any_eq_true.2 ⟨m.padded, List.mem_map_of_mem hm, ?_⟩
      rw [isSymbolic_padded, hs]
  rw [enlisted, hsymbolic]
  exact padded_group _

/-- The comma on operands of a compilation puts members behind members, and lists with the same
members are the same. -/
theorem gathers_symbolic :
    Gathers Semantics.symbolic (Operand.Formed plainShape) parts
      (fun z => z.padded = enlisted z.parts) (fun z z' => z.padded = z'.padded) where
  meaning := holds_of_meaning fun _ =>
    closed_plainShape.keeps (fun _ _ _ => trivial) fun _ => trivial
  comma a c ha hc := by
    by_cases h : a.value? = none ∨ c.value? = none
    · exact comma_of_symbolic ha hc h
    · obtain ⟨v, hv⟩ := Option.ne_none_iff_exists'.1 fun hnone => h (Or.inl hnone)
      obtain ⟨w, hw⟩ := Option.ne_none_iff_exists'.1 fun hnone => h (Or.inr hnone)
      exact comma_of_values ha hc hv hw
  same z z' hz hz' hparts := by
    rw [hz, hz', hparts]

/-! ## Lists of a chain -/

variable {es : List (Phrase .sum)} {t t' : Phrase .listing} {source source' : String}

theorem Chain.meaning_direct (h : Chain es t) (h' : Chain es t') (hlength : 2 ≤ es.length)
    (missing : String → Error) (b : Bindings) :
    t.meaning (.direct missing b) = t'.meaning (.direct missing b) ∧
      ∀ v, t.meaning (.direct missing b) = .ok v → ∃ vs, v = .list vs := by
  rcases h.agree (gathers_direct missing b) h' hlength with
    ⟨e, hz, hz'⟩ | ⟨z, z', hz, hz', hlist, rfl⟩
  · refine ⟨hz.trans hz'.symm, ?_⟩
    intro v hv
    rw [hz] at hv
    cases hv
  · refine ⟨hz.trans hz'.symm, ?_⟩
    intro v hv
    obtain rfl := Except.ok.inj (hz.symm.trans hv)
    exact hlist

theorem Chain.meaning_symbolic (h : Chain es t) (h' : Chain es t') (hlength : 2 ≤ es.length) :
    (t.meaning .symbolic).map padded = (t'.meaning .symbolic).map padded := by
  rcases h.agree gathers_symbolic h' hlength with ⟨e, hz, hz'⟩ | ⟨z, z', hz, hz', _, hsame⟩
  · rw [hz, hz']
  · rw [hz, hz']
    exact congrArg Except.ok hsame

/-- A function of two ways of putting brackets. -/
theorem meaning_called_symbolic
    (hmeaning : (t.meaning .symbolic).map padded = (t'.meaning .symbolic).map padded)
    (f : Function) :
    (t.meaning .symbolic >>= Semantics.symbolic.function f).map padded =
      (t'.meaning .symbolic >>= Semantics.symbolic.function f).map padded := by
  rcases Except.cases_of_map_eq hmeaning with ⟨e, hz, hz'⟩ | ⟨z, z', hz, hz', hsame⟩
  · rw [hz, hz']
  · rw [hz, hz']
    exact Deferral.function_congr f hsame

/-- The elements of a compiled source text, with the marks of constants written out. -/
def compiledElements (source : String) : Except Error (List Element) :=
  (Formula.compile source).map fun f => f.sequence.map Element.padded

theorem Spells.compiledElements_eq (h : Spells source t) :
    compiledElements source = ((t.meaning .symbolic).map padded).map Operand.sequence := by
  have hcompile : Formula.compile source =
      t.meaning .symbolic >>= fun a => .ok { sequence := a.sequence, source } := by
    rw [← h.ofReading]
    rfl
  rw [compiledElements, hcompile]
  cases t.meaning .symbolic with
  | error e =>
    rfl
  | ok a =>
    exact congrArg Except.ok (sequence_padded a).symm

/--
Brackets around sub-chains of a list are immaterial.  Two source texts that differ in such brackets
only evaluate to the same list or the same error under all bindings, and they are compiled to the
same elements or fail with the same error; and so do two calls of a function with such lists.
-/
theorem brackets_immaterial (h : Chain es t) (h' : Chain es t') (hlength : 2 ≤ es.length) :
    (∀ source source', Spells source t → Spells source' t' →
      (∀ b, evaluate source b = evaluate source' b ∧
        ∀ v, evaluate source b = .ok v → ∃ vs, v = .list vs) ∧
      compiledElements source = compiledElements source') ∧
    ∀ f spelling spelling' spells spells' source source',
      Spells source (called f spelling spells t) → Spells source' (called f spelling' spells' t') →
        (∀ b, evaluate source b = evaluate source' b) ∧
          compiledElements source = compiledElements source' := by
  have hsymbolic := h.meaning_symbolic h' hlength
  constructor
  · intro source source' hs hs'
    constructor
    · intro b
      rw [hs.evaluate, hs'.evaluate]
      exact h.meaning_direct h' hlength _ b
    · rw [hs.compiledElements_eq, hs'.compiledElements_eq, hsymbolic]
  · intro f spelling spelling' spells spells' source source' hs hs'
    constructor
    · intro b
      rw [hs.evaluate, hs'.evaluate, meaning_called, meaning_called,
        (h.meaning_direct h' hlength _ b).1]
    · rw [hs.compiledElements_eq, hs'.compiledElements_eq, meaning_called, meaning_called,
        meaning_called_symbolic hsymbolic f]

end

/-- A number as an expression. -/
def numeral (digits : String) : Phrase .sum :=
  .term (.factor (.atom (.number digits)))

/-- A variable as an expression. -/
def reference (name : String) : Phrase .sum :=
  .term (.factor (.atom (.named name)))

/-- Two numbers and a variable, with brackets around the last two and around the first two. -/
theorem brackets_immaterial_of_three :
    (∀ b, evaluate "1,(2,$x)" b = evaluate "(1,2),$x" b) ∧
      compiledElements "1,(2,$x)" = compiledElements "(1,2),$x" ∧
      (∀ b, evaluate "max(1,(2,$x))" b = evaluate "MAX((1,2),$x)" b) ∧
      compiledElements "max(1,(2,$x))" = compiledElements "MAX((1,2),$x)" := by
  have hlast : Chain [numeral "1", numeral "2", reference "x"]
      (.join (.single (numeral "1"))
        (enclosed (.join (.single (numeral "2")) (reference "x")))) :=
    .joinEnclosed (.single _) (by decide) (.join _ (.single _))
  have hfirst : Chain [numeral "1", numeral "2", reference "x"]
      (.join (.single (enclosed (.join (.single (numeral "1")) (numeral "2"))))
        (reference "x")) :=
    .join _ (.enclosed (by decide) (.join _ (.single _)))
  obtain ⟨hlist, hcall⟩ := brackets_immaterial hlast hfirst (by decide)
  obtain ⟨hevaluate, hcompile⟩ := hlist "1,(2,$x)" "(1,2),$x"
    ⟨by decide +kernel, by decide +kernel⟩ ⟨by decide +kernel, by decide +kernel⟩
  obtain ⟨hevaluate', hcompile'⟩ := hcall .max "max" "MAX" (by decide +kernel)
    (by decide +kernel) "max(1,(2,$x))" "MAX((1,2),$x)"
    ⟨by decide +kernel, by decide +kernel⟩ ⟨by decide +kernel, by decide +kernel⟩
  exact ⟨fun b => (hevaluate b).1, hcompile, hevaluate', hcompile'⟩

end Phrase
end Reckon
