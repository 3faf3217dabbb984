import Reckon.Proofs.Formula.Obtainable
import Reckon.Proofs.Machine.Barrier

/-!
# Representation — what an operand knows of its sequence

A deferred operation keeps an origin and a precedence beside its sequence, and nothing ever compares
them with it.  For the operands that executing operators brings about they are right:

* `Operand.IsRepresented` — operands with the right origins and precedences, and groups of members
  that are no lists;
* `Operand.Obtainable.isRepresented` — obtainable operands are such operands;
* `Operand.Obtainable.exists_joinsExactly` — an operator between two of them stands for the operator
  on their trees, and needs every bracket that it gets.
-/

namespace Reckon

open Machine Operand

/-! ## Calls -/

/-- Inputs behind a barrier do what they do by themselves. -/
theorem Machine.feedAll_within {α : Type} {r : Reducer α} {is : List (Input α)} {s t : State α}
    (h : feedAll r s is = .ok t) (outer : State α) :
    feedAll r (s.within outer) is = .ok (t.within outer) := by
  induction is generalizing s with
  | nil =>
    cases h
    rfl
  | cons i is ih =>
    rw [feedAll_cons] at h ⊢
    obtain ⟨u, hfeed, h⟩ := Except.exists_of_bind_eq_ok h
    have hfirst : feedInput r (s.within outer) i = .ok (u.within outer) := by
      cases i with
      | operator op =>
        exact advance_within hfeed outer
      | operand o =>
        obtain ⟨v, rfl, hu⟩ := Except.exists_of_bind_eq_ok hfeed
        cases hu
        rfl
    rw [hfirst]
    exact ih h

/-- A function with a sequence in brackets is read as a call, if the sequence is read as a tree. -/
theorem Tree.ofSequence_call {es : List Element} {t : Tree} (h : ofSequence es = .ok t)
    (f : Function) : ofSequence (callSequence (.function f) es) = .ok (.call f t) := by
  have hinputs : Interpretation.building.inputs (callSequence (.function f) es) =
      .operator (.function f) :: .operator (.bracket .left) ::
        (Interpretation.building.inputs es ++ [.operator (.bracket .right)]) := by
    simp [Interpretation.inputs, Interpretation.input, callSequence, bracketed,
      Element.leftBracket, Element.rightBracket, Operator.leftBracket, Operator.rightBracket]
  rw [ofSequence, Interpretation.result_replay] at h ⊢
  obtain ⟨s, hfeed, hend⟩ := Except.exists_of_bind_eq_ok h
  have hwithin := feedAll_within hfeed ⟨[], [.function f]⟩
  have hclose := advance_right_within hend ⟨[], [.function f]⟩
  rw [hinputs]
  change (feedAll _ (State.empty.within ⟨[], [.function f]⟩) _ >>= _) = _
  rw [feedAll_append, hwithin, Except.bind_ok, feedAll_singleton, feedInput, hclose]
  rfl

/-! ## Sequences -/

namespace Element

/-- Operators, markers and flat constants. -/
inductive IsFlat : Element → Prop where
  | operator (op : Operator) : IsFlat (.operator op)
  | marker (name : String) : IsFlat (.marker name)
  | constant {v : Value} (marks : List (Option Nat)) : v.IsFlat → IsFlat (.constant v marks)

/-- A single call: a function, and behind it in brackets a sequence that can be read by itself. -/
def IsCall (es : List Element) : Prop :=
  ∃ f argument t, es = callSequence (.function f) argument ∧ Tree.ofSequence argument = .ok t

/-- Every replay that comes to an end executes `op` in its last step. -/
def ExecutesLast (es : List Element) (op : Operator) : Prop :=
  ∀ {α : Type} (i : Interpretation α) {v : α}, (i.replay es).result = .ok v →
    ∃ operands, (i.replay es).steps.getLast? = some (.reduction op operands)

/-- The origin is the only variable; there is none if there are two variables or more. -/
structure IsOrigin (origin : Option String) (es : List Element) : Prop where
  some_iff : ∀ v, origin = some v ↔ ∀ name, .marker name ∈ es ↔ name = v
  none_iff : origin = none ↔ ∃ x y, x ≠ y ∧ .marker x ∈ es ∧ .marker y ∈ es

end Element

open Element

namespace Tree

variable {t : Tree}

theorem marker_mem_sequence {name : String} : .marker name ∈ t.sequence ↔ name ∈ t.markers := by
  rw [← filterMap_sequence, List.mem_filterMap]
  constructor
  · exact fun h => ⟨_, h, rfl⟩
  · rintro ⟨e, he, hname⟩
    rw [marker?_eq_some_iff] at hname
    exact hname ▸ he

theorem isOrigin_ofNames {es : List Element} {names : List String} (hne : names ≠ [])
    (h : ∀ name, .marker name ∈ es ↔ name ∈ names) :
    IsOrigin (Provenance.ofNames names).origin? es where
  some_iff v := by
    rw [Provenance.origin?_eq_some_iff]
    simp only [h]
  none_iff := by
    rw [Provenance.origin?_eq_none_iff hne]
    simp only [h]
    constructor
    · rintro ⟨x, hx, y, hy, hdiffer⟩
      exact ⟨x, y, hdiffer, hx, hy⟩
    · rintro ⟨x, y, hdiffer, hx, hy⟩
      exact ⟨x, hx, y, hy, hdiffer⟩

theorem isFlat_bracketed {wrap : Bool} {es : List Element} (h : ∀ e ∈ es, e.IsFlat) :
    ∀ e ∈ bracketed wrap es, e.IsFlat := by
  cases wrap with
  | false =>
    exact h
  | true =>
    refine List.forall_mem_cons.2 ⟨.operator _, List.forall_mem_append.2 ⟨h, ?_⟩⟩
    exact List.forall_mem_singleton.2 (.operator _)

theorem IsFolded.isFlat_sequence (h : t.IsFolded) : ∀ e ∈ t.sequence, e.IsFlat := by
  induction h with
  | constant marks hflat =>
    exact List.forall_mem_singleton.2 (.constant marks hflat)
  | marker name =>
    exact List.forall_mem_singleton.2 (.marker name)
  | binary _ _ _ iht ihu =>
    exact List.forall_mem_append.2
      ⟨isFlat_bracketed iht, List.forall_mem_cons.2 ⟨.operator _, isFlat_bracketed ihu⟩⟩
  | call _ _ ih =>
    exact List.forall_mem_cons.2 ⟨.operator _, isFlat_bracketed ih⟩

/-- What is written for a tree is a single call if the tree is one. -/
theorem isCall_sequence_iff : IsCall t.sequence ↔ ∃ f u, t = .call f u := by
  constructor
  · rintro ⟨f, argument, u, hes, hargument⟩
    have hcall := ofSequence_call hargument f
    rw [← hes, ofSequence_sequence] at hcall
    exact ⟨f, u, Except.ok.inj hcall⟩
  · rintro ⟨f, u, rfl⟩
    exact ⟨f, u.sequence, u, rfl, ofSequence_sequence u⟩

/-- The operator at the root is executed last. -/
theorem executesLast_binary (op : Binary) (t u : Tree) :
    ExecutesLast (Tree.binary op t u).sequence (.binary op) := by
  intro α i v h
  rw [replay_eq_run (ofSequence_sequence _) i] at h ⊢
  obtain ⟨x, _, h, hsteps⟩ := Traced.exists_of_result_bind h
  obtain ⟨y, _, _, hsteps'⟩ := Traced.exists_of_result_bind h
  refine ⟨[x, y], ?_⟩
  rw [run, hsteps, hsteps', Traced.steps_single, ← List.append_assoc]
  exact List.getLast?_concat

end Tree

/-! ## Operands -/

namespace Operand

/-- The sequence, the origin and the precedence of a deferred operation fit together. -/
structure Describes (es : List Element) (origin : Option String) (p : Int) : Prop where
  reads : ∃ t, Tree.ofSequence es = .ok t
  marker : ∃ name, .marker name ∈ es
  flat : ∀ e ∈ es, e.IsFlat
  origin : IsOrigin origin es
  call : IsCall es → p = atomicPrecedence
  last : ¬IsCall es → ∃ op, ExecutesLast es op ∧ p = op.precedence

/-- Whether an operand is a list, with or without symbolic members. -/
def isList : Operand → Bool
  | .atom (.constant (.list _) _) => true
  | .group _ => true
  | _ => false

/-- Operands that keep nothing beside their elements but what is true of them.  A group has two
members or more, one of them symbolic and none of them a list. -/
inductive IsRepresented : Operand → Prop where
  | marker (name : String) : IsRepresented (.marker name)
  | constant {v : Value} (marks : List (Option Nat)) : v.IsFlat →
    IsRepresented (.atom (.constant v marks))
  | deferred {es : List Element} {origin : Option String} {p : Int} : Describes es origin p →
    IsRepresented (.deferred es origin p)
  | group {members : List Operand} : 2 ≤ members.length →
    (∃ m ∈ members, m.isSymbolic = true) → (∀ m ∈ members, m.isList = false) →
      IsOrigin (Operand.group members).origin? (members.flatMap Operand.sequence) →
        (∀ m ∈ members, m.IsRepresented) → IsRepresented (.group members)

theorem describes_operand {t : Tree} (h : t.IsFolded) (hmarkers : t.markers ≠ [])
    (hlast : IsCall t.sequence ∨ ∃ op u w, t = .binary op u w) :
    Describes t.sequence t.provenance.origin? t.precedence where
  reads := ⟨t, t.ofSequence_sequence⟩
  marker := by
    obtain ⟨name, hname⟩ := List.exists_mem_of_ne_nil _ hmarkers
    exact ⟨name, Tree.marker_mem_sequence.2 hname⟩
  flat := h.isFlat_sequence
  origin := Tree.isOrigin_ofNames hmarkers fun name => Tree.marker_mem_sequence
  call hcall := by
    obtain ⟨f, u, rfl⟩ := Tree.isCall_sequence_iff.1 hcall
    rfl
  last hcall := by
    rcases hlast with hlast | ⟨op, u, w, rfl⟩
    · exact absurd hlast hcall
    · exact ⟨.binary op, Tree.executesLast_binary op u w, rfl⟩

theorem isRepresented_operand {t : Tree} (h : t.IsAlone) : t.operand.IsRepresented := by
  cases t with
  | constant v marks =>
    cases h.folded with
    | constant _ hflat =>
      exact .constant marks hflat
  | marker name =>
    exact .marker name
  | binary op t u =>
    exact .deferred (describes_operand h.folded h.markers_ne_nil (Or.inr ⟨op, t, u, rfl⟩))
  | call f t =>
    have hcall : IsCall (Tree.call f t).sequence := Tree.isCall_sequence_iff.2 ⟨f, t, rfl⟩
    exact .deferred (describes_operand h.folded (h.value?_operand.1 rfl) (Or.inl hcall))

theorem isList_operand {t : Tree} (h : t.IsMember) : t.operand.isList = false := by
  cases t with
  | constant v marks =>
    cases h.scalar rfl <;> rfl
  | marker name =>
    rfl
  | binary op t u =>
    rfl
  | call f t =>
    rfl

theorem isOrigin_operands {ts : List Tree} {origin : Option String}
    (hne : ts.flatMap Tree.markers ≠ [])
    (h : origin = (Provenance.ofNames (ts.flatMap Tree.markers)).origin?) :
    IsOrigin origin ((ts.map Tree.operand).flatMap Operand.sequence) := by
  subst h
  refine Tree.isOrigin_ofNames hne fun name => ?_
  simp only [List.flatMap_map, Tree.sequence_operand, List.mem_flatMap, Tree.marker_mem_sequence]

/-- Whatever is executed, a deferred operation knows the variables of its sequence and the operator
that is executed last, and a group has members that are no lists. -/
theorem Obtainable.isRepresented [Capacity] {a : Operand} (h : a.Obtainable) : a.IsRepresented := by
  obtain ⟨t, hwritten⟩ := h.exists_isWritten
  have horigin := congrArg Provenance.origin? hwritten.provenance
  cases hwritten with
  | alone halone =>
    exact isRepresented_operand halone
  | @group t u ts hmember hmarkers =>
    rw [Tree.provenance, Tree.markers_joined] at horigin
    rw [Tree.markers_joined] at hmarkers
    refine .group (by simp) (exists_symbolic_operand hmember hmarkers) ?_
      (isOrigin_operands hmarkers horigin) ?_
    · intro m hm
      obtain ⟨s, hs, rfl⟩ := List.mem_map.1 hm
      exact isList_operand (hmember s hs)
    · intro m hm
      obtain ⟨s, hs, rfl⟩ := List.mem_map.1 hm
      exact isRepresented_operand (hmember s hs).toIsAlone

/-- A maximum of a group that has a difference among its members. -/
theorem isRepresented_of_maximum :
    (Operand.deferred
      [.operator (.function .max), .operator (.bracket .left), .marker "x",
        .operator (.binary .comma), .marker "x", .operator (.binary .sub), .marker "y",
        .operator (.bracket .right)] none atomicPrecedence).IsRepresented := by
  have hdifference : Obtainable (.deferred [.marker "x", .operator (.binary .sub), .marker "y"]
      none 1) :=
    @Obtainable.binary _ .sub _ _ _ (.marker "x") (.marker "y") rfl
  have hmembers : Obtainable (.group [.marker "x",
      .deferred [.marker "x", .operator (.binary .sub), .marker "y"] none 1]) :=
    @Obtainable.binary _ .comma _ _ _ (.marker "x") hdifference rfl
  exact Obtainable.isRepresented (@Obtainable.function _ .max _ _ hmembers rfl)

/-! ## Brackets -/

/-- An operator between two operands stands for the operator on their trees.  Without the brackets
around one of the operands, the sequence is read as another tree. -/
structure JoinsExactly (a : Operand) (op : Binary) (c : Operand) (t u : Tree) : Prop where
  left : Tree.ofSequence a.sequence = .ok t
  right : Tree.ofSequence c.sequence = .ok u
  whole : Tree.ofSequence (binarySequence a (.binary op) c op.precedence) = .ok (.binary op t u)
  steps : ∀ {α : Type} (i : Interpretation α),
    i.replay (binarySequence a (.binary op) c op.precedence) =
      i.replay a.sequence >>= fun v => i.replay c.sequence >>= fun w =>
        .single (.reduction (.binary op) [v, w]) (i.binary op v w)
  left_unbracketed : a.precedence < op.precedence →
    ∃ z, Tree.ofSequence (operandSequence false a ++ .operator (.binary op) ::
      operandSequence (c.precedence ≤ op.precedence) c) = .ok z ∧ z ≠ .binary op t u
  right_unbracketed : c.precedence ≤ op.precedence →
    ∃ z, Tree.ofSequence (operandSequence (a.precedence < op.precedence) a ++
      .operator (.binary op) :: operandSequence false c) = .ok z ∧ z ≠ .binary op t u

theorem IsWritten.joinsExactly {a c : Operand} {t u : Tree} (ha : a.IsWritten t)
    (hc : c.IsWritten u) (op : Binary) : JoinsExactly a op c t u where
  left := ha.ofSequence
  right := hc.ofSequence
  whole := by
    rw [ha.binarySequence hc op]
    exact Tree.ofSequence_sequence _
  steps i := by
    rw [ha.binarySequence hc op, Tree.replay_eq_run (Tree.ofSequence_sequence _),
      Tree.replay_eq_run ha.ofSequence, Tree.replay_eq_run hc.ofSequence, Tree.run]
  left_unbracketed hlt := by
    rw [ha.precedence] at hlt
    rw [operandSequence, operandSequence, ha.sequence, hc.sequence, hc.precedence]
    exact Tree.exists_of_left_unbracketed hlt u
  right_unbracketed hle := by
    rw [hc.precedence] at hle
    rw [operandSequence, operandSequence, ha.sequence, hc.sequence, ha.precedence]
    exact Tree.exists_of_right_unbracketed hle t

/-- Brackets stand where they are needed and nowhere else: a replay computes the left operand, then
the right one, and then executes the operator, but not without any of the brackets. -/
theorem Obtainable.exists_joinsExactly [Capacity] {a c : Operand} (ha : a.Obtainable)
    (hc : c.Obtainable) (op : Binary) : ∃ t u, JoinsExactly a op c t u := by
  obtain ⟨t, ht⟩ := ha.exists_isWritten
  obtain ⟨u, hu⟩ := hc.exists_isWritten
  exact ⟨t, u, ht.joinsExactly hu op⟩

/-- A product of a sum and a quotient, both of which need their brackets. -/
theorem exists_joinsExactly_of_product :
    ∃ t u, JoinsExactly (.deferred [.marker "x", .operator (.binary .add), .marker "y"] none 1)
      .mul (.deferred [.marker "x", .operator (.binary .div), .marker "y"] none 2) t u := by
  refine Obtainable.exists_joinsExactly ?_ ?_ .mul
  · exact @Obtainable.binary _ .add _ _ _ (.marker "x") (.marker "y") rfl
  · exact @Obtainable.binary _ .div _ _ _ (.marker "x") (.marker "y") rfl

end Operand

end Reckon
