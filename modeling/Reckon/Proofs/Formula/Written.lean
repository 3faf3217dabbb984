import Reckon.Proofs.Formula.Bracketing
import Reckon.Proofs.Formula.Denotation
import Reckon.Proofs.Formula.Origin

/-!
# Written — operands and the trees that they are written for

The operands of a compilation keep no trees, but a flat sequence with an origin and a precedence.
All of these are those of a tree, on which no work is left that could be done ahead of time:

* `Tree.IsFolded` — every operator but the comma has a marker below it;
* `Tree.operand` — a tree as an operand, and `Tree.joined` — the members of a group with commas
  between them;
* `Operand.IsWritten a t` — the operand `a` is written for the tree `t`, and its sequence, its
  precedence, its provenance and its members are those of `t`.
-/

namespace Reckon

open Operand

/-! ## Values -/

/-- Nothing is required of a text. -/
def anyText (_ : CodeText) : Prop := True

theorem holdsOfShort_anyText [Capacity] : HoldsOfShort anyText := fun _ _ => trivial

/-- Numbers, texts, and lists of them that are not empty. -/
structure Value.IsFlat (v : Value) : Prop where
  nonempty : v.members ≠ []
  scalar : ∀ w ∈ v.members, w.IsScalar anyText

theorem Value.IsScalar.isFlat {v : Value} (h : v.IsScalar anyText) : v.IsFlat where
  nonempty := by simp [h.members]
  scalar := by
    rw [h.members]
    exact List.forall_mem_singleton.2 h

/-- The names of the markers in the sequence of an operand, from left to right. -/
def Operand.markers (a : Operand) : List String :=
  a.sequence.filterMap Element.marker?

theorem Operand.markers_of_value? {a : Operand} {v : Value} (h : a.value? = some v) :
    a.markers = [] := by
  cases a with
  | atom e =>
    cases e with
    | marker name =>
      cases h
    | operator op =>
      rfl
    | constant v marks =>
      rfl
  | deferred es origin p =>
    cases h
  | group members =>
    cases h

/-- Markers are in symbolic members only. -/
theorem Operand.flatMap_markers_symbols (ms : List Operand) :
    (symbols ms).flatMap markers = ms.flatMap markers := by
  induction ms with
  | nil =>
    rfl
  | cons m ms ih =>
    rw [List.flatMap_cons]
    cases hm : m.value? with
    | none =>
      rw [Deferral.symbols_cons (isSymbolic_iff.2 hm), List.flatMap_cons, ih]
    | some v =>
      have hcons : symbols (m :: ms) = symbols ms :=
        List.filter_cons_of_neg (by simp [isSymbolic, hm])
      rw [hcons, ih, markers_of_value? hm, List.nil_append]

namespace Tree

variable {t u : Tree} {ts : List Tree}

/-! ## Trees without work -/

/-- Trees with flat constants, in which every operator but the comma has a marker below it. -/
inductive IsFolded : Tree → Prop where
  | constant {v : Value} (marks : List (Option Nat)) : v.IsFlat → IsFolded (.constant v marks)
  | marker (name : String) : IsFolded (.marker name)
  | binary {op : Binary} {t u : Tree} : (op ≠ .comma → t.markers ++ u.markers ≠ []) →
    IsFolded t → IsFolded u → IsFolded (.binary op t u)
  | call {f : Function} {t : Tree} : t.markers ≠ [] → IsFolded t → IsFolded (.call f t)

/-- Trees that are no list under construction. -/
structure IsAlone (t : Tree) : Prop where
  folded : t.IsFolded
  tight : Binary.comma.precedence < t.precedence

/-- Trees that are a member of a list. -/
structure IsMember (t : Tree) : Prop extends t.IsAlone where
  scalar : ∀ {v marks}, t = .constant v marks → v.IsScalar anyText

theorem isMember_constant {v : Value} (h : v.IsScalar anyText) (marks : List (Option Nat)) :
    (Tree.constant v marks).IsMember where
  folded := .constant marks h.isFlat
  tight := lt_atomic .comma
  scalar := by
    rintro w marks' heq
    cases heq
    exact h

/-! ## Trees as operands -/

/-- The provenance of an operand that a tree makes. -/
def provenance (t : Tree) : Provenance :=
  .ofNames t.markers

/-- A tree as an operand. -/
def operand : Tree → Operand
  | .constant v marks => .atom (.constant v marks)
  | .marker name => .marker name
  | t => .deferred t.sequence t.provenance.origin? t.precedence

@[simp] theorem sequence_operand (t : Tree) : t.operand.sequence = t.sequence := by
  cases t <;> simp [operand, Operand.sequence, sequence]

@[simp] theorem precedence_operand (t : Tree) : t.operand.precedence = t.precedence := by
  cases t <;> rfl

theorem filterMap_bracketed (wrap : Bool) (es : List Element) :
    (bracketed wrap es).filterMap Element.marker? = es.filterMap Element.marker? := by
  cases wrap with
  | false =>
    rfl
  | true =>
    change (Element.leftBracket :: (es ++ [Element.rightBracket])).filterMap Element.marker? = _
    rw [List.filterMap_cons_none rfl, List.filterMap_append]
    exact List.append_nil _

/-- Writing a tree keeps its markers in their order. -/
theorem filterMap_sequence (t : Tree) : t.sequence.filterMap Element.marker? = t.markers := by
  induction t with
  | constant v marks =>
    rfl
  | marker name =>
    rfl
  | binary op t u iht ihu =>
    rw [sequence, List.filterMap_append, filterMap_bracketed, iht,
      List.filterMap_cons_none rfl, filterMap_bracketed, ihu, markers]
  | call f t ih =>
    rw [sequence, callSequence, List.filterMap_cons_none rfl, filterMap_bracketed, ih, markers]

@[simp] theorem markers_operand (t : Tree) : t.operand.markers = t.markers := by
  rw [Operand.markers, sequence_operand, filterMap_sequence]

namespace IsAlone

/-- The operator at the root is no comma. -/
theorem markers_ne_nil {op : Binary} (h : (Tree.binary op t u).IsAlone) :
    (Tree.binary op t u).markers ≠ [] := by
  have hop : op ≠ .comma := by
    rintro rfl
    exact absurd h.tight (Int.lt_irrefl _)
  cases h.folded with
  | binary hmarkers _ _ =>
    exact hmarkers hop

theorem value?_operand (h : t.IsAlone) : t.operand.value? = none ↔ t.markers ≠ [] := by
  cases t with
  | constant v marks =>
    simp [operand, Operand.value?, Element.value?, markers]
  | marker name =>
    simp [operand, Operand.value?, Element.value?, markers]
  | binary op t u =>
    exact ⟨fun _ => h.markers_ne_nil, fun _ => rfl⟩
  | call f t =>
    cases h.folded with
    | call hmarkers _ =>
      exact ⟨fun _ => hmarkers, fun _ => rfl⟩

theorem provenance_operand (h : t.IsAlone) : t.operand.provenance = t.provenance := by
  cases t with
  | constant v marks =>
    rfl
  | marker name =>
    rfl
  | binary op t u =>
    exact Provenance.ofOrigin_ofNames h.markers_ne_nil
  | call f t =>
    exact Provenance.ofOrigin_ofNames (h.value?_operand.1 rfl)

end IsAlone

theorem provenanceOf_operands (h : ∀ t ∈ ts, t.IsAlone) :
    provenanceOf (ts.map operand) = .ofNames (ts.flatMap markers) := by
  induction ts with
  | nil =>
    rfl
  | cons t ts ih =>
    obtain ⟨ht, hts⟩ := List.forall_mem_cons.1 h
    rw [List.map_cons, provenanceOf, ht.provenance_operand, ih hts, List.flatMap_cons,
      Provenance.ofNames_append, provenance]

/-! ## Members with commas between them -/

/-- The list of trees that commas make; the comma groups from the left. -/
def joined (t : Tree) (ts : List Tree) : Tree :=
  ts.foldl (.binary .comma) t

theorem markers_joined (t : Tree) (ts : List Tree) :
    (joined t ts).markers = (t :: ts).flatMap markers := by
  induction ts generalizing t with
  | nil =>
    simp [joined]
  | cons u ts ih =>
    have hjoined : joined t (u :: ts) = joined (.binary .comma t u) ts := rfl
    rw [hjoined, ih]
    simp [markers]

theorem isFolded_joined (h : ∀ u ∈ t :: ts, u.IsFolded) : (joined t ts).IsFolded := by
  induction ts generalizing t with
  | nil =>
    exact h t List.mem_cons_self
  | cons u ts ih =>
    obtain ⟨ht, hts⟩ := List.forall_mem_cons.1 h
    obtain ⟨hu, hts⟩ := List.forall_mem_cons.1 hts
    have hcomma : (Tree.binary .comma t u).IsFolded := .binary (absurd rfl) ht hu
    exact ih (List.forall_mem_cons.2 ⟨hcomma, hts⟩)

theorem precedence_joined (t u : Tree) (ts : List Tree) :
    (joined t (u :: ts)).precedence = Binary.comma.precedence := by
  induction ts generalizing t u with
  | nil =>
    rfl
  | cons w ts ih =>
    exact ih (.binary .comma t u) w

/-- Nothing binds looser than the comma, so no list in front of a comma needs brackets. -/
theorem comma_le_precedence (t : Tree) : Binary.comma.precedence ≤ t.precedence := by
  cases t with
  | binary op t u =>
    rw [precedence_binary]
    cases op <;> decide
  | constant v marks =>
    exact atomic_le .comma
  | marker name =>
    exact atomic_le .comma
  | call f t =>
    exact atomic_le .comma

theorem sequence_joined (t : Tree) (h : ∀ u ∈ ts, u.IsAlone) :
    (joined t ts).sequence = t.sequence ++ ts.flatMap fun u => Element.comma :: u.sequence := by
  induction ts generalizing t with
  | nil =>
    simp [joined]
  | cons u ts ih =>
    obtain ⟨hu, hts⟩ := List.forall_mem_cons.1 h
    have hleft : ¬t.precedence < Binary.comma.precedence := Int.not_lt.2 (comma_le_precedence t)
    have hright : ¬u.precedence ≤ Binary.comma.precedence := Int.not_le.2 hu.tight
    have hpair : (Tree.binary .comma t u).sequence =
        t.sequence ++ Element.comma :: u.sequence := by
      rw [sequence, decide_eq_false hleft, decide_eq_false hright]
      rfl
    have hjoined : joined t (u :: ts) = joined (.binary .comma t u) ts := rfl
    rw [hjoined, ih _ hts, hpair, List.flatMap_cons, List.append_assoc]

theorem member_operand (h : t.IsAlone) : t.operand.member = t.operand.sequence := by
  rw [Operand.member_eq, precedence_operand, decide_eq_false (Int.not_le.2 h.tight)]
  rfl

/-- A group is written as the list that the commas make. -/
theorem joinMembers_operands (h : ∀ u ∈ t :: ts, u.IsAlone) :
    joinMembers ((t :: ts).map operand) = (joined t ts).sequence := by
  obtain ⟨ht, hts⟩ := List.forall_mem_cons.1 h
  have hmembers : ∀ m ∈ ts.map operand, m.member = m.sequence := by
    intro m hm
    obtain ⟨u, hu, rfl⟩ := List.mem_map.1 hm
    exact member_operand (hts u hu)
  rw [List.map_cons, joinMembers_cons (member_operand ht) hmembers, sequence_joined t hts,
    sequence_operand, List.flatMap_map]
  simp only [sequence_operand]

end Tree

/-! ## Operands -/

/-- An operand that is written for a tree: the tree as an operand, or the group of the members of a
list. -/
inductive Operand.IsWritten : Operand → Tree → Prop where
  | alone {t : Tree} : t.IsAlone → IsWritten t.operand t
  | group {t u : Tree} {ts : List Tree} : (∀ s ∈ t :: u :: ts, s.IsMember) →
    (Tree.joined t (u :: ts)).markers ≠ [] →
      IsWritten (.group ((t :: u :: ts).map Tree.operand)) (Tree.joined t (u :: ts))

/-- Members of which at least one is symbolic are a group. -/
theorem exists_isWritten_group {ts : List Tree} (hlength : 2 ≤ ts.length)
    (h : ∀ t ∈ ts, t.IsMember) (hmarkers : ts.flatMap Tree.markers ≠ []) :
    ∃ t, (Operand.group (ts.map Tree.operand)).IsWritten t ∧
      t.markers = ts.flatMap Tree.markers := by
  match ts, hlength with
  | t :: u :: ts, _ =>
    have hjoined := Tree.markers_joined t (u :: ts)
    rw [← hjoined] at hmarkers
    exact ⟨_, .group h hmarkers, hjoined⟩

namespace Operand.IsWritten

variable {a c : Operand} {t u : Tree}

theorem folded (h : a.IsWritten t) : t.IsFolded := by
  cases h with
  | alone h =>
    exact h.folded
  | group h _ =>
    exact Tree.isFolded_joined fun s hs => (h s hs).folded

theorem sequence (h : a.IsWritten t) : a.sequence = t.sequence := by
  cases h with
  | alone h =>
    exact Tree.sequence_operand t
  | group h _ =>
    exact Tree.joinMembers_operands fun s hs => (h s hs).toIsAlone

theorem precedence (h : a.IsWritten t) : a.precedence = t.precedence := by
  cases h with
  | alone h =>
    exact Tree.precedence_operand t
  | group h _ =>
    exact (Tree.precedence_joined _ _ _).symm

theorem provenance (h : a.IsWritten t) : a.provenance = t.provenance := by
  cases h with
  | alone h =>
    exact h.provenance_operand
  | @group t u ts h hmarkers =>
    rw [Operand.provenance, Tree.provenanceOf_operands fun s hs => (h s hs).toIsAlone,
      ← Tree.markers_joined]
    exact Provenance.ofOrigin_ofNames hmarkers

/-- An operand has no value if there is a marker in its tree. -/
theorem value?_iff (h : a.IsWritten t) : a.value? = none ↔ t.markers ≠ [] := by
  cases h with
  | alone h =>
    exact h.value?_operand
  | group _ hmarkers =>
    exact ⟨fun _ => hmarkers, fun _ => rfl⟩

/-- The sequence of an operand is read as its tree. -/
theorem ofSequence (h : a.IsWritten t) : Tree.ofSequence a.sequence = .ok t := by
  rw [h.sequence]
  exact Tree.ofSequence_sequence t

/-- Two operands with an operator between them are written for the operator on their trees. -/
theorem binarySequence (ha : a.IsWritten t) (hc : c.IsWritten u) (op : Binary) :
    Operand.binarySequence a (.binary op) c op.precedence = (Tree.binary op t u).sequence := by
  rw [Operand.binarySequence, operandSequence, operandSequence, ha.sequence, ha.precedence,
    hc.sequence, hc.precedence]
  rfl

end Operand.IsWritten

end Reckon
