import Reckon.Formula.Deferral
import Reckon.Proofs.Machine.Outcome

/-!
# Padding — operands with all their marks

The marks of a constant need not reach to the last of its not-a-numbers; those beyond have no mark.
Operands that differ in nothing else are the same:

* `Element.padded`, `Operand.padded` — with a mark, or the want of one, for each not-a-number;
* `Operand.sequence_padded` — the sequence of an operand, element by element;
* `Deferral.foldMembers_padded`, `Deferral.function_padded` — members are folded and functions are
  called without regard to the padding.
-/

namespace Reckon

/-! ## Elements -/

namespace Element

theorem length_marks (v : Value) (marks : List (Option Nat)) :
    (Element.constant v marks).marks.length = v.undefinedCount := by
  simp [Element.marks]

theorem marks_of_length {v : Value} {marks : List (Option Nat)}
    (h : marks.length = v.undefinedCount) : (Element.constant v marks).marks = marks := by
  simp [Element.marks, ← h]

/-- An element with its marks written out. -/
def padded : Element → Element
  | .constant v marks => .constant v (Element.constant v marks).marks
  | e => e

@[simp] theorem marks_padded (e : Element) : e.padded.marks = e.marks := by
  cases e with
  | constant v marks =>
    exact marks_of_length (length_marks v marks)
  | _ =>
    rfl

@[simp] theorem value?_padded (e : Element) : e.padded.value? = e.value? := by
  cases e <;> rfl

@[simp] theorem padded_padded (e : Element) : e.padded.padded = e.padded := by
  cases e with
  | constant v marks =>
    exact congrArg (Element.constant v) (marks_padded (.constant v marks))
  | _ =>
    rfl

@[simp] theorem padded_comp_padded : padded ∘ padded = padded :=
  funext padded_padded

end Element

/-! ## Operands -/

namespace Operand

mutual

/-- An operand with the marks of all its constants written out. -/
def padded : Operand → Operand
  | .atom e => .atom e.padded
  | .deferred es origin p => .deferred (es.map Element.padded) origin p
  | .group members => .group (paddedMembers members)

def paddedMembers : List Operand → List Operand
  | [] => []
  | m :: ms => m.padded :: paddedMembers ms

end

theorem paddedMembers_eq_map (ms : List Operand) : paddedMembers ms = ms.map padded := by
  induction ms with
  | nil =>
    rfl
  | cons m ms ih =>
    rw [paddedMembers, ih, List.map_cons]

@[simp] theorem padded_group (ms : List Operand) :
    (Operand.group ms).padded = .group (ms.map padded) := by
  rw [padded, paddedMembers_eq_map]

@[simp] theorem value?_padded (a : Operand) : a.padded.value? = a.value? := by
  cases a with
  | atom e =>
    exact e.value?_padded
  | deferred es origin p =>
    rfl
  | group ms =>
    rfl

@[simp] theorem marks_padded (a : Operand) : a.padded.marks = a.marks := by
  cases a with
  | atom e =>
    exact e.marks_padded
  | deferred es origin p =>
    rfl
  | group ms =>
    rfl

@[simp] theorem isSymbolic_padded (a : Operand) : a.padded.isSymbolic = a.isSymbolic := by
  rw [isSymbolic, isSymbolic, value?_padded]

mutual

theorem padded_padded : (a : Operand) → a.padded.padded = a.padded
  | .atom e => congrArg Operand.atom e.padded_padded
  | .deferred es origin p => by
    rw [padded, padded, List.map_map, Element.padded_comp_padded]
  | .group ms => congrArg Operand.group (paddedMembers_paddedMembers ms)

theorem paddedMembers_paddedMembers :
    (ms : List Operand) → paddedMembers (paddedMembers ms) = paddedMembers ms
  | [] => rfl
  | m :: ms => by
    rw [paddedMembers, paddedMembers, padded_padded m, paddedMembers_paddedMembers ms]

end

@[simp] theorem map_padded_map_padded (ms : List Operand) :
    (ms.map padded).map padded = ms.map padded := by
  rw [← paddedMembers_eq_map, ← paddedMembers_eq_map, paddedMembers_paddedMembers]

mutual

theorem provenance_padded : (a : Operand) → a.padded.provenance = a.provenance
  | .atom (.operator _) | .atom (.constant ..) | .atom (.marker _) => rfl
  | .deferred .. => rfl
  | .group ms => by
    rw [padded, provenance, provenance, provenanceOf_paddedMembers ms]

theorem provenanceOf_paddedMembers :
    (ms : List Operand) → provenanceOf (paddedMembers ms) = provenanceOf ms
  | [] => rfl
  | m :: ms => by
    rw [paddedMembers, provenanceOf, provenanceOf, provenance_padded m,
      provenanceOf_paddedMembers ms]

end

theorem commonOrigin_padded (ms : List Operand) :
    commonOrigin (ms.map padded) = commonOrigin ms := by
  rw [commonOrigin, commonOrigin, ← paddedMembers_eq_map, provenanceOf_paddedMembers]

/-! ## Sequences -/

theorem map_padded_bracketed (wrap : Bool) (es : List Element) :
    (bracketed wrap es).map Element.padded = bracketed wrap (es.map Element.padded) := by
  cases wrap with
  | false =>
    rfl
  | true =>
    change (Element.leftBracket :: (es ++ [Element.rightBracket])).map Element.padded = _
    rw [List.map_cons, List.map_append]
    rfl

mutual

theorem sequence_padded : (a : Operand) → a.padded.sequence = a.sequence.map Element.padded
  | .atom _ | .deferred .. => rfl
  | .group ms => joinMembers_paddedMembers ms

theorem joinMembers_paddedMembers :
    (ms : List Operand) → joinMembers (paddedMembers ms) = (joinMembers ms).map Element.padded
  | [] => rfl
  | [m] => member_padded m
  | m :: n :: ms => by
    have hrest := joinMembers_paddedMembers (n :: ms)
    have hcons : joinMembers (paddedMembers (m :: n :: ms)) =
        m.padded.member ++ Element.comma :: joinMembers (paddedMembers (n :: ms)) := rfl
    have hcons' : joinMembers (m :: n :: ms) =
        m.member ++ Element.comma :: joinMembers (n :: ms) := rfl
    rw [hcons, hcons', hrest, member_padded m, List.map_append, List.map_cons]
    rfl

theorem member_padded : (a : Operand) → a.padded.member = a.member.map Element.padded
  | .atom _ => rfl
  | .deferred _ _ _ => (map_padded_bracketed _ _).symm
  | .group ms => by
    rw [padded, member, member, map_padded_bracketed, joinMembers_paddedMembers ms]

end

theorem map_padded_sequence (a : Operand) :
    a.padded.sequence.map Element.padded = a.sequence.map Element.padded := by
  rw [← sequence_padded, padded_padded, sequence_padded]

end Operand

/-! ## Folding and calling -/

namespace Deferral

open Operand

theorem values_padded (ms : List Operand) : values (ms.map padded) = values ms := by
  rw [values, values, List.filterMap_map]
  exact congrArg (List.filterMap · ms) (funext value?_padded)

theorem takeWhile_padded (ms : List Operand) :
    ((ms.map padded).takeWhile fun m => !m.isSymbolic) =
      (ms.takeWhile fun m => !m.isSymbolic).map padded := by
  rw [List.takeWhile_map]
  congr 2
  funext m
  simp

theorem foldLeading_padded (ms : List Operand) :
    (foldLeading (ms.map padded)).map (·.map padded) = (foldLeading ms).map (·.map padded) := by
  simp only [foldLeading, takeWhile_padded, List.length_map, values_padded]
  split
  · cases Function.sum.execute _ with
    | error e =>
      rfl
    | ok v =>
      refine congrArg Except.ok ?_
      rw [← List.map_drop]
      exact congrArg ((value v).padded :: ·) (map_padded_map_padded _)
  · exact congrArg Except.ok (map_padded_map_padded ms)

theorem foldRun_padded (f : Function) (run : List Operand) :
    (foldRun f (run.map padded)).map (·.map padded) = (foldRun f run).map (·.map padded) := by
  simp only [foldRun, List.length_map, values_padded]
  split
  · rfl
  · exact congrArg Except.ok (map_padded_map_padded run)

theorem foldRuns_padded (f : Function) (run ms : List Operand) :
    (foldRuns f (run.map padded) (ms.map padded)).map (·.map padded) =
      (foldRuns f run ms).map (·.map padded) := by
  induction ms generalizing run with
  | nil =>
    exact foldRun_padded f run
  | cons m ms ih =>
    rw [List.map_cons, foldRuns, foldRuns, isSymbolic_padded]
    split
    · -- the run in front and the members behind are folded apart from each other
      rcases Except.cases_of_map_eq (foldRun_padded f run) with
        ⟨e, hrun, hrun'⟩ | ⟨folded, folded', hrun, hrun', hfolded⟩
      · rw [hrun, hrun']
        rfl
      · rcases Except.cases_of_map_eq (ih []) with
          ⟨e, hms, hms'⟩ | ⟨others, others', hms, hms', hothers⟩
        · rw [List.map_nil] at hms
          rw [hrun, hrun', hms, hms']
          rfl
        · rw [List.map_nil] at hms
          rw [hrun, hrun', hms, hms']
          have hmembers : (folded ++ m.padded :: others).map padded =
              (folded' ++ m :: others').map padded := by
            rw [List.map_append, List.map_append, List.map_cons, List.map_cons, hfolded, hothers,
              padded_padded]
          exact congrArg Except.ok hmembers
    · have happend : run.map padded ++ [m.padded] = (run ++ [m]).map padded := by simp
      rw [happend, ih]

theorem foldMembers_padded (op : Operator) (ms : List Operand) :
    (foldMembers op (ms.map padded)).map (·.map padded) =
      (foldMembers op ms).map (·.map padded) := by
  have hrest : (Except.ok (ms.map padded) : Except Error _).map (·.map padded) =
      (Except.ok ms : Except Error _).map (·.map padded) :=
    congrArg Except.ok (map_padded_map_padded ms)
  unfold foldMembers
  split
  · exact foldLeading_padded ms
  · exact foldRuns_padded .max [] ms
  · exact foldRuns_padded .min [] ms
  · exact hrest

theorem call_padded (op : Operator) {es es' : List Element} {ms ms' : List Operand}
    (hes : es.map Element.padded = es'.map Element.padded)
    (hms : ms.map padded = ms'.map padded) :
    (call op es ms).padded = (call op es' ms').padded := by
  have hsequence : (callSequence op es).map Element.padded =
      (callSequence op es').map Element.padded := by
    rw [callSequence, callSequence, List.map_cons, List.map_cons, map_padded_bracketed,
      map_padded_bracketed, hes]
  have horigin : commonOrigin ms = commonOrigin ms' := by
    rw [← commonOrigin_padded ms, hms, commonOrigin_padded]
  rw [call, call, padded, padded, hsequence, horigin]

theorem deferCall_padded (op : Operator) (a : Operand) :
    (deferCall op a.padded).map padded = (deferCall op a).map padded := by
  cases a with
  | group ms =>
    rw [padded_group, deferCall, deferCall]
    rcases Except.cases_of_map_eq (foldMembers_padded op ms) with
      ⟨e, hms, hms'⟩ | ⟨members, members', hms, hms', hmembers⟩
    · rw [hms, hms']
    · rw [hms, hms']
      refine congrArg Except.ok (call_padded op ?_ hmembers)
      rw [← joinMembers_paddedMembers, ← joinMembers_paddedMembers, paddedMembers_eq_map,
        paddedMembers_eq_map, hmembers]
  | atom e =>
    exact congrArg Except.ok (call_padded op (map_padded_sequence (.atom e))
      (map_padded_map_padded [.atom e]))
  | deferred es origin p =>
    exact congrArg Except.ok (call_padded op (map_padded_sequence (.deferred es origin p))
      (map_padded_map_padded [.deferred es origin p]))

/-- A function makes the same of an operand whether its marks are written out or not. -/
theorem function_padded (f : Function) (a : Operand) :
    (function f a.padded).map padded = (function f a).map padded := by
  unfold function
  rw [value?_padded, marks_padded]
  cases a.value? with
  | some v =>
    rfl
  | none =>
    exact deferCall_padded (.function f) a

/-- So it makes the same of operands that are the same but for the padding. -/
theorem function_congr (f : Function) {a c : Operand} (h : a.padded = c.padded) :
    (function f a).map padded = (function f c).map padded := by
  rw [← function_padded f a, h, function_padded]

end Deferral
end Reckon
