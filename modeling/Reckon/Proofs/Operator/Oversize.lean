import Reckon.Proofs.Double.Magnitude
import Reckon.Proofs.Operator.Refusal

/-!
# Oversize — the limits that operators run into

Operators on numbers stay within the numbers: a remainder is no larger than its dividend, so it has
a nearest double.  What remains are texts that a sum or a product makes too long.

* `Oversize` — the limits of operators by their operands;
* `Fault` — all the errors of operators by their operands;
* `Binary.fault`, `Function.fault` — an operator that is executed has no others.
-/

namespace Reckon

section

variable [Capacity]

/-- The limits of repeating a text: the count, the length, and the memory for it. -/
inductive Unrepeatable (s : CodeText) (x : Float) : Limit → Prop where
  | count {n : Int} : Double.whole? x = some n → Limit.largestIndex < n →
    Unrepeatable s x .repeatCountTooLarge
  | length {n : Int} : Double.whole? x = some n → Limit.largestIndex < s.length * n →
    Unrepeatable s x .repeatTooLong
  | memory {n : Int} : Double.whole? x = some n → Capacity.largestText < s.length * n.toNat →
    Unrepeatable s x .outOfMemory

/-- The limits of operators: they concern texts that are joined or repeated. -/
inductive Oversize : Binary → Value → Value → Limit → Prop where
  | joined {s t : CodeText} : Capacity.largestText < s.length + t.length →
    Oversize .add (.text s) (.text t) .outOfMemory
  | textFirst {s : CodeText} {x : Float} {cause : Limit} : Unrepeatable s x cause →
    Oversize .mul (.text s) (.number x) cause
  | textLast {s : CodeText} {x : Float} {cause : Limit} : Unrepeatable s x cause →
    Oversize .mul (.number x) (.text s) cause

/-- The errors of an operator that is executed on its operands. -/
inductive Fault : Operator → List Value → Error → Prop where
  | arguments (op : Operator) (operands : List Value) (mismatch : Option Mismatch) :
    Fault op operands (.invalidArguments op mismatch)
  | zero (op : Operator) (operands : List Value) : Fault op operands (.divisionByZero op)
  | oversize {op : Binary} {v w : Value} {cause : Limit} : Oversize op v w cause →
    Fault (.binary op) [v, w] (.limit cause)

/-! ## Limits -/

theorem memory_of_requireMemory {length : Nat} {v : Value} {cause : Limit}
    (h : (requireMemory length >>= fun _ => .ok v) = .error (.limit cause)) :
    cause = .outOfMemory ∧ Capacity.largestText < length := by
  unfold requireMemory at h
  split at h
  · cases h
    exact ⟨rfl, ‹_›⟩
  · cases h

end

namespace Binary

theorem unrepeatable [Capacity] {s : CodeText} {x : Float} {cause : Limit}
    (h : executeRepeat s x = .error (.limit cause)) : Unrepeatable s x cause := by
  unfold executeRepeat at h
  split at h
  · cases h
  · rename_i n hn
    split at h
    · cases h
      exact .count hn ‹_›
    · split at h
      · cases h
        exact .length hn ‹_›
      · split at h
        · cases h
        · obtain ⟨rfl, hmemory⟩ := memory_of_requireMemory h
          exact .memory hn hmemory

/-- A remainder is no larger than its dividend, so it does not leave the range of a double. -/
theorem executeRem_ne_limit {x : Float} {a b : Int} (ha : Double.whole? x = some a)
    {cause : Limit} : executeRem a b ≠ .error (.limit cause) := by
  have hle : (a.tmod b).natAbs ≤ a.natAbs := by
    rw [Int.natAbs_tmod]
    exact Nat.mod_le _ _
  obtain ⟨r, hr⟩ := Double.exists_of_ofInt (hle.trans_lt (Double.natAbs_lt_of_whole ha))
  intro h
  unfold executeRem at h
  rw [hr] at h
  split at h <;> cases h

theorem oversize [Capacity] {op : Binary} {v w : Value} {cause : Limit}
    (h : op.execute v w = .error (.limit cause)) : Oversize op v w cause := by
  unfold execute at h
  split at h
  · obtain ⟨rfl, hmemory⟩ := memory_of_requireMemory h
    exact .joined hmemory
  · cases h
  · cases h
  · cases h
  · exact .textFirst (unrepeatable h)
  · exact .textLast (unrepeatable h)
  · split at h <;> cases h
  · split at h
    · rename_i a b ha hb
      exact absurd h (executeRem_ne_limit ha)
    · cases h
  · cases h
  · cases h

/-- All that can go wrong between two operands. -/
theorem fault [Capacity] {op : Binary} {v w : Value} {e : Error} (h : op.execute v w = .error e) :
    Fault (.binary op) [v, w] e := by
  cases refusal h with
  | arguments mismatch =>
    exact .arguments _ _ mismatch
  | zero =>
    exact .zero _ _
  | limit cause =>
    exact .oversize (oversize h)

end Binary

namespace Function

theorem executeCircular_ne_limit {f : Function} {circular : Float → Float} {x : Float}
    {cause : Limit} : executeCircular f circular x ≠ .error (.limit cause) := by
  unfold executeCircular
  split <;> simp [refuse]

theorem executeSum_ne_limit {v : Value} {cause : Limit} :
    executeSum v ≠ .error (.limit cause) := by
  unfold executeSum
  split
  · simp
  · split <;> simp [refuse]
  · simp [refuse]

theorem executeExtreme_ne_limit {f : Function} {bn : Float → Float → Bool}
    {bt : CodeText → CodeText → Bool} {v : Value} {cause : Limit} :
    executeExtreme f bn bt v ≠ .error (.limit cause) := by
  unfold executeExtreme
  split
  · simp
  · simp [refuse]
  · split <;> simp [refuse]
  · simp [refuse]

/-- No function runs into a limit. -/
theorem execute_ne_limit {f : Function} {v : Value} {cause : Limit} :
    f.execute v ≠ .error (.limit cause) := by
  unfold execute
  split
  · exact executeCircular_ne_limit
  · exact executeCircular_ne_limit
  · exact executeCircular_ne_limit
  · simp
  · simp
  · split <;> simp
  · exact executeSum_ne_limit
  · exact executeExtreme_ne_limit
  · exact executeExtreme_ne_limit
  · simp
  · simp [refuse]
  · simp [refuse]

/-- All that can go wrong with an operand. -/
theorem fault [Capacity] {f : Function} {v : Value} {e : Error} (h : f.execute v = .error e) :
    Fault (.function f) [v] e := by
  cases refusal h with
  | arguments mismatch =>
    exact .arguments _ _ mismatch
  | zero =>
    exact .zero _ _
  | limit cause =>
    exact absurd h execute_ne_limit

end Function

end Reckon
