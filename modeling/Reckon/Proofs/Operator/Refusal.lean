import Reckon.Operator.Execute

/-!
# Refusal — the errors of operators

An operator that is executed fails because its operands are not what it works on, because it would
divide by zero, or because a limit of the program is in its way.  The first two errors name the
operator itself.

* `Refusal` — the errors of an operator;
* `Binary.refusal`, `Function.refusal` — there are no others.
-/

namespace Reckon

/-- The errors that an operator can have when it is executed. -/
inductive Refusal (op : Operator) : Error → Prop where
  | arguments (mismatch : Option Mismatch) : Refusal op (.invalidArguments op mismatch)
  | zero : Refusal op (.divisionByZero op)
  | limit (cause : Limit) : Refusal op (.limit cause)

/-- A text that there is no room for is refused for that reason. -/
theorem refusal_requireMemory [Capacity] {op : Operator} {length : Nat} {v : Value} {e : Error}
    (h : (requireMemory length >>= fun _ => .ok v) = .error e) : Refusal op e := by
  unfold requireMemory at h
  split at h
  · cases h
    exact .limit _
  · cases h

namespace Binary

theorem executeRepeat_refusal [Capacity] {s : CodeText} {x : Float} {e : Error}
    (h : executeRepeat s x = .error e) : Refusal (.binary .mul) e := by
  unfold executeRepeat at h
  split at h
  · cases h
    exact .arguments _
  · split at h
    · cases h
      exact .limit _
    · split at h
      · cases h
        exact .limit _
      · split at h
        · cases h
        · exact refusal_requireMemory h

theorem executeRem_refusal {a b : Int} {e : Error} (h : executeRem a b = .error e) :
    Refusal (.binary .rem) e := by
  unfold executeRem at h
  split at h
  · cases h
    exact .zero
  · split at h
    · cases h
    · cases h
      exact .limit _

/-- An operator fails for one of its own reasons. -/
theorem refusal [Capacity] {op : Binary} {v w : Value} {e : Error} (h : op.execute v w = .error e) :
    Refusal (.binary op) e := by
  unfold execute at h
  split at h
  · exact refusal_requireMemory h
  · cases h
  · cases h
  · cases h
  · exact executeRepeat_refusal h
  · exact executeRepeat_refusal h
  · split at h
    · cases h
      exact .zero
    · cases h
  · -- numbers that are not whole have no remainder
    split at h
    · exact executeRem_refusal h
    · cases h
      exact .arguments _
  · cases h
  · cases h
    exact .arguments _

end Binary

namespace Function

theorem executeCircular_refusal {f : Function} {circular : Float → Float} {x : Float} {e : Error}
    (h : executeCircular f circular x = .error e) : Refusal (.function f) e := by
  unfold executeCircular at h
  split at h
  · cases h
    exact .arguments _
  · cases h

theorem executeSum_refusal {v : Value} {e : Error} (h : executeSum v = .error e) :
    Refusal (.function .sum) e := by
  unfold executeSum at h
  split at h
  · cases h
  · split at h
    · cases h
    · cases h
      exact .arguments _
  · cases h
    exact .arguments _

theorem executeExtreme_refusal {f : Function} {bn : Float → Float → Bool}
    {bt : CodeText → CodeText → Bool} {v : Value} {e : Error}
    (h : executeExtreme f bn bt v = .error e) : Refusal (.function f) e := by
  unfold executeExtreme at h
  split at h
  · cases h
  · cases h
    exact .arguments _
  · split at h
    · cases h
    · cases h
    · cases h
      exact .arguments _
  · cases h
    exact .arguments _

/-- A function fails for one of its own reasons. -/
theorem refusal {f : Function} {v : Value} {e : Error} (h : f.execute v = .error e) :
    Refusal (.function f) e := by
  unfold execute at h
  split at h
  · exact executeCircular_refusal h
  · exact executeCircular_refusal h
  · exact executeCircular_refusal h
  · cases h
  · cases h
  · split at h
    · cases h
      exact .zero
    · cases h
  · exact executeSum_refusal h
  · exact executeExtreme_refusal h
  · exact executeExtreme_refusal h
  · cases h
  · cases h
    exact .arguments _
  · cases h
    exact .arguments _

end Function

end Reckon
