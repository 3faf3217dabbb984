import Reckon.Capacity
import Reckon.Error
import Reckon.Value

/-!
# Execute — operators on values

`Binary.execute` and `Function.execute` say what each operator does to concrete values.

* `+` joins texts and adds numbers; `*` multiplies numbers and repeats texts.
* `%` is the remainder of the truncated division of whole numbers: it has the sign of the dividend,
  and it is computed on integers, so it is exact for numbers of any size.
* The comma joins lists; a value that is no list counts as a list of one member.
* `sum`, `max` and `min` take one number or a list.  They go from left to right, and `max` and `min`
  change their candidate only for a member that is strictly better.
-/

namespace Reckon

/-! ## Texts -/

/-- The largest count and length of a repeated text. -/
def Limit.largestIndex : Nat := Nat.pow 2 63 - 1

/-- Refuses a length of a text that there is no memory for. -/
def requireMemory [Capacity] (length : Nat) : Except Error Unit :=
  if Capacity.largestText < length then .error (.limit .outOfMemory) else .ok ()

/-- A text repeated, by doubling; the empty text is never built up. -/
def repeatText (s : CodeText) (count : Nat) : CodeText :=
  if s.points.isEmpty ∨ count = 0 then ""
  else
    let half := repeatText s (count / 2)
    if count % 2 = 0 then half ++ half else half ++ half ++ s
termination_by count
decreasing_by omega

/-! ## Candidates -/

/-- The first member that no later one is better than, going from left to right. -/
def foldBest {α : Type} (better : α → α → Bool) (first : α) (others : List α) : α :=
  others.foldl (fun best x => if better x best then x else best) first

namespace Binary

/-- The refusal of operands that the operator has no use for. -/
def refuse (op : Binary) (mismatch : Option Mismatch) : Except Error Value :=
  .error (.invalidArguments (.binary op) mismatch)

/-- A text times a number: the number must be whole, and none or fewer repetitions are empty. -/
def executeRepeat [Capacity] (s : CodeText) (x : Float) : Except Error Value :=
  match Double.whole? x with
  | none => mul.refuse (some .fractionalRepeat)
  | some n =>
    if Limit.largestIndex < n then .error (.limit .repeatCountTooLarge)
    else if Limit.largestIndex < s.length * n then .error (.limit .repeatTooLong)
    else if n = 1 then .ok (.text s)
    else do
      requireMemory (s.length * n.toNat)
      return .text (repeatText s n.toNat)

/-- The remainder of the truncated division of two integers, as a number. -/
def executeRem (a b : Int) : Except Error Value :=
  if b = 0 then .error (.divisionByZero (.binary .rem))
  else
    match Double.ofInt? (a.tmod b) with
    | some r => .ok (.number r)
    | none => .error (.limit .integerTooLarge)

/-- An operator on its left and its right operand. -/
def execute [Capacity] : Binary → Value → Value → Except Error Value
  | .add, .text s, .text t => do
    requireMemory (s.length + t.length)
    return .text (s ++ t)
  | .add, .number x, .number y => .ok (.number (x + y))
  | .sub, .number x, .number y => .ok (.number (x - y))
  | .mul, .number x, .number y => .ok (.number (x * y))
  | .mul, .text s, .number x => executeRepeat s x
  | .mul, .number x, .text s => executeRepeat s x
  | .div, .number x, .number y =>
    if y == 0 then .error (.divisionByZero (.binary .div)) else .ok (.number (x / y))
  | .rem, .number x, .number y =>
    match Double.whole? x, Double.whole? y with
    | some a, some b => executeRem a b
    | _, _ => rem.refuse none
  | .comma, v, w => .ok (.list (v.members ++ w.members))
  | op, _, _ => op.refuse none

end Binary

namespace Function

/-- The refusal of an operand that the function has no use for. -/
def refuse (f : Function) (mismatch : Option Mismatch) : Except Error Value :=
  .error (.invalidArguments (.function f) mismatch)

/-- A circular function, which has no value at an infinity. -/
def executeCircular (f : Function) (circular : Float → Float) (x : Float) : Except Error Value :=
  if x.isInf then f.refuse (some .outsideDomain) else .ok (.number (circular x))

/-- The sum of a number or of the numbers of a list, added from left to right. -/
def executeSum : Value → Except Error Value
  | .number x => .ok (.number x)
  | .list vs =>
    match Value.numbers? vs with
    | some (x :: xs) => .ok (.number (xs.foldl (· + ·) x))
    | _ => sum.refuse none
  | _ => sum.refuse none

/-- The best number or text of a list whose members are all of one kind. -/
def executeExtreme (f : Function) (betterNumber : Float → Float → Bool)
    (betterText : CodeText → CodeText → Bool) : Value → Except Error Value
  | .number x => .ok (.number x)
  | .list [] => f.refuse none
  | .list vs =>
    match Value.numbers? vs, Value.texts? vs with
    | some (x :: xs), _ => .ok (.number (foldBest betterNumber x xs))
    | _, some (s :: ss) => .ok (.text (foldBest betterText s ss))
    | _, _ => f.refuse (some .mixedMembers)
  | _ => f.refuse none

/-- A function on its operand. -/
def execute : Function → Value → Except Error Value
  | .sin, .number x => executeCircular .sin Double.sine x
  | .cos, .number x => executeCircular .cos Double.cosine x
  | .tan, .number x => executeCircular .tan Double.tangent x
  | .abs, .number x => .ok (.number x.abs)
  | .opp, .number x => .ok (.number (-x))
  | .recip, .number x =>
    if x == 0 then .error (.divisionByZero (.function .recip)) else .ok (.number (1 / x))
  | .sum, v => executeSum v
  | .max, v => executeExtreme .max (fun x best => best < x) (fun s best => best < s) v
  | .min, v => executeExtreme .min (fun x best => x < best) (fun s best => s < best) v
  | .pow, .list [.number x, .number y] => .ok (.number (Double.power x y))
  | .pow, _ => pow.refuse (some .notTwoNumbers)
  | f, _ => f.refuse none

end Function

theorem points_repeatText (s : CodeText) (count : Nat) :
    (repeatText s count).points = (List.replicate count s.points).flatten := by
  fun_induction repeatText s count with
  | case1 count h =>
    rcases h with h | rfl
    · simp [List.isEmpty_iff.1 h, CodeText.ofString]
    · simp [CodeText.ofString]
  | case2 count _ half hcount ih =>
    rw [CodeText.points_append, ih, ← List.flatten_append, List.replicate_append_replicate]
    congr 2
    omega
  | case3 count _ half hcount ih =>
    rw [CodeText.points_append, CodeText.points_append, ih, ← List.flatten_append,
      List.replicate_append_replicate]
    have h : s.points = (List.replicate 1 s.points).flatten := by simp
    conv => lhs; arg 2; rw [h]
    rw [← List.flatten_append, List.replicate_append_replicate]
    congr 2
    omega

theorem foldBest_mem {α : Type} (better : α → α → Bool) (x : α) (xs : List α) :
    foldBest better x xs ∈ x :: xs := by
  induction xs generalizing x with
  | nil => simp [foldBest]
  | cons y ys ih =>
    have h := ih (if better y x then y else x)
    simp only [foldBest, List.foldl_cons, List.mem_cons] at h ⊢
    grind

end Reckon
