/-!
# Stack — last in, first out

A stack is a list with its top in front.  Taking from an empty stack is no error: the operations
answer `none`, and an empty stack is the normal end of every reduction.

`Stack.toList` is the view from the bottom to the top, in which values are pushed at the end.
-/

namespace Reckon

/-- A stack, with its top in front. -/
abbrev Stack (α : Type) := List α

namespace Stack

variable {α : Type}

/-- The elements from the bottom to the top. -/
def toList (s : Stack α) : List α :=
  s.reverse

/-- The stack with the given elements, the last of them on top. -/
def ofList (xs : List α) : Stack α :=
  xs.reverse

def push (s : Stack α) (x : α) : Stack α :=
  x :: s

def top? (s : Stack α) : Option α :=
  s.head?

/-- The top and the stack below it. -/
def pop? : Stack α → Option (α × Stack α)
  | [] => none
  | x :: s => some (x, s)

/-- The topmost `n` elements in the order in which they were pushed, and the stack below them. -/
def popMany? (s : Stack α) (n : Nat) : Option (List α × Stack α) :=
  if n ≤ s.length then some ((s.take n).reverse, s.drop n) else none

/-- A stack on one line, for messages; `shown` is the text of an element. -/
def describe (shown : α → String) (s : Stack α) : String :=
  "Stack([" ++ ", ".intercalate (s.toList.map shown) ++ "])"

@[simp] theorem toList_push (s : Stack α) (x : α) : (s.push x).toList = s.toList ++ [x] := by
  simp [toList, push]

@[simp] theorem toList_ofList (xs : List α) : (ofList xs).toList = xs := by
  simp [toList, ofList]

theorem toList_of_popMany? {s : Stack α} {n : Nat} {xs : List α} {below : Stack α}
    (h : s.popMany? n = some (xs, below)) : s.toList = below.toList ++ xs := by
  unfold popMany? at h
  split at h
  · simp only [Option.some.injEq, Prod.mk.injEq] at h
    obtain ⟨rfl, rfl⟩ := h
    simp [toList, ← List.reverse_append]
  · simp at h

theorem length_of_popMany? {s : Stack α} {n : Nat} {xs : List α} {below : Stack α}
    (h : s.popMany? n = some (xs, below)) : xs.length = n := by
  unfold popMany? at h
  split at h
  · simp only [Option.some.injEq, Prod.mk.injEq] at h
    obtain ⟨rfl, rfl⟩ := h
    simp only [List.length_reverse, List.length_take]
    omega
  · simp at h

end Stack

end Reckon
