/-!
# Capacity — how far the resources of a machine reach

Texts are put together in memory, and nested JSON texts are read on a stack.  How much there is of
either is up to the machine that the calculator runs on, so it is a parameter of whatever depends on
it, and what is said about the calculator is said for every `Capacity`.

Where the calculator is run and nothing else is said, the capacity is `Capacity.standard`.
-/

namespace Reckon

/-- How far memory and stack reach. -/
class Capacity where
  /-- The length of the longest text that there is memory for. -/
  largestText : Nat
  /-- The most arrays and objects of a JSON text that may be open at a time. -/
  largestDepth : Nat
  /-- Not even two texts together come close to the largest index. -/
  largestText_lt : largestText < Nat.pow 2 62

/-- The capacity of a common machine: eight gibibytes for a text, and a stack of a thousand calls,
ten of which are in use before a JSON text is read. -/
instance Capacity.standard : Capacity where
  largestText := Nat.pow 2 33
  largestDepth := 990
  largestText_lt := by decide

end Reckon
