import Reckon.Text.Quoted

/-!
# Token — the words of a source text

A token has a kind, a text and the position of its first character, counted in characters.  The text
of a `text` token is the text that the literal denotes; all others show what stands in the source.
Positions in a source text are natural numbers; a token from elsewhere may have any position.
-/

namespace Reckon

/-- The kind of a token.  The reader makes tokens of the first four kinds; a token of `other` kind,
wherever it comes from, is refused by every evaluation. -/
inductive TokenKind where
  | number
  | text
  | name
  | symbol
  | other (label : String)
  deriving DecidableEq, Repr

namespace TokenKind

def label : TokenKind → String
  | .number => "number"
  | .text => "string"
  | .name => "ident"
  | .symbol => "symbol"
  | .other label => label

end TokenKind

structure Token where
  kind : TokenKind
  text : String
  position : Int
  deriving DecidableEq, Repr

namespace Token

/-- The symbol in front of the name of a variable. -/
def variableMarker : String := "$"

/-- Whether a token announces the name of a variable. -/
def isMarker (t : Token) : Bool :=
  t.kind = .symbol && t.text = variableMarker

/-- A token on one line, for messages. -/
def describe (t : Token) : String :=
  "Token(" ++ t.kind.label ++ ", " ++ Text.quoted t.text ++ ", pos=" ++ toString t.position ++ ")"

end Token

end Reckon
