import Reckon.Proofs.Evaluation.Feed
import Reckon.Proofs.Machine.Input

/-!
# Phrase — the grammar of infix expressions

A `Phrase` is a tree of the grammar

```
listing := sum | listing "," sum
sum     := term | sum ("+" | "-") term
term    := factor | term ("*" | "/" | "%") factor
factor  := "-" factor | atom
atom    := number | text | "$" name | "(" listing ")" | function "(" listing ")"
```

Its meaning is the recursive one: operands first, the left one before the right one, then the
operator, and the first error met is the result.  The main statement is that the machine, which sees
nothing but the words of a phrase, comes to the same result.
-/

namespace Reckon

/-- The levels of the grammar. -/
inductive Level where
  | listing
  | sum
  | term
  | factor
  | atom
  deriving DecidableEq, Repr

/-- The trees of the grammar.  A function may be spelled in any letter case. -/
inductive Phrase : Level → Type where
  | number (digits : String) : Phrase .atom
  | text (s : String) : Phrase .atom
  | named (name : String) : Phrase .atom
  | group (inner : Phrase .listing) : Phrase .atom
  | call (f : Function) (spelling : String)
      (spells : Operator.lookup? spelling = some (.function f)) (argument : Phrase .listing) :
      Phrase .atom
  | atom (a : Phrase .atom) : Phrase .factor
  | minus (a : Phrase .factor) : Phrase .factor
  | factor (a : Phrase .factor) : Phrase .term
  | product (left : Phrase .term) (op : Binary) (multiplies : op = .mul ∨ op = .div ∨ op = .rem)
      (right : Phrase .factor) : Phrase .term
  | term (a : Phrase .term) : Phrase .sum
  | sum (left : Phrase .sum) (op : Binary) (adds : op = .add ∨ op = .sub)
      (right : Phrase .term) : Phrase .sum
  | single (a : Phrase .sum) : Phrase .listing
  | join (left : Phrase .listing) (right : Phrase .sum) : Phrase .listing

namespace Token

/-- A token without its position. -/
def word (t : Token) : TokenKind × String :=
  (t.kind, t.text)

end Token

namespace Phrase

open Machine Evaluation

variable {α : Type} {k : Level}

/-! ## Words and meaning -/

def leftBracket : TokenKind × String := (.symbol, "(")

def rightBracket : TokenKind × String := (.symbol, ")")

/-- The words of a phrase from left to right. -/
def words : {k : Level} → Phrase k → List (TokenKind × String)
  | _, .number digits => [(.number, digits)]
  | _, .text s => [(.text, s)]
  | _, .named name => [(.symbol, Token.variableMarker), (.name, name)]
  | _, .group inner => leftBracket :: inner.words ++ [rightBracket]
  | _, .call _ spelling _ argument =>
    (.name, spelling) :: leftBracket :: argument.words ++ [rightBracket]
  | _, .atom a | _, .factor a | _, .term a | _, .single a => a.words
  | _, .minus a => (.symbol, Binary.sub.spelling) :: a.words
  | _, .product left op _ right => left.words ++ (.symbol, op.spelling) :: right.words
  | _, .sum left op _ right => left.words ++ (.symbol, op.spelling) :: right.words
  | _, .join left right => left.words ++ (.symbol, Binary.comma.spelling) :: right.words

/-- The tokens of a phrase; `position` says where the token with a number stands. -/
def tokens (t : Phrase k) (position : Nat → Int) : List Token :=
  t.words.mapIdx fun i word => ⟨word.1, word.2, position i⟩

/-- The result of an operator on two results, the left one first. -/
def combine (r : Reducer α) (op : Binary) (left right : Except Error α) : Except Error α := do
  let v ← left
  let w ← right
  r.binary op v w

/-- The meaning of a phrase. -/
def meaning (sem : Semantics α) : {k : Level} → Phrase k → Except Error α
  | _, .number digits => do return sem.number (← Literal.value digits)
  | _, .text s => .ok (sem.text s)
  | _, .named name => sem.resolve name
  | _, .group inner => inner.meaning sem
  | _, .call f _ _ argument => do sem.function f (← argument.meaning sem)
  | _, .atom a | _, .factor a | _, .term a | _, .single a => a.meaning sem
  | _, .minus a => do sem.function .opp (← a.meaning sem)
  | _, .product left op _ right =>
    combine sem.toReducer op (left.meaning sem) (right.meaning sem)
  | _, .sum left op _ right => combine sem.toReducer op (left.meaning sem) (right.meaning sem)
  | _, .join left right => combine sem.toReducer .comma (left.meaning sem) (right.meaning sem)

/-! ## The inputs of a phrase -/

/-- What the machine is fed for the words of a phrase. -/
def inputs (sem : Semantics α) : {k : Level} → Phrase k → List (Input α)
  | _, .number digits => [.operand (do return sem.number (← Literal.value digits))]
  | _, .text s => [.operand (.ok (sem.text s))]
  | _, .named name => [.operand (sem.resolve name)]
  | _, .group inner =>
    .operator (.bracket .left) :: inner.inputs sem ++ [.operator (.bracket .right)]
  | _, .call f _ _ argument =>
    .operator (.function f) :: .operator (.bracket .left) :: argument.inputs sem ++
      [.operator (.bracket .right)]
  | _, .atom a | _, .factor a | _, .term a | _, .single a => a.inputs sem
  | _, .minus a => .operator .opposite :: a.inputs sem
  | _, .product left op _ right =>
    left.inputs sem ++ .operator (.binary op) :: right.inputs sem
  | _, .sum left op _ right => left.inputs sem ++ .operator (.binary op) :: right.inputs sem
  | _, .join left right => left.inputs sem ++ .operator (.binary .comma) :: right.inputs sem

/-- How the inputs of a phrase hold together, by the level of the phrase. -/
def HoldsTogether (r : Reducer α) : Level → List (Input α) → Except Error α → Prop
  | .listing => Computes r (-1)
  | .sum => Computes r 1
  | .term => Computes r 2
  | .factor | .atom => ComputesTight r

/-- The inputs of a phrase compute its meaning. -/
theorem holdsTogether (sem : Semantics α) (t : Phrase k) :
    HoldsTogether sem.toReducer k (t.inputs sem) (t.meaning sem) := by
  -- each level holds together at its own precedence, which is what the level above asks for
  induction t with
  | number digits =>
    exact computesTight_operand _ _
  | text s =>
    exact computesTight_operand _ _
  | named name =>
    exact computesTight_operand _ _
  | group inner ih =>
    exact ih.bracket
  | call f spelling spells argument ih =>
    exact ih.call f
  | atom a ih =>
    exact ih
  | minus a ih =>
    exact ih.opposite
  | factor a ih =>
    exact ih.computes (by decide)
  | product left op multiplies right ihl ihr =>
    -- a factor may begin with a minus, which binds as tight as the operator
    have hop : op.precedence = 2 := by
      rcases multiplies with rfl | rfl | rfl <;> rfl
    have h := Computes.binary_tight ihl op (Int.le_of_eq hop) ihr
    rwa [hop] at h
  | term a ih =>
    exact Computes.mono ih (by decide)
  | sum left op adds right ihl ihr =>
    have hop : op.precedence = 1 := by
      rcases adds with rfl | rfl <;> rfl
    have h := Computes.binary ihl op (Int.le_of_eq hop) ihr (by rw [hop]; decide)
    rwa [hop] at h
  | single a ih =>
    exact Computes.mono ih (by decide)
  | join left right ihl ihr =>
    exact Computes.binary ihl .comma (by decide) ihr (by decide)

/-! ## Reading the words -/

/-- An evaluation in which an operand is expected next. -/
def expecting (s : State α) : Evaluation α := ⟨s, true, none⟩

/-- An evaluation behind a complete operand. -/
def complete (s : State α) : Evaluation α := ⟨s, false, none⟩

theorem feed_operator (sem : Semantics α) {t : Token} {op : Operator} (s : State α)
    (h : role t = .operator op) :
    feed sem (complete s) t =
      advance sem.toReducer op s >>= fun s => .ok ⟨s, opensOperand op, none⟩ := by
  rw [feed_of_marker_none sem t rfl, feedPlain_eq, h]
  exact feedOperator_eq_advance _ _ _ (by simp [complete])

theorem feed_leading (sem : Semantics α) {t : Token} {op : Operator} (s : State α)
    (h : role t = .operator op) (hop : op ≠ .minus) :
    feed sem (expecting s) t =
      advance sem.toReducer op s >>= fun s => .ok ⟨s, opensOperand op, none⟩ := by
  rw [feed_of_marker_none sem t rfl, feedPlain_eq, h]
  exact feedOperator_eq_advance _ _ _ (by simp [hop])

theorem feed_minus (sem : Semantics α) {t : Token} (s : State α)
    (h : role t = .operator .minus) :
    feed sem (expecting s) t = .ok (expecting (s.withOperator .opposite)) := by
  rw [feed_of_marker_none sem t rfl, feedPlain_eq, h]
  exact feedOperator_minus _ _ rfl

theorem role_of_word_symbol {t : Token} {op : Operator} (h : t.word = (.symbol, op.spelling))
    (hop : op.isFunction = false) : role t = .operator op := by
  obtain ⟨kind, text, position⟩ := t
  obtain ⟨rfl, rfl⟩ := Prod.mk.inj h
  exact role_symbol position (Operator.lookup?_spelling op) hop

/-- Two phrases with an operator between them, once each of them is known to be read. -/
theorem foldlM_feed_binary (sem : Semantics α) (op : Binary)
    {lefts rights : List (Input α)} {leftWords rightWords : List (TokenKind × String)}
    (ihl : ∀ (s : State α) (ts : List Token), ts.map Token.word = leftWords →
      ts.foldlM (feed sem) (expecting s) =
        feedAll sem.toReducer s lefts >>= fun s => .ok (complete s))
    (ihr : ∀ (s : State α) (ts : List Token), ts.map Token.word = rightWords →
      ts.foldlM (feed sem) (expecting s) =
        feedAll sem.toReducer s rights >>= fun s => .ok (complete s))
    (s : State α) (ts : List Token)
    (hts : ts.map Token.word = leftWords ++ (.symbol, op.spelling) :: rightWords) :
    ts.foldlM (feed sem) (expecting s) =
      feedAll sem.toReducer s (lefts ++ .operator (.binary op) :: rights) >>= fun s =>
        .ok (complete s) := by
  -- cut the tokens at the operator
  obtain ⟨ls, rest, rfl, hls, hrest⟩ := List.map_eq_append_iff.1 hts
  obtain ⟨t, rs, rfl, ht, hrs⟩ := List.map_eq_cons_iff.1 hrest
  have hrole : role t = .operator (.binary op) := role_of_word_symbol ht rfl
  rw [List.foldlM_append, ihl s ls hls, feedAll_append, bind_assoc, bind_assoc]
  congr 1
  funext u
  rw [feedAll_cons, Except.bind_ok, List.foldlM_cons, feed_operator sem u hrole, bind_assoc,
    bind_assoc]
  congr 1
  funext u
  exact ihr u rs hrs

/-- A list in brackets, once the list is known to be read. -/
theorem foldlM_feed_bracket (sem : Semantics α) {inner : List (Input α)}
    {innerWords : List (TokenKind × String)}
    (ih : ∀ (s : State α) (ts : List Token), ts.map Token.word = innerWords →
      ts.foldlM (feed sem) (expecting s) =
        feedAll sem.toReducer s inner >>= fun s => .ok (complete s))
    (s : State α) (ts : List Token)
    (hts : ts.map Token.word = leftBracket :: innerWords ++ [rightBracket]) :
    ts.foldlM (feed sem) (expecting s) =
      feedAll sem.toReducer s (.operator (.bracket .left) :: inner ++
        [.operator (.bracket .right)]) >>= fun s => .ok (complete s) := by
  -- cut off the brackets at both ends
  obtain ⟨l, rest, rfl, hl, hrest⟩ := List.map_eq_cons_iff.1 hts
  obtain ⟨is, closing, rfl, his, hclosing⟩ := List.map_eq_append_iff.1 hrest
  obtain ⟨c, rfl, hc⟩ := List.map_eq_singleton_iff.1 hclosing
  have hleft : role l = .operator (.bracket .left) := role_of_word_symbol hl rfl
  have hright : role c = .operator (.bracket .right) := role_of_word_symbol hc rfl
  rw [List.foldlM_cons, feed_leading sem s hleft (by decide)]
  change ((is ++ [c]).foldlM (feed sem) (expecting (s.withOperator (.bracket .left)))) =
    feedAll sem.toReducer (s.withOperator (.bracket .left))
      (inner ++ [.operator (.bracket .right)]) >>= fun s => .ok (complete s)
  rw [List.foldlM_append, ih _ is his, feedAll_append, bind_assoc, bind_assoc]
  congr 1
  funext u
  rw [Except.bind_ok, List.foldlM_cons, feed_operator sem u hright, feedAll_singleton, bind_assoc]
  rfl

/-- Reading the words of a phrase feeds its inputs to the machine. -/
theorem foldlM_feed (sem : Semantics α) (t : Phrase k) :
    ∀ (s : State α) (ts : List Token), ts.map Token.word = t.words →
      ts.foldlM (feed sem) (expecting s) =
        feedAll sem.toReducer s (t.inputs sem) >>= fun s => .ok (complete s) := by
  -- every phrase starts where an operand is expected, and there is none expected behind it
  induction t with
  | number digits =>
    intro s ts hts
    obtain ⟨⟨kind, content, position⟩, rfl, hword⟩ := List.map_eq_singleton_iff.1 hts
    obtain ⟨rfl, rfl⟩ := Prod.mk.inj hword
    rw [List.foldlM_cons, feed_of_marker_none sem _ rfl, feedPlain_eq, role_number, inputs,
      feedAll_singleton, feedInput]
    simp only [bind_assoc]
    rfl
  | text content =>
    intro s ts hts
    obtain ⟨⟨kind, content, position⟩, rfl, hword⟩ := List.map_eq_singleton_iff.1 hts
    obtain ⟨rfl, rfl⟩ := Prod.mk.inj hword
    rw [List.foldlM_cons, feed_of_marker_none sem _ rfl, feedPlain_eq, role_text]
    rfl
  | named name =>
    intro s ts hts
    obtain ⟨⟨kind, content, position⟩, rest, rfl, hword, hrest⟩ := List.map_eq_cons_iff.1 hts
    obtain ⟨⟨kind', content', position'⟩, rfl, hword'⟩ := List.map_eq_singleton_iff.1 hrest
    obtain ⟨rfl, rfl⟩ := Prod.mk.inj hword
    obtain ⟨rfl, rfl⟩ := Prod.mk.inj hword'
    -- the marker only waits for the name, which has no role of its own
    have hmarker : role ⟨.symbol, Token.variableMarker, position⟩ = .marker := rfl
    rw [List.foldlM_cons, feed_of_marker_none sem _ rfl, feedPlain_eq, hmarker]
    simp only [Except.bind_ok]
    rw [List.foldlM_cons, feed_of_marker_some sem _ rfl, if_pos rfl, inputs, feedAll_singleton,
      feedInput, bind_assoc, bind_assoc]
    rfl
  | group inner ih =>
    exact foldlM_feed_bracket sem ih
  | call f spelling spells argument ih =>
    intro s ts hts
    obtain ⟨⟨kind, content, position⟩, rest, rfl, hword, hrest⟩ := List.map_eq_cons_iff.1 hts
    obtain ⟨rfl, rfl⟩ := Prod.mk.inj hword
    -- the name only waits for its bracket
    rw [List.foldlM_cons, feed_leading sem s (role_name position spells) (by simp [Operator.minus])]
    exact foldlM_feed_bracket sem ih (s.withOperator (.function f)) rest hrest
  | atom a ih =>
    exact ih
  | minus a ih =>
    intro s ts hts
    obtain ⟨t, rest, rfl, ht, hrest⟩ := List.map_eq_cons_iff.1 hts
    -- where an operand is expected, the minus stands for the function
    have hrole : role t = .operator .minus := role_of_word_symbol ht rfl
    rw [List.foldlM_cons, feed_minus sem s hrole]
    exact ih (s.withOperator .opposite) rest hrest
  | factor a ih =>
    exact ih
  | product left op multiplies right ihl ihr =>
    exact foldlM_feed_binary sem op ihl ihr
  | term a ih =>
    exact ih
  | sum left op adds right ihl ihr =>
    exact foldlM_feed_binary sem op ihl ihr
  | single a ih =>
    exact ih
  | join left right ihl ihr =>
    exact foldlM_feed_binary sem .comma ihl ihr

/-- An evaluation of the words of a list comes to the meaning of the list, whatever the operands are
taken to mean. -/
theorem ofReading_words (sem : Semantics α) (t : Phrase .listing) {ts : List Token}
    (hts : ts.map Token.word = t.words) : ofReading sem ⟨ts, none⟩ = t.meaning sem := by
  have hconclude : ∀ s : State α, (complete s).conclude sem =
      settle sem.toReducer Operator.executable s >>= final := by
    intro s
    exact conclude_of_marker_none sem rfl
  have hstart : (start : Evaluation α) = expecting .empty := rfl
  rw [ofReading_eq, hstart, t.foldlM_feed sem _ ts hts, bind_assoc]
  simp only [Except.bind_ok, hconclude]
  exact Computes.final (t.holdsTogether sem)

theorem map_word_tokens (t : Phrase k) (position : Nat → Int) :
    (t.tokens position).map Token.word = t.words := by
  refine List.ext_getElem (by simp [tokens]) ?_
  intro i h h'
  simp [tokens, Token.word]

/-- The value of the tokens of an infix expression is the value of its tree. -/
theorem evaluateTokens_tokens [Capacity] (t : Phrase .listing) (position : Nat → Int)
    (b : Bindings) :
    evaluateTokens (t.tokens position) b = t.meaning (Semantics.direct .unknownVariable b) :=
  t.ofReading_words _ (t.map_word_tokens position)

end Phrase

end Reckon
