import Reckon.Proofs.Evaluation.Trace
import Reckon.Proofs.Machine.Ledger

/-!
# Piece — what a token is in its place

A minus sign stands between two operands or in front of one, and a name is a variable behind a
marker and a function elsewhere.  Which of them it is depends on nothing but the token in front.  So
a list of tokens can be read as a list of pieces before anything is evaluated, and the books of an
evaluation can be kept in terms of these pieces.

* `Piece`, `pieces` — the pieces of a token list;
* `Piece.Behind` — what an evaluation knows about the piece that it has seen last;
* `Piece.entry_of_feed`, `Piece.ledger_of_foldlM` — what is known behind a token, and behind a list.
-/

namespace Reckon

/-- What a token is in its place. -/
inductive Piece where
  | literal
  | marker
  /-- The name of a variable, behind its marker. -/
  | name
  /-- A minus sign in front of an operand. -/
  | minus
  | binary (op : Binary)
  | opening
  | closing
  | function (f : Function)
  /-- A token that has no meaning in its place. -/
  | unknown
  deriving DecidableEq, Repr

namespace Piece

/-- Whether an operand may begin with a piece. -/
def startsOperand : Piece → Bool
  | .literal | .marker | .minus | .opening | .function _ => true
  | _ => false

/-- Whether an operand ends with a piece. -/
def endsOperand : Piece → Bool
  | .literal | .name | .closing => true
  | _ => false

/-- Whether a piece is an operand by itself. -/
def isOperand : Piece → Bool
  | .literal | .name => true
  | _ => false

def isBinary : Piece → Bool
  | .binary _ => true
  | _ => false

/-- The operator that comes in with a piece. -/
def operator? : Piece → Option Operator
  | .minus => some .opposite
  | .binary op => some (.binary op)
  | .opening => some .leftBracket
  | .closing => some .rightBracket
  | .function f => some (.function f)
  | _ => none

/-- What an operator is, behind an operand or where an operand is expected. -/
def ofOperator (behindOperand : Bool) : Operator → Piece
  | .binary .sub => if behindOperand then .binary .sub else .minus
  | .binary op => .binary op
  | .bracket .left => .opening
  | .bracket .right => .closing
  | .function f => .function f

/-- What a token is behind the piece `prev`, or at the start. -/
def of (prev : Option Piece) (t : Token) : Piece :=
  if prev = some .marker then
    if t.kind = .name then .name else .unknown
  else
    match Evaluation.role t with
    | .number | .text => .literal
    | .marker => .marker
    | .operator op => ofOperator (prev.any endsOperand) op
    | .unsupported => .unknown

/-- What tokens are behind the piece `prev`, or at the start. -/
def piecesFrom (prev : Option Piece) : List Token → List Piece
  | [] => []
  | t :: ts => of prev t :: piecesFrom (some (of prev t)) ts

/-- The piece that stands last, if the pieces `ps` stand behind `prev`. -/
def last (prev : Option Piece) (ps : List Piece) : Option Piece :=
  (prev.toList ++ ps).getLast?

/-- The operators that come in with some pieces. -/
def operators (ps : List Piece) : List Operator :=
  ps.filterMap operator?

end Piece

/-- What the tokens of a list are. -/
def pieces (ts : List Token) : List Piece :=
  Piece.piecesFrom none ts

namespace Piece

open Evaluation Machine

variable {α : Type}

theorem last_cons (prev : Option Piece) (p : Piece) (ps : List Piece) :
    last prev (p :: ps) = last (some p) ps := by
  cases prev <;> simp [last, List.getLast?_cons_cons]

theorem operators_append (ps qs : List Piece) :
    operators (ps ++ qs) = operators ps ++ operators qs :=
  List.filterMap_append

/-- Of the operators that come in, those between operands make one operand out of two. -/
theorem countP_operators (ps : List Piece) :
    ((operators ps).filter Operator.executable).countP Operator.isBinary = ps.countP isBinary := by
  induction ps with
  | nil =>
    rfl
  | cons p ps ih =>
    have hhead : ((operators [p]).filter Operator.executable).countP Operator.isBinary =
        [p].countP isBinary := by
      cases p <;> rfl
    have hcons : p :: ps = [p] ++ ps := rfl
    rw [hcons, operators_append, List.filter_append, List.countP_append, List.countP_append, hhead,
      ih]

/-! ## Operators in their place -/

theorem operator?_ofOperator {behindOperand : Bool} {op : Operator}
    (h : ¬(op = .minus ∧ behindOperand = false)) :
    (ofOperator behindOperand op).operator? = some op := by
  rcases op with (_ | _ | _ | _ | _ | _) | (_ | _) | f
  case binary.sub =>
    cases behindOperand with
    | true =>
      rfl
    | false =>
      exact absurd ⟨rfl, rfl⟩ h
  all_goals rfl

theorem isOperand_ofOperator (behindOperand : Bool) (op : Operator) :
    (ofOperator behindOperand op).isOperand = false := by
  rcases op with (_ | _ | _ | _ | _ | _) | (_ | _) | f
  case binary.sub =>
    cases behindOperand <;> rfl
  all_goals rfl

/-- Behind every operator but a right bracket an operand is expected. -/
theorem endsOperand_ofOperator (behindOperand : Bool) (op : Operator) :
    (ofOperator behindOperand op).endsOperand = !opensOperand op := by
  rcases op with (_ | _ | _ | _ | _ | _) | (_ | _) | f
  case binary.sub =>
    cases behindOperand <;> rfl
  all_goals rfl

theorem ofOperator_ne (behindOperand : Bool) (op : Operator) :
    ofOperator behindOperand op ≠ .marker ∧ ofOperator behindOperand op ≠ .name ∧
      ofOperator behindOperand op ≠ .unknown := by
  rcases op with (_ | _ | _ | _ | _ | _) | (_ | _) | f
  case binary.sub =>
    cases behindOperand <;> decide
  all_goals exact ⟨nofun, nofun, nofun⟩

theorem behind_of_ofOperator {behindOperand : Bool} {op : Operator}
    (h : ofOperator behindOperand op = .minus) : behindOperand = false := by
  rcases op with (_ | _ | _ | _ | _ | _) | (_ | _) | f
  case binary.sub =>
    cases behindOperand with
    | true =>
      cases h
    | false =>
      rfl
  all_goals cases h

/-! ## Evaluations and pieces -/

/-- What an evaluation knows about the piece that it has seen last. -/
structure Behind (prev : Option Piece) (e : Evaluation α) : Prop where
  marker : e.marker.isSome = true ↔ prev = some .marker
  awaitsOperand : e.marker = none → e.awaitsOperand = !prev.any endsOperand

theorem behind_start : Behind none (start : Evaluation α) :=
  ⟨by simp [start], fun _ => rfl⟩

theorem Behind.of_marker_none {prev : Option Piece} {e : Evaluation α} (h : Behind prev e)
    (he : e.marker = none) : prev ≠ some .marker := by
  intro hprev
  have hsome := h.marker.2 hprev
  rw [he] at hsome
  cases hsome

/-- A token that is read, in its place: it has a meaning there, and what comes in with it is on the
books. -/
structure Entry (prev : Option Piece) (t : Token) (e : Evaluation α) (steps : List (Step α))
    (f : Evaluation α) : Prop where
  known : of prev t ≠ .unknown
  behind : Behind (some (of prev t)) f
  ledger : Ledger e.state (operators [of prev t]) ([of prev t].countP isOperand) steps f.state

theorem properties_of_isOperand {p : Piece} (h : p.isOperand = true) :
    p ≠ .unknown ∧ p ≠ .marker ∧ p.endsOperand = true ∧ operators [p] = [] := by
  cases p with
  | literal | name =>
    decide
  | marker | minus | binary op | opening | closing | function f | unknown =>
    cases h

/-- An operand comes in, behind which a minus sign stands between operands. -/
theorem Entry.operand {prev : Option Piece} {t : Token} {e : Evaluation α} {steps : List (Step α)}
    (ht : (of prev t).isOperand = true) (hsteps : executed steps = []) (v : α) :
    Entry prev t e steps (e.withOperand v) := by
  obtain ⟨hknown, hmarker, hends, hnone⟩ := properties_of_isOperand ht
  refine ⟨hknown, ⟨by simp [withOperand, hmarker], fun _ => by simp [withOperand, hends]⟩, ?_⟩
  have hone : [of prev t].countP isOperand = 1 := by
    simp [ht]
  rw [hnone, hone]
  exact Ledger.withOperand e.state v hsteps

theorem entry_of_named {sem : Semantics α} {prev : Option Piece} {e f : Evaluation α} {t m : Token}
    (hprev : prev = some .marker) (hmarker : e.marker = some m)
    (h : (tracedFeed sem e t).result = .ok f) : Entry prev t e (tracedFeed sem e t).steps f := by
  simp only [tracedFeed, hmarker] at h ⊢
  split at h
  · rename_i hname
    have ht : (of prev t).isOperand = true := by
      rw [of, if_pos hprev, if_pos hname]
      rfl
    obtain ⟨v, hresolve, hpush, hsteps⟩ := Traced.exists_of_result_bind h
    cases hpush
    rw [if_pos hname]
    exact .operand ht (hsteps ▸ rfl) v
  · cases h

theorem entry_of_operator {sem : Semantics α} {prev : Option Piece} {e f : Evaluation α} {t : Token}
    {op : Operator} (hprev : Behind prev e) (hmarker : e.marker = none)
    (hrole : role t = .operator op) (h : (tracedFeed sem e t).result = .ok f) :
    Entry prev t e (tracedFeed sem e t).steps f := by
  have ht : of prev t = ofOperator (prev.any endsOperand) op := by
    rw [of, if_neg (hprev.of_marker_none hmarker), hrole]
  have hawaits := hprev.awaitsOperand hmarker
  simp only [tracedFeed, hmarker, tracedFeedPlain, hrole] at h ⊢
  by_cases hminus : op = .minus ∧ e.awaitsOperand = true
  · rw [if_pos hminus] at h ⊢
    cases h
    obtain ⟨rfl, htrue⟩ := hminus
    have hfalse : prev.any endsOperand = false := by
      simpa [htrue] using hawaits.symm
    rw [hfalse] at ht
    have ht : of prev t = .minus := ht
    refine ⟨by simp [ht], ⟨by simp [ht], fun _ => ?_⟩, ?_⟩
    · rw [ht]
      rfl
    · rw [ht]
      exact .withOperator e.state .opposite (by decide)
  · rw [if_neg hminus] at h ⊢
    obtain ⟨s, hadvance, hpush, hsteps⟩ := Traced.exists_of_result_bind h
    cases hpush
    have hin : (of prev t).operator? = some op := by
      rw [ht]
      refine operator?_ofOperator ?_
      rintro ⟨hop, hfalse⟩
      exact hminus ⟨hop, by rw [hawaits, hfalse]; rfl⟩
    have hcount : (of prev t).isOperand = false := by
      rw [ht, isOperand_ofOperator]
    obtain ⟨hnomarker, -, hknown⟩ := ofOperator_ne (prev.any endsOperand) op
    rw [← ht] at hnomarker hknown
    refine ⟨hknown, ⟨by simp [hnomarker], fun _ => ?_⟩, ?_⟩
    · simp [ht, endsOperand_ofOperator]
    · rw [hsteps]
      simpa [operators, hin, hcount] using ledger_advance hadvance

/-- What is read has a meaning in its place. -/
theorem entry_of_feed {sem : Semantics α} {prev : Option Piece} {e f : Evaluation α} {t : Token}
    (hprev : Behind prev e) (h : (tracedFeed sem e t).result = .ok f) :
    Entry prev t e (tracedFeed sem e t).steps f := by
  cases hmarker : e.marker with
  | some m =>
    exact entry_of_named (hprev.marker.1 (by simp [hmarker])) hmarker h
  | none =>
    have hnot := hprev.of_marker_none hmarker
    cases hrole : role t with
    | operator op =>
      exact entry_of_operator hprev hmarker hrole h
    | number =>
      have ht : (of prev t).isOperand = true := by
        rw [of, if_neg hnot, hrole]
        rfl
      simp only [tracedFeed, hmarker, tracedFeedPlain, hrole] at h ⊢
      obtain ⟨x, hvalue, hpush, hsteps⟩ := Traced.exists_of_result_bind h
      cases hpush
      exact .operand ht (hsteps ▸ rfl) _
    | text =>
      have ht : (of prev t).isOperand = true := by
        rw [of, if_neg hnot, hrole]
        rfl
      simp only [tracedFeed, hmarker, tracedFeedPlain, hrole] at h ⊢
      cases h
      exact .operand ht rfl _
    | marker =>
      have ht : of prev t = .marker := by
        rw [of, if_neg hnot, hrole]
      simp only [tracedFeed, hmarker, tracedFeedPlain, hrole] at h ⊢
      cases h
      refine ⟨by simp [ht], ⟨by simp [ht], ?_⟩, ?_⟩
      · intro hnone
        cases hnone
      · rw [ht]
        exact .refl _
    | unsupported =>
      simp only [tracedFeed, hmarker, tracedFeedPlain, hrole] at h
      cases h

/-- Tokens that are read have a meaning, each in its place, and what comes in with them is on the
books. -/
theorem ledger_of_foldlM {sem : Semantics α} {prev : Option Piece} {ts : List Token}
    {e f : Evaluation α} (hprev : Behind prev e)
    (h : (ts.foldlM (tracedFeed sem) e).result = .ok f) :
    .unknown ∉ piecesFrom prev ts ∧ Behind (last prev (piecesFrom prev ts)) f ∧
      Ledger e.state (operators (piecesFrom prev ts)) ((piecesFrom prev ts).countP isOperand)
        (ts.foldlM (tracedFeed sem) e).steps f.state := by
  induction ts generalizing prev e with
  | nil =>
    cases h
    refine ⟨nofun, ?_, .refl _⟩
    cases prev <;> exact hprev
  | cons t ts ih =>
    rw [List.foldlM_cons] at h
    obtain ⟨e', hfeed, hrest, hsteps⟩ := Traced.exists_of_result_bind h
    obtain ⟨hknown, hbehind, hledger⟩ := entry_of_feed hprev hfeed
    obtain ⟨hknown', hbehind', hledger'⟩ := ih hbehind hrest
    rw [List.foldlM_cons, hsteps, piecesFrom]
    refine ⟨?_, ?_, ?_⟩
    · rw [List.mem_cons, not_or]
      exact ⟨hknown.symm, hknown'⟩
    · rw [last_cons]
      exact hbehind'
    · have hboth := hledger.trans hledger'
      rwa [← operators_append, ← List.countP_append] at hboth

end Piece

end Reckon
