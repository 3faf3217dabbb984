import Reckon.Proofs.Evaluation.Surplus

/-!
# Adjacency — which token lists have a value

The machine counts operands; it does not look at what stands next to what.  So a list of tokens may
have a value although it is no infix expression: `1 2 +` is three.  What the counting does guarantee
is that the defects make up for each other.  If two operands stand next to each other somewhere, one
is missing somewhere else, and a list in which no operand directly follows another is infix.

* `Piece.IsInfix` — the tokens of an infix expression, described by what stands next to what;
* `Piece.juxtapositions`, `Piece.omissions` — how often an operand directly follows another, and how
  often one is missing;
* `Piece.omissions_law` — the difference between the two, by counting pieces;
* `infix_of_value` — what is known about the tokens if there is a value.
-/

namespace Reckon
namespace Piece

open Evaluation Machine

/-- Every closing bracket has its partner in front of it, and every opening one behind it. -/
structure Balanced (ps : List Piece) : Prop where
  opened : ∀ before, before <+: ps → before.count .closing ≤ before.count .opening
  closed : ps.count .closing = ps.count .opening

/-- Every marker is directly followed by the name of a variable. -/
def Named (ps : List Piece) : Prop :=
  ∀ before after, ps = before ++ .marker :: after → after.head? = some .name

/-- No operand is directly followed by the start of another one. -/
def Separated (ps : List Piece) : Prop :=
  ∀ before p q after, ps = before ++ p :: q :: after → p.endsOperand = true →
    q.startsOperand = false

/-- Pieces that stand next to each other as in an infix expression. -/
structure IsInfix (ps : List Piece) : Prop where
  balanced : Balanced ps
  named : Named ps
  between : ∀ before op after, ps = before ++ .binary op :: after →
    before.getLast?.any endsOperand = true ∧ after.head?.any startsOperand = true
  separated : Separated ps
  filled : ∀ before p after, ps = before ++ p :: .closing :: after → p.endsOperand = true

/-! ## Counting -/

/-- Whether a piece has an operand directly in front of it in an infix expression. -/
def needsOperand : Piece → Bool
  | .binary _ | .closing => true
  | _ => false

/-- How often the start of an operand directly follows an operand, behind `prev`. -/
def juxtapositions (prev : Option Piece) : List Piece → Nat
  | [] => 0
  | p :: ps =>
    (prev.any endsOperand && p.startsOperand).toNat + juxtapositions (some p) ps

/-- How often an operand is missing, behind `prev`: in front of an operator, in front of a closing
bracket, or at the end. -/
def omissions (prev : Option Piece) : List Piece → Nat
  | [] => (!prev.any endsOperand).toNat
  | p :: ps => (!prev.any endsOperand && p.needsOperand).toNat + omissions (some p) ps

theorem of_eq_minus {prev : Option Piece} {t : Token} (h : of prev t = .minus) :
    prev.any endsOperand = false := by
  unfold of at h
  split at h
  · split at h <;> cases h
  · split at h
    · cases h
    · cases h
    · cases h
    · exact behind_of_ofOperator h
    · cases h

theorem of_eq_name {prev : Option Piece} {t : Token} (h : of prev t = .name) :
    prev = some .marker := by
  unfold of at h
  split at h
  · assumption
  · split at h
    · cases h
    · cases h
    · cases h
    · exact absurd h (ofOperator_ne _ _).2.1
    · cases h

/-- Behind a marker nothing has a meaning but the name of a variable. -/
theorem of_marker (t : Token) : of (some .marker) t = .name ∨ of (some .marker) t = .unknown := by
  unfold of
  rw [if_pos rfl]
  split
  · exact Or.inl rfl
  · exact Or.inr rfl

/-- Each piece settles what it changes: the operand in front of it is used, or is followed by the
start of another one, or is missing. -/
theorem law_of {prev : Option Piece} {t : Token} (hknown : of prev t ≠ .unknown) :
    (prev.any endsOperand).toNat + (of prev t).isOperand.toNat +
        (!prev.any endsOperand && (of prev t).needsOperand).toNat =
      (of prev t).endsOperand.toNat + (of prev t).isBinary.toNat +
        (prev.any endsOperand && (of prev t).startsOperand).toNat := by
  cases hof : of prev t with
  | unknown =>
    exact absurd hof hknown
  | minus =>
    rw [of_eq_minus hof]
    rfl
  | name =>
    rw [of_eq_name hof]
    rfl
  | literal | marker | opening | function f | binary op | closing =>
    cases prev.any endsOperand <;> rfl

/-- The operands that are missing, against those that directly follow another one. -/
theorem omissions_law {prev : Option Piece} {ts : List Token}
    (hknown : .unknown ∉ piecesFrom prev ts) :
    (prev.any endsOperand).toNat + (piecesFrom prev ts).countP isOperand +
        omissions prev (piecesFrom prev ts) =
      (piecesFrom prev ts).countP isBinary + 1 + juxtapositions prev (piecesFrom prev ts) := by
  -- along the tokens: the law for one piece is the difference that its token makes
  induction ts generalizing prev with
  | nil =>
    cases h : prev.any endsOperand <;> simp [piecesFrom, omissions, juxtapositions, h]
  | cons t ts ih =>
    rw [piecesFrom, List.mem_cons, not_or] at hknown
    have hfirst := law_of (Ne.symm hknown.1)
    have hrest := ih hknown.2
    rw [Option.any_some] at hrest
    have htoNat : ∀ b : Bool, (if b = true then 1 else 0) = b.toNat := by
      decide
    simp only [piecesFrom, omissions, juxtapositions, List.countP_cons, htoNat]
    omega

/-! ## What stands next to what -/

variable {prev : Option Piece} {ts : List Token} {ps before after : List Piece} {p : Piece}

theorem last_nil (prev : Option Piece) : last prev [] = prev := by
  cases prev <;> rfl

theorem last_concat (prev : Option Piece) (ps : List Piece) (p : Piece) :
    last prev (ps ++ [p]) = some p := by
  simp [last, ← List.append_assoc]

/-- A piece is what its token is behind the piece in front. -/
theorem exists_of_mem (h : piecesFrom prev ts = before ++ p :: after) :
    ∃ t, p = of (last prev before) t := by
  induction before generalizing prev ts with
  | nil =>
    cases ts with
    | nil =>
      cases h
    | cons t ts =>
      rw [last_nil]
      exact ⟨t, (List.cons.inj h).1.symm⟩
  | cons q before ih =>
    cases ts with
    | nil =>
      cases h
    | cons t ts =>
      obtain ⟨hhead, htail⟩ := List.cons.inj h
      rw [hhead] at htail
      rw [last_cons]
      exact ih htail

theorem endsOperand_of_omissions (h : omissions prev (before ++ p :: after) = 0)
    (hp : p.needsOperand = true) : (last prev before).any endsOperand = true := by
  induction before generalizing prev with
  | nil =>
    have hfirst := (Nat.add_eq_zero_iff.1 h).1
    rw [last_nil]
    cases hprev : prev.any endsOperand with
    | true =>
      rfl
    | false =>
      rw [hprev, hp] at hfirst
      cases hfirst
  | cons q before ih =>
    rw [last_cons]
    exact ih (Nat.add_eq_zero_iff.1 h).2

theorem endsOperand_last (h : omissions prev ps = 0) : (last prev ps).any endsOperand = true := by
  induction ps generalizing prev with
  | nil =>
    rw [last_nil]
    cases hprev : prev.any endsOperand with
    | true =>
      rfl
    | false =>
      rw [omissions, hprev] at h
      cases h
  | cons p ps ih =>
    rw [last_cons]
    exact ih (Nat.add_eq_zero_iff.1 h).2

theorem separated_cons :
    Separated (p :: ps) ↔ (p.endsOperand = true → ps.head?.any startsOperand = false) ∧
      Separated ps := by
  constructor
  · intro h
    refine ⟨?_, ?_⟩
    · intro hp
      cases ps with
      | nil =>
        rfl
      | cons q ps =>
        exact h [] p q ps rfl hp
    · intro before q r after hps
      exact h (p :: before) q r after (congrArg (p :: ·) hps)
  · rintro ⟨hhead, htail⟩ before q r after hps hq
    cases before with
    | nil =>
      obtain ⟨rfl, rfl⟩ := List.cons.inj hps
      exact hhead hq
    | cons x before =>
      exact htail before q r after (List.cons.inj hps).2 hq

theorem juxtapositions_eq_zero_iff :
    juxtapositions prev ps = 0 ↔
      (prev.any endsOperand = true → ps.head?.any startsOperand = false) ∧ Separated ps := by
  induction ps generalizing prev with
  | nil =>
    exact ⟨fun _ => ⟨fun _ => rfl, by rintro (_ | _) _ _ _ ⟨⟩⟩, fun _ => rfl⟩
  | cons p ps ih =>
    have hfirst : (prev.any endsOperand && p.startsOperand).toNat = 0 ↔
        (prev.any endsOperand = true → p.startsOperand = false) := by
      cases prev.any endsOperand <;> cases p.startsOperand <;> decide
    rw [juxtapositions, Nat.add_eq_zero_iff, hfirst, ih, Option.any_some, separated_cons]
    exact Iff.rfl

/-- A marker that is not the last piece is followed by a name. -/
theorem named_of_known (hknown : .unknown ∉ pieces ts)
    (hlast : (pieces ts).getLast? ≠ some .marker) : Named (pieces ts) := by
  intro before after hpieces
  cases after with
  | nil =>
    exact absurd (by rw [hpieces, List.getLast?_concat]) hlast
  | cons q after =>
    have hsplit : pieces ts = (before ++ [.marker]) ++ q :: after := by
      simpa using hpieces
    obtain ⟨t, rfl⟩ := exists_of_mem hsplit
    rw [last_concat] at hsplit ⊢
    rcases of_marker t with hname | hunknown
    · exact congrArg some hname
    · refine absurd ?_ hknown
      rw [hsplit, hunknown]
      simp

/-- Without an omission, what stands behind an operator is the start of an operand. -/
theorem startsOperand_of_omissions {op : Binary} (hknown : .unknown ∉ pieces ts)
    (h : omissions none (pieces ts) = 0) (hpieces : pieces ts = before ++ .binary op :: after) :
    after.head?.any startsOperand = true := by
  cases after with
  | nil =>
    have hend := endsOperand_last h
    rw [hpieces, last_concat] at hend
    cases hend
  | cons q after =>
    have hsplit : pieces ts = (before ++ [.binary op]) ++ q :: after := by
      simpa using hpieces
    obtain ⟨t, ht⟩ := exists_of_mem hsplit
    rw [last_concat] at ht
    have hneeds : q.needsOperand = false := by
      rw [Bool.eq_false_iff]
      intro hneeds
      rw [hsplit] at h
      have hends := endsOperand_of_omissions h hneeds
      rw [last_concat] at hends
      cases hends
    have hne : q ≠ .unknown := by
      rintro rfl
      exact hknown (by simp [hpieces])
    cases q with
    | name =>
      cases of_eq_name ht.symm
    | unknown =>
      exact absurd rfl hne
    | binary op' =>
      cases hneeds
    | closing =>
      cases hneeds
    | literal | marker | minus | opening | function f =>
      rfl

/-- Without an omission, pieces that balance and are separated are infix. -/
theorem isInfix_of_omissions (hbalanced : Balanced (pieces ts)) (hnamed : Named (pieces ts))
    (hseparated : Separated (pieces ts)) (hknown : .unknown ∉ pieces ts)
    (h : omissions none (pieces ts) = 0) : IsInfix (pieces ts) where
  balanced := hbalanced
  named := hnamed
  separated := hseparated
  between before op after hpieces := by
    refine ⟨?_, startsOperand_of_omissions hknown h hpieces⟩
    rw [hpieces] at h
    exact endsOperand_of_omissions h rfl
  filled before p after hpieces := by
    have hsplit : pieces ts = (before ++ [p]) ++ .closing :: after := by
      simpa using hpieces
    rw [hsplit] at h
    have hends := endsOperand_of_omissions h rfl
    rw [last_concat] at hends
    exact hends

/-! ## Brackets -/

theorem count_operators (ps : List Piece) :
    (operators ps).count .leftBracket = ps.count .opening ∧
      (operators ps).count .rightBracket = ps.count .closing := by
  induction ps with
  | nil =>
    exact ⟨rfl, rfl⟩
  | cons p ps ih =>
    have hhead : (operators [p]).count .leftBracket = [p].count .opening ∧
        (operators [p]).count .rightBracket = [p].count .closing := by
      cases p <;> exact ⟨rfl, rfl⟩
    have hcons : p :: ps = [p] ++ ps := rfl
    rw [hcons, operators_append, List.count_append, List.count_append, List.count_append,
      List.count_append, hhead.1, hhead.2, ih.1, ih.2]
    exact ⟨rfl, rfl⟩

theorem take_piecesFrom (prev : Option Piece) (ts : List Token) (n : Nat) :
    (piecesFrom prev ts).take n = piecesFrom prev (ts.take n) := by
  induction ts generalizing prev n with
  | nil =>
    simp [piecesFrom]
  | cons t ts ih =>
    cases n with
    | zero =>
      rfl
    | succ n =>
      exact congrArg (of prev t :: ·) (ih _ n)

/-- Tokens that are read never close more brackets than they have opened. -/
theorem closing_le_opening {α : Type} {sem : Semantics α} {e : Evaluation α}
    (h : ts.foldlM (feed sem) start = .ok e) :
    (pieces ts).count .closing ≤ (pieces ts).count .opening := by
  rw [← result_foldlM_tracedFeed] at h
  obtain ⟨-, -, hledger⟩ := ledger_of_foldlM behind_start h
  -- the brackets that are open are on the stack, of which there are none at the start
  have hbrackets := hledger.brackets
  rw [(count_operators _).1, (count_operators _).2] at hbrackets
  have hzero : (start : Evaluation α).state.operators.count .leftBracket = 0 := rfl
  rw [hzero, Nat.zero_add] at hbrackets
  exact Nat.le.intro ((Nat.add_comm _ _).trans hbrackets)

/-- Tokens that are read to their end close as many brackets as they open. -/
theorem balanced_of_beforeResult {α : Type} {sem : Semantics α} {s : State α}
    (h : beforeResult sem ts = .ok s) : Balanced (pieces ts) where
  opened before hbefore := by
    obtain ⟨e, hfold, -⟩ := Except.exists_of_bind_eq_ok h
    rw [← List.take_append_drop before.length ts, List.foldlM_append] at hfold
    obtain ⟨e', hfront, -⟩ := Except.exists_of_bind_eq_ok hfold
    have hfront := closing_le_opening hfront
    have htake : pieces (ts.take before.length) = before := by
      rw [pieces, ← take_piecesFrom]
      exact (List.prefix_iff_eq_take.1 hbefore).symm
    rwa [htake] at hfront
  closed := by
    obtain ⟨hnone, -, -, hledger⟩ := ledger_of_beforeResult h
    have hbrackets := hledger.brackets
    rw [(count_operators _).1, (count_operators _).2, hnone] at hbrackets
    simpa [State.empty] using hbrackets

end Piece

open Piece Evaluation

/-! ## Values -/

/-- If tokens have a value, their brackets balance, every marker is followed by a name, and operands
directly follow other operands just as often as operands are missing.  So if no operand directly
follows another one, the tokens are those of an infix expression. -/
theorem infix_of_value [Capacity] {ts : List Token} {b : Bindings} {v : Value}
    (h : evaluateTokens ts b = .ok v) :
    Balanced (pieces ts) ∧ Named (pieces ts) ∧
      juxtapositions none (pieces ts) = omissions none (pieces ts) ∧
        (Separated (pieces ts) → IsInfix (pieces ts)) := by
  have hresult := h
  rw [evaluateTokens, ofReading_eq_result] at hresult
  obtain ⟨s, hbefore, hresult⟩ := Except.exists_of_bind_eq_ok hresult
  obtain ⟨-, hknown, hlast, -⟩ := ledger_of_beforeResult hbefore
  have hbalanced := balanced_of_beforeResult hbefore
  have hnamed := named_of_known hknown hlast
  have hdefects : juxtapositions none (pieces ts) = omissions none (pieces ts) := by
    -- one operand is left, so the law leaves no difference between the two
    have hlength := length_of_beforeResult hbefore
    have hone := exists_result_iff.1 ⟨v, hresult⟩
    have hlaw : 0 + (pieces ts).countP isOperand + omissions none (pieces ts) =
        (pieces ts).countP isBinary + 1 + juxtapositions none (pieces ts) := omissions_law hknown
    omega
  refine ⟨hbalanced, hnamed, hdefects, ?_⟩
  intro hseparated
  have hnone : omissions none (pieces ts) = 0 := by
    rw [← hdefects]
    exact juxtapositions_eq_zero_iff.2 ⟨nofun, hseparated⟩
  exact isInfix_of_omissions hbalanced hnamed hseparated hknown hnone

/-- A product of a number and a difference. -/
theorem infix_of_value_of_product :
    ∃ ts, evaluateTokens ts [] = .ok (.number 4) ∧ IsInfix (pieces ts) := by
  let ts := (Token.lex "2 * (3 - 1)").tokens
  have hvalue : evaluateTokens ts [] = .ok (.number 4) :=
    Except.toOption_eq_some.1 (by decide +kernel)
  have hnone : juxtapositions none (pieces ts) = 0 := by
    decide +kernel
  obtain ⟨-, -, -, hinfix⟩ := infix_of_value hvalue
  exact ⟨ts, hvalue, hinfix (juxtapositions_eq_zero_iff.1 hnone).2⟩

/-- Two numbers with their operator behind them have a value. -/
theorem value_of_postfix :
    ¬∀ (ts : List Token) (b : Bindings) (v : Value), evaluateTokens ts b = .ok v →
      IsInfix (pieces ts) := by
  intro hall
  let ts : List Token := [⟨.number, "1", 0⟩, ⟨.number, "2", 2⟩, ⟨.symbol, "+", 4⟩]
  have hvalue : evaluateTokens ts [] = .ok (.number 3) :=
    Except.toOption_eq_some.1 (by decide +kernel)
  have hinfix := hall ts [] _ hvalue
  have hpieces : pieces ts = [.literal, .literal, .binary .add] := by
    decide
  -- the second number directly follows the first one
  have hstart := hinfix.separated [] .literal .literal [.binary .add] hpieces rfl
  cases hstart

end Reckon
