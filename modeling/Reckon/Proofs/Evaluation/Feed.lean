import Reckon.Evaluation
import Reckon.Proofs.Machine.Outcome

/-!
# Feed — what one token does to an evaluation

`Evaluation.feed` looks at a token in several ways.  Here each token has a `Role`, and feeding it is
given role by role in terms of the state that the machine moves to.  `Evaluation.Takes` lists the
ways in which a token can be read.
-/

namespace Reckon
namespace Evaluation

open Machine

variable {α : Type}

/-- What a token is where no name is expected. -/
inductive Role where
  | number
  | text
  | marker
  | operator (op : Operator)
  | unsupported
  deriving DecidableEq, Repr

/-- The role of a token. -/
def role (t : Token) : Role :=
  if t.kind = .number then .number
  else if t.kind = .text then .text
  else if t.isMarker then .marker
  else
    match operator? t with
    | some op => .operator op
    | none => .unsupported

theorem kind_of_role_text {t : Token} (h : role t = .text) : t.kind = .text := by
  unfold role at h
  split at h
  · cases h
  · split at h
    · assumption
    · split at h
      · cases h
      · split at h <;> cases h

theorem feedOperator_minus (r : Reducer α) (e : Evaluation α) (h : e.awaitsOperand = true) :
    feedOperator r e .minus =
      .ok { e with state := e.state.withOperator .opposite, awaitsOperand := true } := by
  unfold feedOperator
  rw [if_pos ⟨rfl, h⟩]
  rfl

theorem feedOperator_eq_advance (r : Reducer α) (e : Evaluation α) (op : Operator)
    (h : ¬(op = .minus ∧ e.awaitsOperand = true)) :
    feedOperator r e op =
      advance r op e.state >>= fun state =>
        .ok { e with state, awaitsOperand := opensOperand op } := by
  unfold feedOperator
  rw [if_neg h, run_eq_outcome]
  unfold advance
  cases outcome (apply r op e.state) <;> rfl

theorem feedPlain_eq (sem : Semantics α) (e : Evaluation α) (t : Token) :
    feedPlain sem e t =
      match role t with
      | .number => Literal.value t.text >>= fun x => .ok (e.withOperand (sem.number x))
      | .text => .ok (e.withOperand (sem.text t.text))
      | .marker => .ok { e with marker := some t }
      | .operator op => feedOperator sem.toReducer e op
      | .unsupported => .error (unsupported t) := by
  unfold feedPlain role
  -- both ask for the same things in the same order
  by_cases hnumber : t.kind = .number
  · simp only [hnumber, if_true]
    rfl
  · by_cases htext : t.kind = .text
    · rw [if_neg hnumber, if_pos htext, if_neg hnumber, if_pos htext]
      rfl
    · by_cases hmarker : t.isMarker = true
      · simp only [hnumber, htext, hmarker, if_true, if_false]
        rfl
      · simp only [hnumber, htext, hmarker, if_false]
        cases operator? t <;> rfl

theorem feed_of_marker_none (sem : Semantics α) {e : Evaluation α} (t : Token)
    (h : e.marker = none) : feed sem e t = feedPlain sem e t := by
  simp only [feed, h]

theorem feed_of_marker_some (sem : Semantics α) {e : Evaluation α} {m : Token} (t : Token)
    (h : e.marker = some m) :
    feed sem e t =
      if t.kind = .name then sem.resolve t.text >>= fun v => .ok (e.withOperand v)
      else .error (unsupported t) := by
  simp only [feed, h]
  rfl

/-! ## What a token does

A token that is read is read in one of six ways.
-/

/-- The evaluation `e` reads the token `t` and becomes `f`. -/
inductive Takes (sem : Semantics α) (e : Evaluation α) (t : Token) : Evaluation α → Prop where
  | name {m : Token} {v : α} (hmarker : e.marker = some m) (hkind : t.kind = .name)
      (hresolve : sem.resolve t.text = .ok v) : Takes sem e t (e.withOperand v)
  | number {x : Float} (hmarker : e.marker = none) (hrole : role t = .number)
      (hvalue : Literal.value t.text = .ok x) : Takes sem e t (e.withOperand (sem.number x))
  | text (hmarker : e.marker = none) (hrole : role t = .text) :
      Takes sem e t (e.withOperand (sem.text t.text))
  | marker (hmarker : e.marker = none) (hrole : role t = .marker) :
      Takes sem e t { e with marker := some t }
  | minus (hmarker : e.marker = none) (hrole : role t = .operator .minus)
      (hawaits : e.awaitsOperand = true) :
      Takes sem e t { e with state := e.state.withOperator .opposite, awaitsOperand := true }
  | operator {op : Operator} {s : State α} (hmarker : e.marker = none)
      (hrole : role t = .operator op) (hminus : ¬(op = .minus ∧ e.awaitsOperand = true))
      (hadvance : advance sem.toReducer op e.state = .ok s) :
      Takes sem e t { e with state := s, awaitsOperand := opensOperand op }

theorem Takes.feed {sem : Semantics α} {e f : Evaluation α} {t : Token} (h : Takes sem e t f) :
    feed sem e t = .ok f := by
  cases h with
  | name hmarker hkind hresolve =>
    rw [feed_of_marker_some sem t hmarker, if_pos hkind, hresolve]
    rfl
  | number hmarker hrole hvalue =>
    rw [feed_of_marker_none sem t hmarker, feedPlain_eq, hrole]
    dsimp only
    rw [hvalue]
    rfl
  | text hmarker hrole =>
    rw [feed_of_marker_none sem t hmarker, feedPlain_eq, hrole]
  | marker hmarker hrole =>
    rw [feed_of_marker_none sem t hmarker, feedPlain_eq, hrole]
  | minus hmarker hrole hawaits =>
    rw [feed_of_marker_none sem t hmarker, feedPlain_eq, hrole]
    exact feedOperator_minus _ _ hawaits
  | operator hmarker hrole hminus hadvance =>
    rw [feed_of_marker_none sem t hmarker, feedPlain_eq, hrole]
    dsimp only
    rw [feedOperator_eq_advance _ _ _ hminus, hadvance]
    rfl

theorem takes_of_feed {sem : Semantics α} {e f : Evaluation α} {t : Token}
    (h : feed sem e t = .ok f) : Takes sem e t f := by
  cases hmarker : e.marker with
  | some m =>
    rw [feed_of_marker_some sem t hmarker] at h
    split at h
    · rename_i hkind
      obtain ⟨v, hresolve, h⟩ := Except.exists_of_bind_eq_ok h
      cases h
      exact .name hmarker hkind hresolve
    · cases h
  | none =>
    rw [feed_of_marker_none sem t hmarker, feedPlain_eq] at h
    cases hrole : role t with
    | number =>
      rw [hrole] at h
      obtain ⟨x, hvalue, h⟩ := Except.exists_of_bind_eq_ok h
      cases h
      exact .number hmarker hrole hvalue
    | text =>
      rw [hrole] at h
      cases h
      exact .text hmarker hrole
    | marker =>
      rw [hrole] at h
      cases h
      exact .marker hmarker hrole
    | operator op =>
      rw [hrole] at h
      dsimp only at h
      by_cases hminus : op = .minus ∧ e.awaitsOperand = true
      · obtain ⟨rfl, hawaits⟩ := hminus
        rw [feedOperator_minus _ _ hawaits] at h
        cases h
        exact .minus hmarker hrole hawaits
      · rw [feedOperator_eq_advance _ _ _ hminus] at h
        obtain ⟨s, hadvance, h⟩ := Except.exists_of_bind_eq_ok h
        cases h
        exact .operator hmarker hrole hminus hadvance
    | unsupported =>
      rw [hrole] at h
      cases h

/-! ## The end -/

theorem conclude_of_marker_some (sem : Semantics α) {e : Evaluation α} {m : Token}
    (h : e.marker = some m) : e.conclude sem = .error (unsupported m) := by
  simp only [conclude, h]
  rfl

theorem conclude_of_marker_none (sem : Semantics α) {e : Evaluation α} (h : e.marker = none) :
    e.conclude sem = settle sem.toReducer Operator.executable e.state >>= final := by
  -- a run keeps the state as well, of which the result is the first half
  rw [← run_finish]
  simp only [conclude, h]
  cases (finish sem.toReducer).run e.state <;> rfl

theorem ofReading_eq (sem : Semantics α) (r : Reading) :
    ofReading sem r = r.tokens.foldlM (feed sem) start >>= fun e =>
      match r.failure with
      | some failure => .error failure
      | none => e.conclude sem := rfl

/-! ## Roles -/

theorem role_number (s : String) (position : Int) : role ⟨.number, s, position⟩ = .number := rfl

theorem role_text (s : String) (position : Int) : role ⟨.text, s, position⟩ = .text := rfl

/-- The marker of a variable is no operator. -/
theorem lookup?_variableMarker : Operator.lookup? Token.variableMarker = none := by
  decide

theorem role_symbol {s : String} {op : Operator} (position : Int)
    (h : Operator.lookup? s = some op) (hop : op.isFunction = false) :
    role ⟨.symbol, s, position⟩ = .operator op := by
  -- the marker is asked for before the operators are
  have hmarker : s ≠ Token.variableMarker := by
    rintro rfl
    rw [lookup?_variableMarker] at h
    cases h
  simp [role, Token.isMarker, operator?, h, hop, hmarker, Option.filter_some]

theorem role_name {s : String} {f : Function} (position : Int)
    (h : Operator.lookup? s = some (.function f)) :
    role ⟨.name, s, position⟩ = .operator (.function f) := by
  have hfunction : (Operator.function f).isFunction = true := rfl
  simp [role, Token.isMarker, operator?, h, hfunction, Option.filter_some]

end Evaluation

end Reckon
