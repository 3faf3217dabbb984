import Reckon.Formula
import Reckon.Proofs.Evaluation.Bracket
import Reckon.Proofs.Evaluation.Verdict
import Reckon.Proofs.Token.Spacing

/-!
# Placement — where tokens stand

What becomes of a reading does not depend on the positions of its tokens: the only place in which a
position shows up is the error for a token without a meaning.  So white space between the tokens of a
source text changes nothing but the position in this error.

* `Error.moved` — an error with its token in another place;
* `Run.ofReading_moved` — a reading whose tokens stand elsewhere;
* `spacing_immaterial` — a source text with white space put in.
-/

namespace Reckon

open Machine Evaluation

/-- An error whose token stands in another place. -/
def Error.moved (f : Int → Int) : Error → Error
  | .unsupportedToken text position => .unsupportedToken text (f position)
  | e => e

variable {f : Int → Int} {e : Error}

/-! ## Errors without a place -/

theorem Error.moved_of_isMisfit (h : e.isMisfit = true) : e.moved f = e := by
  cases e with
  | unsupportedToken text position =>
    cases h
  | _ =>
    rfl

theorem Error.moved_of_not_isVerdict (h : e.isVerdict = false) : e.moved f = e := by
  cases e with
  | unsupportedToken text position =>
    cases h
  | _ =>
    rfl

/-- A computation all of whose errors are left alone. -/
theorem mapError_eq_self {β : Type} {o : Except Error β} (h : ∀ e, o = .error e → e.moved f = e) :
    o.mapError (Error.moved f) = o := by
  cases o with
  | ok v =>
    rfl
  | error e =>
    exact congrArg Except.error (h e rfl)

/-! ## Evaluations -/

/-- An evaluation whose marker stands in another place. -/
def Evaluation.moved {α : Type} (f : Int → Int) (e : Evaluation α) : Evaluation α :=
  { e with marker := e.marker.map (Token.moved f) }

theorem Evaluation.moved_of_marker_none {α : Type} {e : Evaluation α} (h : e.marker = none) :
    e.moved f = e := by
  obtain ⟨state, awaits, marker⟩ := e
  cases h
  rfl

section

variable [Capacity]

namespace Run

variable {k : Run} {t : Token} {ts : List Token}

theorem moved_of_advance {op : Operator} {s : State k.Carrier}
    (h : advance k.semantics.toReducer op s = .error e) : e.moved f = e := by
  have hblamed : (tracedAdvance k.semantics.toReducer op s).Blamed k.semantics
      fun e => e.isMisfit = true := blamed_tracedAdvance (fun _ h => h) op s
  rcases hblamed e ((result_tracedAdvance _ op s).trans h) with hmisfit | ⟨step, -, hfails⟩
  · exact Error.moved_of_isMisfit hmisfit
  · exact Error.moved_of_not_isVerdict (isVerdict_of_fails hfails)

theorem moved_of_final {s : State k.Carrier}
    (h : settle k.semantics.toReducer Operator.executable s >>= final = .error e) :
    e.moved f = e := by
  rcases Except.cases_of_bind_eq_error h with h | ⟨t, -, h⟩
  · have hblamed : (tracedSettle k.semantics.toReducer Operator.executable s.operators
        s.operands).Blamed k.semantics fun e => e.isMisfit = true :=
      blamed_tracedSettle (fun _ h => h) (fun _ h => h) _ _
    rcases hblamed e ((result_tracedSettle _ _ _ _).trans h) with hmisfit | ⟨step, -, hfails⟩
    · exact Error.moved_of_isMisfit hmisfit
    · exact Error.moved_of_not_isVerdict (isVerdict_of_fails hfails)
  · exact Error.moved_of_isMisfit (isMisfit_of_final h)

/-- A token that stands elsewhere does the same, and if it has no meaning, the error says so at its
place. -/
theorem feed_moved (k : Run) (f : Int → Int) (e : Evaluation k.Carrier) (t : Token) :
    feed k.semantics (e.moved f) (t.moved f) =
      ((feed k.semantics e t).map (Evaluation.moved f)).mapError (Error.moved f) := by
  cases hmarker : e.marker with
  | some m =>
    have hmarker' : (e.moved f).marker = some (m.moved f) := by
      rw [Evaluation.moved, hmarker]
      rfl
    rw [feed_of_marker_some _ _ hmarker, feed_of_marker_some _ _ hmarker']
    by_cases hname : t.kind = .name
    · have hname' : (t.moved f).kind = .name := hname
      have htext : (t.moved f).text = t.text := rfl
      rw [if_pos hname, if_pos hname', htext]
      cases hresolve : k.semantics.resolve t.text with
      | ok v =>
        rfl
      | error e' =>
        have hmoved : e'.moved f = e' :=
          Error.moved_of_not_isVerdict (isVerdict_of_fails (.resolution hresolve))
        exact congrArg Except.error hmoved.symm
    · have hname' : ¬(t.moved f).kind = .name := hname
      rw [if_neg hname, if_neg hname']
      rfl
  | none =>
    have hrole : role (t.moved f) = role t := role_of_word rfl
    have htext : (t.moved f).text = t.text := rfl
    rw [Evaluation.moved_of_marker_none hmarker, feed_of_marker_none _ _ hmarker,
      feed_of_marker_none _ _ hmarker, feedPlain_eq, feedPlain_eq, hrole, htext]
    obtain ⟨state, awaits, marker⟩ := e
    cases hmarker
    cases role t with
    | number =>
      dsimp only
      cases hvalue : Literal.value t.text with
      | ok x =>
        rfl
      | error e' =>
        obtain ⟨cause, rfl⟩ := Comparison.limit_of_literal hvalue
        rfl
    | text =>
      rfl
    | marker =>
      rfl
    | operator op =>
      dsimp only
      by_cases hminus : op = .minus ∧ awaits = true
      · obtain ⟨rfl, rfl⟩ := hminus
        rw [feedOperator_minus _ _ rfl]
        rfl
      · rw [feedOperator_eq_advance _ _ _ hminus]
        cases hadvance : advance k.semantics.toReducer op state with
        | ok s =>
          rfl
        | error e' =>
          exact congrArg Except.error (moved_of_advance hadvance).symm
    | unsupported =>
      rfl

theorem foldlM_feed_moved (k : Run) (f : Int → Int) (ts : List Token) (e : Evaluation k.Carrier) :
    (ts.map (Token.moved f)).foldlM (feed k.semantics) (e.moved f) =
      ((ts.foldlM (feed k.semantics) e).map (Evaluation.moved f)).mapError (Error.moved f) := by
  induction ts generalizing e with
  | nil =>
    rfl
  | cons t ts ih =>
    rw [List.map_cons, List.foldlM_cons, List.foldlM_cons, feed_moved]
    cases feed k.semantics e t with
    | error e' =>
      rfl
    | ok e' =>
      exact ih e'

/-- A reading whose tokens stand elsewhere has the same outcome, up to the place that an error
names. -/
theorem ofReading_moved (k : Run) (f : Int → Int) (ts : List Token) :
    k.outcome ⟨ts.map (Token.moved f), none⟩ = (k.outcome ⟨ts, none⟩).mapError (Error.moved f) := by
  have hstart : (start : Evaluation k.Carrier).moved f = start := rfl
  have hfold := foldlM_feed_moved k f ts start
  rw [hstart] at hfold
  rw [outcome, outcome, ofReading_eq, ofReading_eq]
  dsimp only
  rw [hfold]
  cases ts.foldlM (feed k.semantics) start with
  | error e' =>
    rfl
  | ok e' =>
    change (e'.moved f).conclude k.semantics = (e'.conclude k.semantics).mapError (Error.moved f)
    cases hmarker : e'.marker with
    | some m =>
      have hmarker' : (e'.moved f).marker = some (m.moved f) := by
        rw [Evaluation.moved, hmarker]
        rfl
      rw [conclude_of_marker_some _ hmarker, conclude_of_marker_some _ hmarker']
      rfl
    | none =>
      rw [Evaluation.moved_of_marker_none hmarker, conclude_of_marker_none _ hmarker]
      exact (mapError_eq_self fun _ => moved_of_final).symm

end Run

/-! ## Source texts -/

/-- White space in front of tokens and at the end of a source text is immaterial: the tokens keep
their kinds and texts, and the value and the compiled sequence are the same, as are all errors but
for the position of a token without a meaning. -/
theorem spacing_immaterial {sp : Spacing} {source : String}
    (hlex : (Token.lex source).failure = none) (hsuits : sp.Suits source) :
    Token.lex (sp.apply source) = ⟨(Token.lex source).tokens.map (Token.moved sp.shift), none⟩ ∧
    (∀ b, evaluate (sp.apply source) b = (evaluate source b).mapError (Error.moved sp.shift)) ∧
    (Formula.compile (sp.apply source)).map Formula.sequence =
      ((Formula.compile source).map Formula.sequence).mapError (Error.moved sp.shift) := by
  have htokens := Spacing.lex_apply hlex hsuits
  have hreading : Token.lex source = ⟨(Token.lex source).tokens, none⟩ := by
    rw [← hlex]
  have houtcome : ∀ k : Run, k.outcome (Token.lex (sp.apply source)) =
      (k.outcome (Token.lex source)).mapError (Error.moved sp.shift) := by
    intro k
    rw [htokens, Run.ofReading_moved, ← hreading]
  refine ⟨htokens, fun b => houtcome (.direct b), ?_⟩
  have hcompile : ∀ source, (Formula.compile source).map Formula.sequence =
      (Run.compilation.outcome (Token.lex source)).map Operand.sequence := by
    intro source
    rw [Formula.compile_eq, result_traced]
    change Except.map _ (Run.compilation.outcome (Token.lex source) >>= _) = _
    cases Run.compilation.outcome (Token.lex source) <;> rfl
  rw [hcompile, hcompile, houtcome]
  cases Run.compilation.outcome (Token.lex source) <;> rfl

end

/-- Two numbers that touch stay the same numbers when they are moved apart. -/
theorem spacing_immaterial_of_points :
    (Token.lex "1..5").failure = none ∧ (Spacing.single 2 [' ', '\t'] rfl).Suits "1..5" ∧
      Token.lex "1. \t.5" = ⟨[⟨.number, "1.", 0⟩, ⟨.number, ".5", 4⟩], none⟩ := by
  have hlex : Token.lex "1..5" = ⟨[⟨.number, "1.", 0⟩, ⟨.number, ".5", 2⟩], none⟩ := by
    decide +kernel
  have hfailure : (Token.lex "1..5").failure = none := congrArg Reading.failure hlex
  have hsuits : (Spacing.single 2 [' ', '\t'] rfl).Suits "1..5" := by
    intro q hgap
    obtain rfl : q = 2 := by
      by_contra hne
      exact hgap (if_neg hne)
    rw [hlex]
    exact Or.inr ⟨⟨.number, ".5", 2⟩, by simp, rfl⟩
  obtain ⟨htokens, -, -⟩ := spacing_immaterial hfailure hsuits
  rw [hlex] at htokens
  exact ⟨hfailure, hsuits, htokens⟩

end Reckon
