import Reckon.Proofs.Evaluation.Blame
import Reckon.Proofs.Formula.Cause
import Reckon.Proofs.Token.Word

/-!
# Report — which errors are not reported as such

An error is reported if it is an outcome of the calculation; a limit of the program is none.  With
variables that are bound to numbers and texts there are just two ways to run into a limit: an
integer with a radix that rounds beyond the largest double, and a text that a sum or a product makes
too long.

* `Escape` — the errors that are not reported;
* `Formula.reported_or_escape` — there are no others, in evaluations, compilations and replays;
* `Formula.repeat_escapes` — and there are such errors.
-/

namespace Reckon

open Evaluation

/-- A supplied value that is a value already. -/
def Supplied.IsPlain : Supplied → Prop
  | .number _ | .text _ => True
  | _ => False

/-- Variables are bound to numbers and texts. -/
def Bindings.IsPlain (b : Bindings) : Prop :=
  ∀ name supplied, b.find? name = some supplied → supplied.IsPlain

/-- The errors that are not reported: an integer of the source is too large, or a binary operator
that is executed on `v` and `w` makes a text too long; `Executes` says which operators are executed.
-/
inductive Escape [Capacity] (source : String) (Executes : Binary → Value → Value → Prop) :
    Error → Prop where
  | integer {t : Token} : t ∈ (Token.lex source).tokens → t.kind = .number →
    Literal.IsTooLarge t.text → Escape source Executes (.limit .integerTooLarge)
  | text {op : Binary} {v w : Value} {cause : Limit} : Executes op v w → Oversize op v w cause →
    Escape source Executes (.limit cause)

variable {source : String} {b : Bindings} {e : Error}

/-! ## Steps and words -/

/-- A variable that is bound to a number or a text, or not bound at all, runs into no limit. -/
theorem isReported_of_resolve {missing : String → Error}
    (hmissing : ∀ name, (missing name).isReported = true) (hb : b.IsPlain) {name : String}
    (h : b.resolve missing name = .error e) : e.isReported = true := by
  unfold Bindings.resolve at h
  split at h
  · cases h
    exact hmissing name
  · rename_i supplied hfind
    have hplain := hb name supplied hfind
    cases supplied with
    | number x =>
      cases h
    | text s =>
      cases h
    | _ =>
      exact absurd hplain (by simp [Supplied.IsPlain])

theorem reported_or_oversize [Capacity] {op : Binary} {v w : Value}
    (h : Fault (.binary op) [v, w] e) :
    e.isReported = true ∨ ∃ cause, e = .limit cause ∧ Oversize op v w cause := by
  cases h with
  | arguments mismatch =>
    exact Or.inl rfl
  | zero =>
    exact Or.inl rfl
  | oversize h =>
    exact Or.inr ⟨_, rfl, h⟩

theorem isReported_of_function {f : Function} {v : Value} (h : f.execute v = .error e) :
    e.isReported = true := by
  cases Function.fault h with
  | arguments mismatch =>
    rfl
  | zero =>
    rfl

theorem isReported_of_failure (h : (Token.lex source).failure = some e) : e.isReported = true := by
  obtain ⟨fault, place, rfl⟩ := Token.lexical_of_lexFrom h
  rfl

section

variable [Capacity]

/-- What goes wrong outside of the steps is reported, or it is an integer that is too large. -/
theorem WordError.isReported_or {Executes : Binary → Value → Value → Prop}
    (h : WordError (Token.lex source) e) :
    e.isReported = true ∨ Escape source Executes e := by
  cases h with
  | reported h =>
    exact Or.inl h
  | @literal t _ ht hkind hvalue =>
    rcases Literal.value_of_isNumber (Token.isNumber_of_lex ht hkind) with ⟨x, hx⟩ | ⟨he, hlarge⟩
    · rw [hvalue] at hx
      cases hx
    · rw [hvalue] at he
      cases he
      exact Or.inr (.integer ht hkind hlarge)

/-! ## Evaluations, compilations and replays -/

/-- A step of an evaluation executes an operator. -/
def EvaluationExecutes (source : String) (b : Bindings) (op : Binary) (v w : Value) : Prop :=
  .reduction (.binary op) [v, w] ∈ evaluationSteps source b

theorem evaluate_reported_or_escape (hb : b.IsPlain) (h : evaluate source b = .error e) :
    e.isReported = true ∨ Escape source (EvaluationExecutes source b) e := by
  have hresult : (traced (Semantics.direct .unknownVariable b) (Token.lex source)).result =
      .error e := (result_traced _ _).trans h
  have hblamed : (traced (Semantics.direct .unknownVariable b) (Token.lex source)).Blamed _ _ :=
    blamed_traced fun _ => isReported_of_failure
  rcases hblamed e hresult with hword | ⟨s, hs, hfails⟩
  · exact WordError.isReported_or hword
  · cases hfails with
    | resolution hresolve =>
      exact Or.inl (isReported_of_resolve (fun _ => rfl) hb hresolve)
    | binary hexecute =>
      rcases reported_or_oversize (Binary.fault hexecute) with hreported | ⟨cause, rfl, hoversize⟩
      · exact Or.inl hreported
      · exact Or.inr (.text hs hoversize)
    | function hexecute =>
      exact Or.inl (isReported_of_function hexecute)

end

namespace Formula

section

variable [Capacity]

/-- A step of a compilation executes an operator, since both of its operands have values. -/
def SessionExecutes (source : String) (op : Binary) (v w : Value) : Prop :=
  ∃ a c, .reduction (.binary op) [a, c] ∈ session source ∧ a.value? = some v ∧ c.value? = some w

theorem compile_reported_or_escape (h : compile source = .error e) :
    e.isReported = true ∨ Escape source (SessionExecutes source) e := by
  have hblamed : (traced Semantics.symbolic (Token.lex source)).Blamed _ _ :=
    blamed_traced fun _ => isReported_of_failure
  rcases hblamed e (result_of_compile_error h) with hword | ⟨s, hs, hfails⟩
  · exact WordError.isReported_or hword
  · cases hfails with
    | resolution hresolve =>
      -- a compilation leaves every variable open, as it has a name
      cases (resolve_of_session hs).symm.trans hresolve
    | binary hdefer =>
      obtain ⟨v, w, ha, hc, hexecute⟩ := Deferral.exists_of_binary_error hdefer
      rcases reported_or_oversize (Binary.fault hexecute) with hreported | ⟨cause, rfl, hoversize⟩
      · exact Or.inl hreported
      · exact Or.inr (.text ⟨_, _, hs, ha, hc⟩ hoversize)
    | function hdefer =>
      obtain ⟨v, hexecute⟩ := Deferral.exists_of_function_error hdefer
      exact Or.inl (isReported_of_function hexecute)

/-- A replay executes an operator of the formula on what parts of the formula come to. -/
def ReplayExecutes (f : Formula) (b : Bindings) (op : Binary) (v w : Value) : Prop :=
  .operator (.binary op) ∈ f.sequence ∧ ∀ u ∈ [v, w], ∃ part, part <:+: f.sequence ∧
    replay ⟨part, f.source⟩ b = .ok u

theorem replay_reported_or_escape {f : Formula} (hcompile : compile source = .ok f)
    (hb : b.IsPlain) (h : f.replay b = .error e) :
    e.isReported = true ∨ Escape source (ReplayExecutes f b) e := by
  cases cause_of_replay hcompile h with
  | resolution hmem hresolve =>
    exact Or.inl (isReported_of_resolve (fun _ => rfl) hb hresolve)
  | execution hmem hparts hexecute hfault =>
    cases hfault with
    | arguments mismatch =>
      exact Or.inl rfl
    | zero =>
      exact Or.inl rfl
    | oversize hoversize =>
      refine Or.inr (.text ⟨hmem, ?_⟩ hoversize)
      intro u hu
      obtain ⟨part, hpart, hu⟩ := hparts u hu
      exact ⟨part, hpart, (replay_eq _ b).trans hu⟩

/-- With variables that are bound to numbers and texts, the errors of evaluations, compilations and
replays are reported, unless an integer of the source is too large for a double or a sum or a
product that is executed makes a text too long. -/
theorem reported_or_escape (source : String) {b : Bindings} (hb : b.IsPlain) :
    (∀ e, evaluate source b = .error e →
      e.isReported = true ∨ Escape source (EvaluationExecutes source b) e) ∧
    (∀ e, compile source = .error e →
      e.isReported = true ∨ Escape source (SessionExecutes source) e) ∧
    ∀ f, compile source = .ok f → ∀ e, f.replay b = .error e →
      e.isReported = true ∨ Escape source (ReplayExecutes f b) e := by
  refine ⟨?_, ?_, ?_⟩
  · intro e he
    exact evaluate_reported_or_escape hb he
  · intro e he
    exact compile_reported_or_escape he
  · intro f hcompile e he
    exact replay_reported_or_escape hcompile hb he

end

/-- A quotient by zero is reported, and a text that is repeated too often is not. -/
theorem reported_or_escape_of_product :
    (evaluate "1 / $x" [("x", .number 0)] = .error (.divisionByZero (.binary .div)) ∧
      (Error.divisionByZero (.binary .div)).isReported = true) ∧
    evaluate "$x * 1e19" [("x", .text "a")] = .error (.limit .repeatCountTooLarge) ∧
      Escape "$x * 1e19" (EvaluationExecutes "$x * 1e19" [("x", .text "a")])
        (.limit .repeatCountTooLarge) := by
  have hplain : ∀ supplied : Supplied, supplied.IsPlain →
      Bindings.IsPlain [("x", supplied)] := by
    intro supplied hsupplied name other hfind
    simp only [Bindings.find?, List.lookup] at hfind
    split at hfind
    · rw [← Option.some.inj hfind]
      exact hsupplied
    · cases hfind
  have hquotient : evaluate "1 / $x" [("x", .number 0)] =
      .error (.divisionByZero (.binary .div)) := by
    decide +kernel
  have hproduct : evaluate "$x * 1e19" [("x", .text "a")] =
      .error (.limit .repeatCountTooLarge) := by
    decide +kernel
  refine ⟨⟨hquotient, ?_⟩, hproduct, ?_⟩
  · rcases (reported_or_escape _ (hplain (.number 0) trivial)).1 _ hquotient with
      hreported | hescape
    · exact hreported
    · cases hescape
  · rcases (reported_or_escape _ (hplain (.text "a") trivial)).1 _ hproduct with hreported | hescape
    · cases hreported
    · exact hescape

/-- Not all errors are reported. -/
theorem repeat_escapes :
    ¬∀ source b, Bindings.IsPlain b → ∀ e, evaluate source b = .error e → e.isReported = true := by
  intro hall
  have hplain : Bindings.IsPlain [] := by
    rintro name supplied ⟨⟩
  have hproduct : evaluate "'a' * 1e19" [] = .error (.limit .repeatCountTooLarge) := by
    decide +kernel
  exact absurd (hall _ [] hplain _ hproduct) (by decide)

end Formula

end Reckon
