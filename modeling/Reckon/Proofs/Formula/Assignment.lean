import Reckon.Proofs.Formula.Fixpoint
import Reckon.Proofs.Formula.Folding

/-!
# Assignment — folded members with their places filled

Members that are symbolic are open places of a list.  An assignment fills them one after the other,
so two members that look alike may come to different values.

* `Operand.fill` — the list that members make under an assignment;
* `Deferral.execute_fill_foldLeading`, `Deferral.execute_fill_foldRuns` — a fold that succeeds, and
  the function on the filled lists before and after it;
* `Deferral.fold_keeps_outcome` — sums, maxima and minima together.

Nothing is asked of the values that fill the places: a not-a-number, an infinity, a text among
numbers or a list is met where it was met before.
-/

namespace Reckon

/-- The list that members make: each open place takes the next value of the assignment. -/
def Operand.fill (assignment : Nat → Value) : List Operand → List Value
  | [] => []
  | m :: ms =>
    match m.value? with
    | some v => v :: fill assignment ms
    | none => assignment 0 :: fill (fun place => assignment (place + 1)) ms

namespace Deferral

open Operand

variable {f : Function} {run : List Operand}

/-! ## Filled members -/

theorem fill_symbolic {m : Operand} (hm : m.isSymbolic = true) (assignment : Nat → Value)
    (ms : List Operand) :
    fill assignment (m :: ms) = assignment 0 :: fill (fun place => assignment (place + 1)) ms := by
  have hvalue : m.value? = none := Option.isNone_iff_eq_none.1 hm
  rw [fill, hvalue]

/-- Members with values leave the assignment to those behind them. -/
theorem fill_append (hrun : Valued run) (assignment : Nat → Value) (ms : List Operand) :
    fill assignment (run ++ ms) = values run ++ fill assignment ms := by
  induction run with
  | nil =>
    rfl
  | cons m run ih =>
    obtain ⟨hm, hrun⟩ := List.forall_mem_cons.1 hrun
    obtain ⟨v, hv⟩ := exists_value hm
    rw [List.cons_append, fill, hv, values_cons_of_value hv, List.cons_append]
    exact congrArg (v :: ·) (ih hrun)

theorem fill_valued (hrun : Valued run) (assignment : Nat → Value) :
    fill assignment run = values run := by
  have happend := fill_append hrun assignment []
  rwa [List.append_nil, fill, List.append_nil] at happend

/-! ## Sums -/

theorem execute_fill_foldLeading (ms : List Operand) :
    ∃ ms', foldLeading ms = .ok ms' ∧ ∀ assignment,
      Function.sum.execute (.list (fill assignment ms')) =
        Function.sum.execute (.list (fill assignment ms)) := by
  rcases foldLeading_split ms with hfold | ⟨run, rest, x, xs, rfl, hrun, hxs, hfold⟩
  · exact ⟨ms, hfold, fun _ => rfl⟩
  · refine ⟨_, hfold, ?_⟩
    intro assignment
    rw [fill_append hrun, hxs]
    exact execute_sum_append x xs (fill assignment rest)

/-! ## Extremes -/

/--
The members in front of a fold may be anything, open places among them: a candidate from there goes
through the best of a run as it goes through the run.
-/
theorem execute_fill_foldRuns (h : Extreme f) (ms : List Operand) (hrun : Valued run) :
    ∃ ms', foldRuns f run ms = .ok ms' ∧ ∀ assignment before,
      f.execute (.list (before ++ fill assignment ms')) =
        f.execute (.list (before ++ (values run ++ fill assignment ms))) := by
  induction ms generalizing run with
  | nil =>
    obtain ⟨run', hfold, hfolds⟩ := foldsRun_foldRun h hrun
    refine ⟨run', hfold, ?_⟩
    intro assignment before
    have hexecute := hfolds.execute before []
    rw [fill_valued hfolds.valued]
    simpa only [fill, List.append_nil] using hexecute
  | cons m ms ih =>
    cases hm : m.isSymbolic with
    | true =>
      obtain ⟨run', hfold, hfolds⟩ := foldsRun_foldRun h hrun
      obtain ⟨ms', hrest, hexecute⟩ := ih valued_nil
      refine ⟨run' ++ m :: ms', ?_, ?_⟩
      · rw [foldRuns_symbolic hm, hfold, hrest]
        rfl
      · intro assignment before
        -- the members behind the place first, then the run in front of it
        have hbehind := hexecute (fun place => assignment (place + 1))
          (before ++ values run' ++ [assignment 0])
        have hfront := hfolds.execute before
          (assignment 0 :: fill (fun place => assignment (place + 1)) ms)
        rw [fill_append hfolds.valued, fill_symbolic hm, fill_symbolic hm]
        simp only [values, List.filterMap_nil, List.nil_append, List.append_assoc,
          List.singleton_append] at hbehind hfront ⊢
        exact hbehind.trans hfront
    | false =>
      obtain ⟨ms', hfold, hexecute⟩ := ih (hrun.concat hm)
      refine ⟨ms', ?_, ?_⟩
      · rw [foldRuns, hm]
        exact hfold
      · intro assignment before
        obtain ⟨v, hv⟩ := exists_value hm
        have hconcat : values (run ++ [m]) = values run ++ [v] := by simp [values, hv]
        rw [hexecute, hconcat, fill, hv, List.append_assoc, List.singleton_append]

/-! ## Every aggregate -/

/-- Members for which a function takes others in their place: the open places are the same ones, and
however they are filled, the function has the same value or the same error. -/
structure StandsFor (f : Function) (ms ms' : List Operand) : Prop where
  places : symbols ms' = symbols ms
  execute : ∀ assignment, f.execute (.list (fill assignment ms')) =
    f.execute (.list (fill assignment ms))

theorem standsFor_foldLeading (ms : List Operand) :
    ∃ ms', foldLeading ms = .ok ms' ∧ StandsFor .sum ms ms' := by
  obtain ⟨ms', hfold, hexecute⟩ := execute_fill_foldLeading ms
  exact ⟨ms', hfold, symbols_foldLeading hfold, hexecute⟩

theorem standsFor_foldRuns (h : Extreme f) (ms : List Operand) :
    ∃ ms', foldRuns f [] ms = .ok ms' ∧ StandsFor f ms ms' := by
  obtain ⟨ms', hfold, hexecute⟩ := execute_fill_foldRuns h ms valued_nil
  exact ⟨ms', hfold, (foldRuns_spec valued_nil hfold).1, fun assignment => hexecute assignment []⟩

/--
Folding the members of an aggregate keeps its meaning.  No fold fails, each leaves the open places
as they are, and whatever values fill them, the function on the folded list has the same value or
the same error as on the list before.
-/
theorem fold_keeps_outcome (ms : List Operand) :
    (∃ ms', foldLeading ms = .ok ms' ∧ StandsFor .sum ms ms') ∧
      (∃ ms', foldRuns .max [] ms = .ok ms' ∧ StandsFor .max ms ms') ∧
      (∃ ms', foldRuns .min [] ms = .ok ms' ∧ StandsFor .min ms ms') :=
  ⟨standsFor_foldLeading ms, standsFor_foldRuns .max ms, standsFor_foldRuns .min ms⟩

end Deferral
end Reckon
