import Reckon.Formula.Deferral
import Reckon.Proofs.Operator.Extreme
import Reckon.Proofs.Machine.Outcome

/-!
# Folding — members that are combined ahead of time

Some members of a group are combined while a formula is compiled.  Here the members before and after
are compared under any view that gives members their outcomes and leaves those alone that have
values already:

* `Deferral.Folds` — members on which a function comes to the same as on others;
* `Deferral.folds_foldMembers` — folding never fails, and it makes such members.
-/

namespace Reckon
namespace Deferral

open Operand

/-! ## Members with values -/

/-- A view of operands under which those that have values already keep them. -/
def Respects (out : Operand → Except Error Value) : Prop :=
  ∀ m v, m.value? = some v → out m = .ok v

theorem values_cons_of_value {m : Operand} {v : Value} (h : m.value? = some v)
    (ms : List Operand) : values (m :: ms) = v :: values ms := by
  simp [values, h]

theorem exists_value {m : Operand} (h : m.isSymbolic = false) : ∃ v, m.value? = some v := by
  unfold isSymbolic at h
  exact Option.isSome_iff_exists.1 (by simpa using h)

theorem length_values {run : List Operand} (h : ∀ m ∈ run, m.isSymbolic = false) :
    (values run).length = run.length := by
  induction run with
  | nil =>
    rfl
  | cons m ms ih =>
    obtain ⟨v, hv⟩ := exists_value (h m (by simp))
    rw [values_cons_of_value hv, List.length_cons, List.length_cons,
      ih fun n hn => h n (List.mem_cons_of_mem m hn)]

theorem values_ne_nil {run : List Operand} (h : ∀ m ∈ run, m.isSymbolic = false)
    (hlength : 2 ≤ run.length) : values run ≠ [] := by
  intro hnil
  have hvalues := length_values h
  rw [hnil, List.length_nil] at hvalues
  omega

theorem mapM_values {out : Operand → Except Error Value} (hout : Respects out)
    {run : List Operand} (h : ∀ m ∈ run, m.isSymbolic = false) :
    run.mapM out = .ok (values run) := by
  induction run with
  | nil =>
    rfl
  | cons m ms ih =>
    obtain ⟨v, hv⟩ := exists_value (h m (by simp))
    rw [List.mapM_cons, hout m v hv, Except.bind_ok, values_cons_of_value hv,
      ih fun n hn => h n (List.mem_cons_of_mem m hn)]
    rfl

theorem mapM_value (out : Operand → Except Error Value) (hout : Respects out) (v : Value)
    (ms : List Operand) :
    (value v :: ms).mapM out = ms.mapM out >>= fun vs => .ok (v :: vs) := by
  rw [List.mapM_cons, hout _ v rfl]
  rfl

/-- Values that a test lets through only if they are made by `mk`, from what satisfies `P`. -/
theorem exists_map_of_all {α : Type} {mk : α → Value} {P : α → Prop} {p : Value → Bool}
    (hp : ∀ v, p v = true → ∃ x, v = mk x ∧ P x) {vs : List Value} (h : vs.all p = true) :
    ∃ xs : List α, vs = xs.map mk ∧ ∀ x ∈ xs, P x := by
  induction vs with
  | nil =>
    exact ⟨[], rfl, by simp⟩
  | cons v vs ih =>
    rw [List.all_cons, Bool.and_eq_true] at h
    obtain ⟨x, rfl, hx⟩ := hp v h.1
    obtain ⟨xs, rfl, hxs⟩ := ih h.2
    refine ⟨x :: xs, rfl, ?_⟩
    intro y hy
    rcases List.mem_cons.1 hy with rfl | hy
    · exact hx
    · exact hxs y hy

theorem exists_of_isNumber (v : Value) (h : v.isNumber = true) :
    ∃ x, v = .number x ∧ True := by
  cases v with
  | number x =>
    exact ⟨x, rfl, trivial⟩
  | _ =>
    cases h

theorem exists_of_isOrdered (v : Value) (h : isOrdered v = true) :
    ∃ x, v = .number x ∧ x.isNaN = false := by
  cases v with
  | number x =>
    exact ⟨x, rfl, by simpa [isOrdered] using h⟩
  | _ =>
    cases h

theorem exists_of_isText (v : Value) (h : v.isText = true) : ∃ s, v = .text s ∧ True := by
  cases v with
  | text s =>
    exact ⟨s, rfl, trivial⟩
  | _ =>
    cases h

/-! ## Folds -/

/-- What may be among members after folding: one that was there before, a number, or a text that was
there before. -/
inductive Remnant (ms : List Operand) : Operand → Prop where
  | kept {m : Operand} : m ∈ ms → Remnant ms m
  | number (x : Float) : Remnant ms (value (.number x))
  | text {s : CodeText} {n : Operand} : n ∈ ms → n.value? = some (.text s) →
    Remnant ms (value (.text s))

theorem Remnant.mono {ms ms' : List Operand} {m : Operand} (h : Remnant ms m)
    (hsub : ∀ n ∈ ms, n ∈ ms') : Remnant ms' m := by
  cases h with
  | kept hm =>
    exact .kept (hsub m hm)
  | number x =>
    exact .number x
  | text hn hs =>
    exact .text (hsub _ hn) hs

/-- Members of a list that a function cannot tell from the members `ms`. -/
structure Folds (f : Function) (ms ms' : List Operand) : Prop where
  execute : ∀ out, Respects out →
    (ms'.mapM out >>= fun vs => f.execute (.list vs)) =
      ms.mapM out >>= fun vs => f.execute (.list vs)
  mem : ∀ m ∈ ms', Remnant ms m
  /-- The members remain a list. -/
  length : 2 ≤ ms.length → (∃ m ∈ ms, m.isSymbolic = true) → 2 ≤ ms'.length

theorem Folds.refl (f : Function) (ms : List Operand) : Folds f ms ms :=
  ⟨fun _ _ => rfl, fun _ hm => .kept hm, fun h _ => h⟩

/-! ## Sums -/

theorem execute_sum_numbers (x : Float) (xs : List Float) :
    Function.sum.execute (.list ((x :: xs).map .number)) = .ok (.number (xs.foldl (· + ·) x)) := by
  simp only [List.map_cons, Function.execute, Function.executeSum]
  rw [← List.map_cons, Extreme.numbers?_map]

theorem execute_sum_other {vs : List Value} (h : ∀ xs : List Float, vs ≠ xs.map .number) :
    Function.sum.execute (.list vs) = Function.sum.refuse none := by
  have hnone : Value.numbers? vs = none := by
    cases hxs : Value.numbers? vs with
    | none =>
      rfl
    | some xs =>
      exact absurd (Value.numbers?_eq_some_iff.1 hxs) (h xs)
  simp only [Function.execute, Function.executeSum, hnone]

/-- A sum goes on from the sum of its first numbers. -/
theorem execute_sum_append (x : Float) (xs : List Float) (vs : List Value) :
    Function.sum.execute (.list (.number (xs.foldl (· + ·) x) :: vs)) =
      Function.sum.execute (.list ((x :: xs).map .number ++ vs)) := by
  by_cases hvs : ∃ ys : List Float, vs = ys.map .number
  · obtain ⟨ys, rfl⟩ := hvs
    rw [← List.map_append, ← List.map_cons, execute_sum_numbers, List.cons_append,
      execute_sum_numbers, List.foldl_append]
  · -- with another member behind the numbers, both sums are refused
    rw [execute_sum_other, execute_sum_other]
    · intro ys heq
      obtain ⟨_, zs, _, _, hzs⟩ := List.map_eq_append_iff.1 heq.symm
      exact hvs ⟨zs, hzs.symm⟩
    · intro ys heq
      obtain ⟨_, zs, _, _, hzs⟩ := List.map_eq_cons_iff.1 heq.symm
      exact hvs ⟨zs, hzs.symm⟩

theorem folds_leading {run rest : List Operand} (hrun : ∀ m ∈ run, m.isSymbolic = false)
    {x : Float} {xs : List Float} (hvalues : values run = (x :: xs).map .number) :
    Folds .sum (run ++ rest) (value (.number (xs.foldl (· + ·) x)) :: rest) where
  execute out hout := by
    rw [mapM_value out hout, List.mapM_append, mapM_values hout hrun, hvalues, bind_assoc,
      Except.bind_ok, bind_assoc]
    congr 1
    funext vs
    exact execute_sum_append x xs vs
  mem m hm := by
    rcases List.mem_cons.1 hm with rfl | hm
    · exact .number _
    · exact .kept (List.mem_append_right run hm)
  length _ hsymbolic := by
    obtain ⟨m, hm, hsymbolic⟩ := hsymbolic
    rcases List.mem_append.1 hm with hm | hm
    · rw [hrun m hm] at hsymbolic
      cases hsymbolic
    · have hpos := List.length_pos_of_mem hm
      simp only [List.length_cons]
      omega

/-- Numbers in front are added up, or the members stay as they are. -/
theorem foldLeading_split (ms : List Operand) :
    foldLeading ms = .ok ms ∨ ∃ run rest x xs, ms = run ++ rest ∧
      (∀ m ∈ run, m.isSymbolic = false) ∧ values run = (x :: xs).map .number ∧
      foldLeading ms = .ok (value (.number (xs.foldl (· + ·) x)) :: rest) := by
  obtain ⟨rest, hrest⟩ := List.takeWhile_prefix (l := ms) fun m => !m.isSymbolic
  have hrun : ∀ m ∈ ms.takeWhile fun m => !m.isSymbolic, m.isSymbolic = false := by
    intro m hm
    simpa using List.all_eq_true.1 List.all_takeWhile m hm
  generalize hdef : (ms.takeWhile fun m => !m.isSymbolic) = run at hrest hrun
  by_cases hfold : 2 ≤ run.length ∧ (values run).all Value.isNumber = true
  · obtain ⟨xs, hxs, _⟩ := exists_map_of_all exists_of_isNumber hfold.2
    rcases xs with _ | ⟨x, xs⟩
    · exact absurd hxs (values_ne_nil hrun hfold.1)
    · refine Or.inr ⟨run, rest, x, xs, hrest.symm, hrun, hxs, ?_⟩
      simp only [foldLeading, hdef, if_pos hfold]
      rw [hxs, execute_sum_numbers, ← hrest, List.drop_left]
      rfl
  · refine Or.inl ?_
    simp only [foldLeading, hdef, if_neg hfold]

theorem folds_foldLeading (ms : List Operand) :
    ∃ ms', foldLeading ms = .ok ms' ∧ Folds .sum ms ms' := by
  rcases foldLeading_split ms with hfold | ⟨run, rest, x, xs, rfl, hrun, hxs, hfold⟩
  · exact ⟨ms, hfold, Folds.refl _ _⟩
  · exact ⟨_, hfold, folds_leading hrun hxs⟩

/-! ## Extremes -/

/-- What stands for a run of members that have values. -/
structure FoldsRun (f : Function) (run run' : List Operand) : Prop where
  valued : ∀ m ∈ run', m.isSymbolic = false
  execute : ∀ before after, f.execute (.list (before ++ values run' ++ after)) =
    f.execute (.list (before ++ values run ++ after))
  mem : ∀ m ∈ run', Remnant run m
  ne_nil : run ≠ [] → run' ≠ []

theorem FoldsRun.refl (f : Function) {run : List Operand}
    (hrun : ∀ m ∈ run, m.isSymbolic = false) : FoldsRun f run run :=
  ⟨hrun, fun _ _ => rfl, fun _ hm => .kept hm, id⟩

/-- A single value in the place of a run. -/
theorem foldsRun_single {f : Function} {run : List Operand} {w : Value}
    (hexecute : ∀ before after, f.execute (.list (before ++ values run ++ after)) =
      f.execute (.list (before ++ w :: after))) (hw : Remnant run (value w)) :
    FoldsRun f run [value w] where
  valued := by simp [isSymbolic, value?, Element.value?]
  execute before after := by
    have hvalues : values [value w] = [w] := rfl
    rw [hvalues, hexecute, List.append_assoc, List.singleton_append]
  mem m hm := by
    rw [List.mem_singleton] at hm
    exact hm ▸ hw
  ne_nil _ := by simp

theorem mem_values {v : Value} {ms : List Operand} (h : v ∈ values ms) :
    ∃ m ∈ ms, m.value? = some v :=
  List.mem_filterMap.1 h

theorem foldsRun_foldRun {f : Function} (h : Extreme f) {run : List Operand}
    (hrun : ∀ m ∈ run, m.isSymbolic = false) :
    ∃ run', foldRun f run = .ok run' ∧ FoldsRun f run run' := by
  by_cases hfold : 2 ≤ run.length ∧
      ((values run).all Value.isText = true ∨ (values run).all isOrdered = true)
  · have hne := values_ne_nil hrun hfold.1
    have hfolded : ∀ w, f.execute (.list (values run)) = .ok w →
        foldRun f run = .ok [value w] := by
      intro w hw
      simp only [foldRun, if_pos hfold, hw]
      rfl
    rcases hfold.2 with htexts | hnumbers
    · obtain ⟨ss, hss, _⟩ := exists_map_of_all exists_of_isText htexts
      rcases ss with _ | ⟨s, ss⟩
      · exact absurd hss hne
      · -- the best text is one of the texts, so it is a text of the run
        have hbest : Value.text (foldBest h.betterText s ss) ∈ values run := by
          rw [hss]
          exact List.mem_map_of_mem (foldBest_mem _ _ _)
        obtain ⟨n, hn, htext⟩ := mem_values hbest
        refine ⟨_, hfolded _ (by rw [hss, h.execute_texts]), foldsRun_single ?_ (.text hn htext)⟩
        intro before after
        rw [hss, h.execute_run_texts]
    · obtain ⟨xs, hxs, hordered⟩ := exists_map_of_all exists_of_isOrdered hnumbers
      rcases xs with _ | ⟨x, xs⟩
      · exact absurd hxs hne
      · refine ⟨_, hfolded _ (by rw [hxs, h.execute_numbers]), foldsRun_single ?_ (.number _)⟩
        intro before after
        rw [hxs, h.execute_run_numbers hordered]
  · exact ⟨run, if_neg hfold, .refl f hrun⟩

/-- What stands for members of a maximum or a minimum, whatever members are in front of them. -/
structure FoldsBehind (f : Function) (ms ms' : List Operand) : Prop where
  execute : ∀ out, Respects out → ∀ before,
    (ms'.mapM out >>= fun vs => f.execute (.list (before ++ vs))) =
      ms.mapM out >>= fun vs => f.execute (.list (before ++ vs))
  mem : ∀ m ∈ ms', Remnant ms m
  ne_nil : ms ≠ [] → ms' ≠ []
  length : 2 ≤ ms.length → (∃ m ∈ ms, m.isSymbolic = true) → 2 ≤ ms'.length

theorem FoldsBehind.folds {f : Function} {ms ms' : List Operand} (h : FoldsBehind f ms ms') :
    Folds f ms ms' :=
  ⟨fun out hout => h.execute out hout [], h.mem, h.length⟩

theorem FoldsRun.foldsBehind {f : Function} {run run' : List Operand}
    (hrun : ∀ m ∈ run, m.isSymbolic = false) (h : FoldsRun f run run') :
    FoldsBehind f run run' where
  execute out hout before := by
    rw [mapM_values hout hrun, mapM_values hout h.valued]
    have hexecute := h.execute before []
    simp only [List.append_nil] at hexecute
    exact hexecute
  mem := h.mem
  ne_nil := h.ne_nil
  length _ hsymbolic := by
    obtain ⟨m, hm, hsymbolic⟩ := hsymbolic
    rw [hrun m hm] at hsymbolic
    cases hsymbolic

/-- A run, a symbolic member behind it and the members that follow. -/
theorem FoldsRun.append {f : Function} {run run' ms ms' : List Operand}
    (hrun : ∀ m ∈ run, m.isSymbolic = false) (h : FoldsRun f run run')
    (h' : FoldsBehind f ms ms') (m : Operand) :
    FoldsBehind f (run ++ m :: ms) (run' ++ m :: ms') where
  execute out hout before := by
    simp only [List.mapM_append, List.mapM_cons, mapM_values hout hrun, mapM_values hout h.valued,
      Except.bind_ok, bind_assoc, pure_bind]
    congr 1
    funext v
    -- first the members behind the run, with the folded run in front of them, then the run itself
    have hms := h'.execute out hout (before ++ values run' ++ [v])
    have hvs : ∀ vs, f.execute (.list (before ++ values run' ++ [v] ++ vs)) =
        f.execute (.list (before ++ values run ++ [v] ++ vs)) := by
      intro vs
      simpa using h.execute before ([v] ++ vs)
    calc (ms'.mapM out >>= fun vs => f.execute (.list (before ++ (values run' ++ v :: vs))))
        = ms.mapM out >>= fun vs => f.execute (.list (before ++ values run' ++ [v] ++ vs)) := by
          simpa using hms
      _ = ms.mapM out >>= fun vs => f.execute (.list (before ++ values run ++ [v] ++ vs)) := by
          simp only [hvs]
      _ = ms.mapM out >>= fun vs => f.execute (.list (before ++ (values run ++ v :: vs))) := by
          simp
  mem n hn := by
    rcases List.mem_append.1 hn with hn | hn
    · exact (h.mem n hn).mono fun k hk => List.mem_append_left _ hk
    · rcases List.mem_cons.1 hn with rfl | hn
      · exact .kept (by simp)
      · exact (h'.mem n hn).mono fun k hk => by simp [hk]
  ne_nil _ := by simp
  length hlength _ := by
    simp only [List.length_append, List.length_cons] at hlength ⊢
    -- there is a second member in front of the symbolic one or behind it, and it is not lost
    rcases run with _ | ⟨k, run⟩
    · have hms : ms ≠ [] := by
        rintro rfl
        simp at hlength
      have hpos := List.length_pos_iff.2 (h'.ne_nil hms)
      omega
    · have hpos := List.length_pos_iff.2 (h.ne_nil (by simp))
      omega

theorem foldsBehind_foldRuns {f : Function} (h : Extreme f) (ms run : List Operand)
    (hrun : ∀ m ∈ run, m.isSymbolic = false) :
    ∃ ms', foldRuns f run ms = .ok ms' ∧ FoldsBehind f (run ++ ms) ms' := by
  -- the run in front is what has been read since the last symbolic member
  induction ms generalizing run with
  | nil =>
    obtain ⟨run', hfold, hrun'⟩ := foldsRun_foldRun h hrun
    refine ⟨run', hfold, ?_⟩
    rw [List.append_nil]
    exact hrun'.foldsBehind hrun
  | cons m ms ih =>
    cases hm : m.isSymbolic with
    | true =>
      obtain ⟨run', hfold, hrun'⟩ := foldsRun_foldRun h hrun
      obtain ⟨ms', hfolds, hms'⟩ := ih [] (by simp)
      refine ⟨run' ++ m :: ms', ?_, hrun'.append hrun hms' m⟩
      simp only [foldRuns, hm, if_true, hfold, hfolds]
      rfl
    | false =>
      have hlonger : ∀ n ∈ run ++ [m], n.isSymbolic = false := by
        intro n hn
        rcases List.mem_append.1 hn with hn | hn
        · exact hrun n hn
        · rw [List.mem_singleton.1 hn, hm]
      obtain ⟨ms', hfolds, hms'⟩ := ih (run ++ [m]) hlonger
      rw [List.append_assoc, List.singleton_append] at hms'
      refine ⟨ms', ?_, hms'⟩
      simp only [foldRuns, hm]
      exact hfolds

/-! ## Groups -/

/-- Folding the members of a group never fails, and the function comes to the same. -/
theorem folds_foldMembers (f : Function) (ms : List Operand) :
    ∃ ms', foldMembers (.function f) ms = .ok ms' ∧ Folds f ms ms' := by
  cases f with
  | sum =>
    exact folds_foldLeading ms
  | max =>
    obtain ⟨ms', hfold, hms'⟩ := foldsBehind_foldRuns .max ms [] (by simp)
    exact ⟨ms', hfold, hms'.folds⟩
  | min =>
    obtain ⟨ms', hfold, hms'⟩ := foldsBehind_foldRuns .min ms [] (by simp)
    exact ⟨ms', hfold, hms'.folds⟩
  | sin =>
    exact ⟨ms, rfl, .refl _ _⟩
  | cos =>
    exact ⟨ms, rfl, .refl _ _⟩
  | tan =>
    exact ⟨ms, rfl, .refl _ _⟩
  | abs =>
    exact ⟨ms, rfl, .refl _ _⟩
  | opp =>
    exact ⟨ms, rfl, .refl _ _⟩
  | recip =>
    exact ⟨ms, rfl, .refl _ _⟩
  | pow =>
    exact ⟨ms, rfl, .refl _ _⟩

end Deferral

end Reckon
