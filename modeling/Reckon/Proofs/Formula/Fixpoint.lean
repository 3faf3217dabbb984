import Reckon.Formula.Deferral
import Reckon.Proofs.Machine.Outcome

/-!
# Fixpoint — members that are folded once stay as they are

Folding leaves no work behind: the numbers in front of a sum have become a single one, and so has
every run of a maximum or a minimum that could be folded.  It leaves symbolic members alone.

* `Deferral.foldLeading_fixed`, `Deferral.foldRuns_spec` — sums and extremes;
* `Deferral.foldMembers_spec` — folding keeps the symbolic members, and folding once is enough.
-/

namespace Reckon
namespace Deferral

open Operand

/-- Members that all have values. -/
def Valued (ms : List Operand) : Prop :=
  ∀ m ∈ ms, m.isSymbolic = false

variable {f : Function} {ms ms' run run' : List Operand}

theorem valued_nil : Valued [] := by
  rintro m ⟨⟩

theorem valued_value (v : Value) : Valued [value v] :=
  List.forall_mem_singleton.2 rfl

theorem Valued.symbols (h : Valued ms) : symbols ms = [] := by
  refine List.filter_eq_nil_iff.2 ?_
  intro m hm
  rw [h m hm]
  decide

theorem Valued.concat (h : Valued run) {m : Operand} (hm : m.isSymbolic = false) :
    Valued (run ++ [m]) :=
  List.forall_mem_append.2 ⟨h, List.forall_mem_singleton.2 hm⟩

theorem symbols_append (ms ms' : List Operand) : symbols (ms ++ ms') = symbols ms ++ symbols ms' :=
  List.filter_append ms ms'

theorem symbols_cons {m : Operand} (hm : m.isSymbolic = true) (ms : List Operand) :
    symbols (m :: ms) = m :: symbols ms :=
  List.filter_cons_of_pos hm

/-! ## Sums -/

/-- What is folded of a sum: nothing, or everything in front of the first symbolic member. -/
theorem foldLeading_cases (h : foldLeading ms = .ok ms') :
    ms' = ms ∨ ∃ v, ms' = value v :: ms.dropWhile fun m => !m.isSymbolic := by
  have hsplit := List.takeWhile_append_dropWhile (p := fun m => !m.isSymbolic) (l := ms)
  unfold foldLeading at h
  dsimp only at h
  split at h
  · obtain ⟨v, _, h⟩ := Except.exists_of_bind_eq_ok h
    obtain rfl := Except.ok.inj h
    have hdrop := congrArg (List.drop (ms.takeWhile fun m => !m.isSymbolic).length) hsplit
    rw [List.drop_left] at hdrop
    exact Or.inr ⟨v, congrArg (value v :: ·) hdrop.symm⟩
  · exact Or.inl (Except.ok.inj h).symm

theorem takeWhile_dropWhile (p : Operand → Bool) (ms : List Operand) :
    (ms.dropWhile p).takeWhile p = [] := by
  induction ms with
  | nil =>
    rfl
  | cons m ms ih =>
    rw [List.dropWhile_cons]
    split
    · exact ih
    · exact List.takeWhile_cons_of_neg ‹_›

theorem symbols_dropWhile (ms : List Operand) :
    symbols (ms.dropWhile fun m => !m.isSymbolic) = symbols ms := by
  have hvalued : Valued (ms.takeWhile fun m => !m.isSymbolic) := by
    intro m hm
    simpa using List.all_eq_true.1 List.all_takeWhile m hm
  have hsplit := congrArg symbols
    (List.takeWhile_append_dropWhile (p := fun m => !m.isSymbolic) (l := ms))
  rw [symbols_append, hvalued.symbols, List.nil_append] at hsplit
  exact hsplit

theorem symbols_foldLeading (h : foldLeading ms = .ok ms') : symbols ms' = symbols ms := by
  rcases foldLeading_cases h with rfl | ⟨v, rfl⟩
  · rfl
  · have hcons : symbols (value v :: ms.dropWhile fun m => !m.isSymbolic) =
        symbols (ms.dropWhile fun m => !m.isSymbolic) := rfl
    exact hcons.trans (symbols_dropWhile ms)

/-- In front of the first symbolic member a single number is left, which is not folded. -/
theorem foldLeading_fixed (h : foldLeading ms = .ok ms') : foldLeading ms' = .ok ms' := by
  rcases foldLeading_cases h with rfl | ⟨v, rfl⟩
  · exact h
  · have hrun : ((value v :: ms.dropWhile fun m => !m.isSymbolic).takeWhile fun m =>
        !m.isSymbolic) = [value v] := by
      rw [List.takeWhile_cons_of_pos rfl, takeWhile_dropWhile]
    simp only [foldLeading, hrun]
    exact if_neg fun hlength => absurd hlength.1 (by simp)

/-! ## Extremes -/

/-- What is folded of a run: nothing, or all of it. -/
theorem foldRun_cases (h : foldRun f run = .ok run') : run' = run ∨ ∃ v, run' = [value v] := by
  unfold foldRun at h
  split at h
  · obtain ⟨v, _, h⟩ := Except.exists_of_bind_eq_ok h
    exact Or.inr ⟨v, (Except.ok.inj h).symm⟩
  · exact Or.inl (Except.ok.inj h).symm

theorem Valued.foldRun (hrun : Valued run) (h : foldRun f run = .ok run') : Valued run' := by
  rcases foldRun_cases h with rfl | ⟨v, rfl⟩
  · exact hrun
  · exact valued_value v

theorem foldRun_fixed (h : foldRun f run = .ok run') : foldRun f run' = .ok run' := by
  rcases foldRun_cases h with rfl | ⟨v, rfl⟩
  · exact h
  · exact if_neg fun hlength => absurd hlength.1 (by simp)

/-- Members with values are collected up to the next symbolic one. -/
theorem foldRuns_append (h : Valued run) (front ms : List Operand) :
    foldRuns f front (run ++ ms) = foldRuns f (front ++ run) ms := by
  induction run generalizing front with
  | nil =>
    rw [List.nil_append, List.append_nil]
  | cons m run ih =>
    obtain ⟨hm, hrun⟩ := List.forall_mem_cons.1 h
    rw [List.cons_append, foldRuns, hm, List.append_cons front m run]
    exact ih hrun (front ++ [m])

theorem foldRuns_symbolic {m : Operand} (hm : m.isSymbolic = true) :
    foldRuns f run (m :: ms) = foldRun f run >>= fun folded =>
      foldRuns f [] ms >>= fun others => .ok (folded ++ m :: others) := by
  rw [foldRuns, if_pos hm]
  rfl

/-- Folding goes from one symbolic member to the next, and none of them is lost. -/
theorem foldRuns_spec (hrun : Valued run) (h : foldRuns f run ms = .ok ms') :
    symbols ms' = symbols ms ∧ foldRuns f [] ms' = .ok ms' := by
  -- the run in front is what has been read since the last symbolic member
  induction ms generalizing run ms' with
  | nil =>
    have hvalued : Valued ms' := hrun.foldRun h
    refine ⟨hvalued.symbols, ?_⟩
    have happend := foldRuns_append (f := f) hvalued [] []
    rw [List.append_nil, List.nil_append] at happend
    rw [happend]
    exact foldRun_fixed h
  | cons m ms ih =>
    cases hm : m.isSymbolic with
    | true =>
      rw [foldRuns_symbolic hm] at h
      obtain ⟨folded, hfolded, h⟩ := Except.exists_of_bind_eq_ok h
      obtain ⟨others, hothers, h⟩ := Except.exists_of_bind_eq_ok h
      obtain rfl := Except.ok.inj h
      have hvalued : Valued folded := hrun.foldRun hfolded
      obtain ⟨hsymbols, hfixed⟩ := ih valued_nil hothers
      constructor
      · rw [symbols_append, hvalued.symbols, List.nil_append, symbols_cons hm, symbols_cons hm,
          hsymbols]
      · rw [foldRuns_append hvalued, List.nil_append, foldRuns_symbolic hm,
          foldRun_fixed hfolded, Except.bind_ok, hfixed, Except.bind_ok]
    | false =>
      rw [foldRuns, hm] at h
      obtain ⟨hsymbols, hfixed⟩ := ih (hrun.concat hm) h
      have hcons : symbols (m :: ms) = symbols ms :=
        List.filter_cons_of_neg (by simp [hm])
      exact ⟨hsymbols.trans hcons.symm, hfixed⟩

/-! ## Groups -/

/-- Folding keeps the symbolic members, and folding once is enough. -/
theorem foldMembers_spec (f : Function) (h : foldMembers (.function f) ms = .ok ms') :
    symbols ms' = symbols ms ∧ foldMembers (.function f) ms' = .ok ms' := by
  cases f with
  | sum =>
    exact ⟨symbols_foldLeading h, foldLeading_fixed h⟩
  | max =>
    exact foldRuns_spec valued_nil h
  | min =>
    exact foldRuns_spec valued_nil h
  | _ =>
    obtain rfl := Except.ok.inj h
    exact ⟨rfl, rfl⟩

/-- Where a member is symbolic before folding, one is symbolic behind it. -/
theorem exists_symbolic_of_foldMembers (h : foldMembers (.function f) ms = .ok ms')
    (hsymbolic : ∃ m ∈ ms, m.isSymbolic = true) : ∃ m ∈ ms', m.isSymbolic = true := by
  obtain ⟨m, hm, hs⟩ := hsymbolic
  have hmem : m ∈ symbols ms' := by
    rw [(foldMembers_spec f h).1]
    exact List.mem_filter.2 ⟨hm, hs⟩
  exact ⟨m, (List.mem_filter.1 hmem).1, hs⟩

end Deferral
end Reckon
