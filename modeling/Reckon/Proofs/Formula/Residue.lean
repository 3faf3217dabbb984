import Reckon.Proofs.Evaluation.Lockstep
import Reckon.Proofs.Formula.Obtainable

/-!
# Residue — what a formula leaves to be computed

A compilation executes what it can, so no operator of a formula but the comma is ever executed on
operands that are made of constants only.

* `Interpretation.recording` — replays in which operands know the expressions that they come from;
* `Tree.IsFolded.exists_marker` — a folded tree executes no operator on constants;
* `Formula.isFolded_of_compile` — the tree of a formula is folded, whatever its constants have
  become;
* `Formula.executed_on_markers` — the replay of a formula executes no operator on constants.
-/

namespace Reckon

open Operand

/-! ## Replays with expressions -/

/-- A step on operands that are seen in another way. -/
def Step.map {α β : Type} (f : α → β) : Step α → Step β
  | .resolution name => .resolution name
  | .reduction op operands => .reduction op (operands.map f)

namespace Traced

variable {α β γ δ ρ σ : Type}

/-- A computation whose operands and whose result are seen in another way. -/
def map (f : α → β) (g : γ → δ) (x : Traced α γ) : Traced β δ :=
  ⟨x.steps.map (Step.map f), x.result.map g⟩

theorem map_bind {f : α → β} {g : γ → δ} {g' : ρ → σ} {k : γ → Traced α ρ} {k' : δ → Traced β σ}
    (x : Traced α γ) (hk : ∀ v, (k v).map f g' = k' (g v)) :
    (x >>= k).map f g' = x.map f g >>= k' := by
  obtain ⟨steps, result⟩ := x
  cases result with
  | error e =>
    rfl
  | ok v =>
    have hleft : (⟨steps, .ok v⟩ : Traced α γ) >>= k = ⟨steps ++ (k v).steps, (k v).result⟩ := rfl
    have hright : (⟨steps, .ok v⟩ : Traced α γ).map f g >>= k' =
        ⟨steps.map (Step.map f) ++ (k' (g v)).steps, (k' (g v)).result⟩ := rfl
    rw [hleft, hright, ← hk v]
    simp only [map, List.map_append]

end Traced

namespace Interpretation

variable {α : Type}

/-- Every operand comes with the expression that it is the result of. -/
def recording (i : Interpretation α) : Interpretation (Tree × α) where
  binary op x y := (i.binary op x.2 y.2).map (Prod.mk (.binary op x.1 y.1))
  function f x := (i.function f x.2).map (Prod.mk (.call f x.1))
  constant v marks := (.constant v marks, i.constant v marks)
  resolve name := (i.resolve name).map (Prod.mk (.marker name))

end Interpretation

namespace Tree

variable {α : Type} {i : Interpretation α} {t : Tree}

theorem map_single (s : Step (Tree × α)) (u : Tree) (o : Except Error α) :
    (Traced.single s (o.map (Prod.mk u))).map Prod.snd Prod.snd =
      .single (s.map Prod.snd) o := by
  cases o <;> rfl

/-- But for the expressions, what is recorded is the run itself. -/
theorem map_run_recording (i : Interpretation α) (t : Tree) :
    (t.run i.recording).map Prod.snd Prod.snd = t.run i := by
  induction t with
  | constant v marks =>
    rfl
  | marker name =>
    exact map_single _ _ _
  | binary op t u iht ihu =>
    rw [run, run, ← iht, ← ihu]
    refine Traced.map_bind _ fun v => Traced.map_bind _ fun w => ?_
    exact map_single _ _ _
  | call f t ih =>
    rw [run, run, ← ih]
    refine Traced.map_bind _ fun v => ?_
    exact map_single _ _ _

theorem fst_of_map {β : Type} {u : Tree} {o : Except Error β} {x : Tree × β}
    (h : o.map (Prod.mk u) = .ok x) : x.1 = u := by
  cases o with
  | error e =>
    cases h
  | ok v =>
    cases h
    rfl

/-- What is recorded for the result is the tree that has been run. -/
theorem fst_of_run {x : Tree × α} (h : (t.run i.recording).result = .ok x) : x.1 = t := by
  induction t generalizing x with
  | constant v marks =>
    cases h
    rfl
  | marker name =>
    exact fst_of_map h
  | binary op t u iht ihu =>
    obtain ⟨v, hv, h, _⟩ := Traced.exists_of_result_bind h
    obtain ⟨w, hw, h, _⟩ := Traced.exists_of_result_bind h
    rw [← iht hv, ← ihu hw]
    exact fst_of_map h
  | call f t ih =>
    obtain ⟨v, hv, h, _⟩ := Traced.exists_of_result_bind h
    rw [← ih hv]
    exact fst_of_map h

/-- A folded tree executes every operator but the comma on an operand that has a marker in it. -/
theorem IsFolded.exists_marker (h : t.IsFolded) {op : Operator} {operands : List (Tree × α)}
    (hs : .reduction op operands ∈ (t.run i.recording).steps) (hop : op ≠ .binary .comma) :
    ∃ x ∈ operands, x.1.markers ≠ [] := by
  induction h with
  | constant marks hflat =>
    cases hs
  | marker name =>
    cases hs with
    | tail _ hs =>
      cases hs
  | @binary op' t u hmarkers _ _ iht ihu =>
    rw [run, Traced.mem_steps_bind] at hs
    rcases hs with hs | ⟨v, hv, hs⟩
    · exact iht hs
    rw [Traced.mem_steps_bind] at hs
    rcases hs with hs | ⟨w, hw, hs⟩
    · exact ihu hs
    -- the operator at the root, on the results of the two operands
    cases List.mem_singleton.1 hs
    have hne : t.markers ++ u.markers ≠ [] := hmarkers fun heq => hop (congrArg _ heq)
    rw [← fst_of_run hv, ← fst_of_run hw] at hne
    by_cases hleft : v.1.markers = []
    · rw [hleft, List.nil_append] at hne
      exact ⟨w, by simp, hne⟩
    · exact ⟨v, by simp, hleft⟩
  | @call f t hmarkers _ ih =>
    rw [run, Traced.mem_steps_bind] at hs
    rcases hs with hs | ⟨v, hv, hs⟩
    · exact ih hs
    cases List.mem_singleton.1 hs
    rw [← fst_of_run hv] at hmarkers
    exact ⟨v, by simp, hmarkers⟩

end Tree

/-! ## Formulas -/

/-- A compilation works on obtainable operands. -/
theorem Operand.keeps_obtainable [Capacity] (r : Reading) :
    Semantics.symbolic.Keeps r Obtainable where
  number x := .constant [] (Value.IsScalar.number x).isFlat
  text t _ _ := .constant [] (Value.IsScalar.text trivial).isFlat
  resolve := by
    intro name a ha
    rw [Semantics.eq_of_resolve_symbolic ha]
    exact .marker name
  binary := by
    intro op a c z ha hc hz
    exact .binary ha hc ((Deferral.execute_binary op a c).trans hz)
  function := by
    intro f a z ha hz
    exact .function ha ((Deferral.execute_function f a).trans hz)

namespace Formula

variable {source : String} {f : Formula}

section

variable [Capacity]

/-- The sequence of a formula is the one of an obtainable operand. -/
theorem exists_obtainable (hcompile : compile source = .ok f) :
    ∃ a : Operand, a.Obtainable ∧ f.sequence = a.sequence := by
  rw [compile_eq] at hcompile
  obtain ⟨a, ha, hcompile⟩ := Except.exists_of_bind_eq_ok hcompile
  obtain rfl := Except.ok.inj hcompile
  rw [Evaluation.result_traced] at ha
  exact ⟨a, (keeps_obtainable _).result ha, rfl⟩

/-- A formula is read as a tree on which no work is left that could be done ahead of time. -/
theorem isFolded_of_compile (hcompile : compile source = .ok f) :
    ∃ t, Tree.ofSequence f.sequence = .ok t ∧ t.IsFolded := by
  obtain ⟨a, ha, hsequence⟩ := exists_obtainable hcompile
  obtain ⟨t, ht⟩ := ha.exists_isWritten
  exact ⟨t, hsequence ▸ ht.ofSequence, ht.folded⟩

/-- The replay of a formula in which every value comes with the expression that it is the value
of. -/
def recorded (f : Formula) (b : Bindings) : Traced (Tree × Value) (Tree × Value) :=
  (Interpretation.direct b).recording.replay f.sequence

/-- The replay of a formula executes every operator but the comma on an operand that has a variable
in it, so nothing is computed from constants only. -/
theorem executed_on_markers (hcompile : compile source = .ok f) (b : Bindings) :
    (f.recorded b).result.map Prod.snd = f.replay b ∧
      (f.recorded b).steps.map (Step.map Prod.snd) =
        ((Interpretation.direct b).replay f.sequence).steps ∧
        ∀ op operands, .reduction op operands ∈ (f.recorded b).steps → op ≠ .binary .comma →
          ∃ x ∈ operands, x.1.markers ≠ [] := by
  obtain ⟨t, hread, hfolded⟩ := isFolded_of_compile hcompile
  have hrun := Tree.replay_eq_run hread (Interpretation.direct b)
  have hrecorded : f.recorded b = t.run (Interpretation.direct b).recording :=
    Tree.replay_eq_run hread _
  have hmap := Tree.map_run_recording (Interpretation.direct b) t
  rw [hrecorded]
  refine ⟨?_, ?_, ?_⟩
  · rw [replay_eq_result, hrun, ← hmap]
    rfl
  · rw [hrun, ← hmap]
    rfl
  · intro op operands hs hop
    exact hfolded.exists_marker hs hop

end

/-- A product with constants in a group and a difference that is zero. -/
theorem executed_on_markers_of_product :
    ∃ f, compile "max(1 + 2, $x, $y - $y) * ($x + 2 * 3)" = .ok f ∧
      (f.recorded [("x", .number 4)]).result.map Prod.snd = f.replay [("x", .number 4)] ∧
        ∀ op operands, .reduction op operands ∈ (f.recorded [("x", .number 4)]).steps →
          op ≠ .binary .comma → ∃ x ∈ operands, x.1.markers ≠ [] := by
  have hsome : (compile "max(1 + 2, $x, $y - $y) * ($x + 2 * 3)").isOk = true := by decide +kernel
  obtain ⟨f, hcompile⟩ := Except.exists_of_isOk hsome
  have h := executed_on_markers hcompile [("x", .number 4)]
  exact ⟨f, hcompile, h.1, h.2.2⟩

end Formula

end Reckon
