import Reckon.Operator.Execute
import Reckon.Proofs.Double.Order

/-!
# Extreme — best members and runs of neighbours

A maximum or a minimum goes through its members from left to right.  Any run of neighbours may be
replaced by the best of them beforehand, wherever it stands, as long as its members are all texts or
all numbers other than not-a-number:

* `foldBest_run` — going through a run is going through its best member;
* `Extreme` — a function that takes the best member of a list;
* `Extreme.execute_replace` — a run in a list that the function takes, and its best member in its
  place.

A candidate in front of the run may be anything.  A not-a-number is never better and never bettered,
so it is not allowed inside of the run, but it may stand in front of it and behind it.
-/

namespace Reckon

variable {α : Type}

/-! ## Candidates -/

/-- The better one of two candidates; the first one, unless the second one is better. -/
def better (lt : α → α → Bool) (x y : α) : α :=
  if lt y x then y else x

theorem better_eq_or (lt : α → α → Bool) (x y : α) : better lt x y = x ∨ better lt x y = y := by
  unfold better
  split
  · exact Or.inr rfl
  · exact Or.inl rfl

theorem foldBest_cons (lt : α → α → Bool) (x y : α) (ys : List α) :
    foldBest lt x (y :: ys) = foldBest lt (better lt x y) ys := rfl

theorem foldBest_append (lt : α → α → Bool) (x : α) (xs ys : List α) :
    foldBest lt x (xs ++ ys) = foldBest lt (foldBest lt x xs) ys :=
  List.foldl_append

/-- A comparison for which the members that satisfy `ordered` can be compared with each other. -/
structure Ranks (lt : α → α → Bool) (ordered : α → Prop) : Prop where
  trans : ∀ {x y z}, lt x y = true → lt y z = true → lt x z = true
  weak : ∀ {x y z}, lt x z = true → lt x y = false → ordered y → lt y z = true

theorem Ranks.better_assoc {lt : α → α → Bool} {ordered : α → Prop} (h : Ranks lt ordered)
    (p : α) {x : α} (hx : ordered x) (y : α) :
    better lt (better lt p x) y = better lt p (better lt x y) := by
  unfold better
  -- the cases are those of the two comparisons with `x`, which can be compared with anything
  cases hxp : lt x p with
  | true =>
    cases hyx : lt y x with
    | true =>
      simp [hyx, h.trans hyx hxp]
    | false =>
      simp [hyx, hxp]
  | false =>
    cases hyx : lt y x with
    | true =>
      simp
    | false =>
      cases hyp : lt y p with
      | true =>
        -- better than `p` and no better than `x`, so `x` would be better than `p`
        have hbetter := h.weak hyp hyx hx
        rw [hxp] at hbetter
        cases hbetter
      | false =>
        simp [hxp, hyp]

/-- Going through a run is going through its best member. -/
theorem foldBest_run {lt : α → α → Bool} {ordered : α → Prop} (h : Ranks lt ordered) (p x : α)
    (xs : List α) (hordered : ∀ y ∈ x :: xs, ordered y) :
    foldBest lt p (x :: xs) = better lt p (foldBest lt x xs) := by
  -- the best of the first two members takes their place, and the run gets shorter
  induction xs generalizing x with
  | nil =>
    rfl
  | cons y ys ih =>
    have hx : ordered x := hordered x (by simp)
    have hbest : ordered (better lt x y) := by
      rcases better_eq_or lt x y with heq | heq
      · rw [heq]
        exact hx
      · rw [heq]
        exact hordered y (by simp)
    have hrest : ∀ z ∈ better lt x y :: ys, ordered z := by
      intro z hz
      rcases List.mem_cons.1 hz with rfl | hz
      · exact hbest
      · exact hordered z (by simp [hz])
    calc foldBest lt p (x :: y :: ys)
        = foldBest lt (better lt (better lt p x) y) ys := rfl
      _ = foldBest lt p (better lt x y :: ys) := by rw [h.better_assoc p hx, foldBest_cons]
      _ = better lt p (foldBest lt x (y :: ys)) := by rw [ih _ hrest, foldBest_cons]

/-- A run behind a candidate, and its best member in its place. -/
theorem foldBest_replace {lt : α → α → Bool} {ordered : α → Prop} (h : Ranks lt ordered)
    (p : α) (before : List α) (x : α) (xs after : List α) (hordered : ∀ y ∈ x :: xs, ordered y) :
    foldBest lt p (before ++ x :: xs ++ after) =
      foldBest lt p (before ++ foldBest lt x xs :: after) := by
  rw [List.append_assoc, foldBest_append, foldBest_append, foldBest_append,
    foldBest_run h _ x xs hordered, foldBest_cons]

/-! ## Comparisons -/

theorem ranks_greater_number :
    Ranks (fun x best : Float => decide (best < x)) fun x => x.isNaN = false where
  trans h h' := by
    rw [decide_eq_true_eq] at *
    exact Double.lt_trans h' h
  weak h h' hy := by
    rw [decide_eq_true_eq, decide_eq_false_iff_not] at *
    exact Double.lt_of_lt_of_not_lt h h' hy

theorem ranks_less_number :
    Ranks (fun x best : Float => decide (x < best)) fun x => x.isNaN = false where
  trans h h' := by
    rw [decide_eq_true_eq] at *
    exact Double.lt_trans h h'
  weak h h' hy := by
    rw [decide_eq_true_eq, decide_eq_false_iff_not] at *
    exact Double.lt_of_not_lt_of_lt h' h hy

theorem ranks_greater_text : Ranks (fun s best : CodeText => decide (best < s)) fun _ => True where
  trans h h' := by
    rw [decide_eq_true_eq] at *
    exact CodeText.lt_trans h' h
  weak h h' _ := by
    rw [decide_eq_true_eq, decide_eq_false_iff_not] at *
    exact CodeText.lt_of_lt_of_not_lt h h'

theorem ranks_less_text : Ranks (fun s best : CodeText => decide (s < best)) fun _ => True where
  trans h h' := by
    rw [decide_eq_true_eq] at *
    exact CodeText.lt_trans h h'
  weak h h' _ := by
    rw [decide_eq_true_eq, decide_eq_false_iff_not] at *
    exact CodeText.lt_of_not_lt_of_lt h' h

/-! ## Functions -/

/-- A function that takes the best member of a list of numbers or of texts. -/
structure Extreme (f : Function) where
  betterNumber : Float → Float → Bool
  betterText : CodeText → CodeText → Bool
  execute_eq : ∀ v, f.execute v = Function.executeExtreme f betterNumber betterText v
  ranksNumber : Ranks betterNumber fun x => x.isNaN = false
  ranksText : Ranks betterText fun _ => True

/-- The maximum takes the first member that no other one is greater than. -/
def Extreme.max : Extreme .max where
  betterNumber x best := best < x
  betterText s best := best < s
  execute_eq _ := rfl
  ranksNumber := ranks_greater_number
  ranksText := ranks_greater_text

/-- The minimum takes the first member that no other one is less than. -/
def Extreme.min : Extreme .min where
  betterNumber x best := x < best
  betterText s best := s < best
  execute_eq _ := rfl
  ranksNumber := ranks_less_number
  ranksText := ranks_less_text

namespace Extreme

variable {f : Function} (h : Extreme f)

theorem numbers?_map (xs : List Float) : Value.numbers? (xs.map .number) = some xs :=
  Value.numbers?_eq_some_iff.2 rfl

theorem texts?_map (ss : List CodeText) : Value.texts? (ss.map .text) = some ss :=
  Value.texts?_eq_some_iff.2 rfl

theorem execute_numbers (x : Float) (xs : List Float) :
    f.execute (.list ((x :: xs).map .number)) = .ok (.number (foldBest h.betterNumber x xs)) := by
  rw [h.execute_eq]
  simp only [List.map_cons, Function.executeExtreme]
  rw [← List.map_cons, numbers?_map]

theorem execute_texts (s : CodeText) (ss : List CodeText) :
    f.execute (.list ((s :: ss).map .text)) = .ok (.text (foldBest h.betterText s ss)) := by
  rw [h.execute_eq]
  simp only [List.map_cons, Function.executeExtreme]
  rw [← List.map_cons, texts?_map]
  rfl

include h in
theorem execute_mixed {vs : List Value} (hvs : vs ≠ [])
    (hnumbers : ∀ xs : List Float, vs ≠ xs.map .number)
    (htexts : ∀ ss : List CodeText, vs ≠ ss.map .text) :
    f.execute (.list vs) = f.refuse (some .mixedMembers) := by
  have hnone : Value.numbers? vs = none := by
    cases hxs : Value.numbers? vs with
    | none =>
      rfl
    | some xs =>
      exact absurd (Value.numbers?_eq_some_iff.1 hxs) (hnumbers xs)
  have hnone' : Value.texts? vs = none := by
    cases hss : Value.texts? vs with
    | none =>
      rfl
    | some ss =>
      exact absurd (Value.texts?_eq_some_iff.1 hss) (htexts ss)
  rw [h.execute_eq]
  cases vs with
  | nil =>
    exact absurd rfl hvs
  | cons v vs =>
    simp only [Function.executeExtreme, hnone, hnone']

include h in
theorem execute_mixed_number {x : Float} {vs : List Value} (hx : .number x ∈ vs)
    (hnumbers : ∀ xs : List Float, vs ≠ xs.map .number) :
    f.execute (.list vs) = f.refuse (some .mixedMembers) := by
  refine h.execute_mixed (List.ne_nil_of_mem hx) hnumbers ?_
  rintro ss rfl
  simp at hx

include h in
theorem execute_mixed_text {s : CodeText} {vs : List Value} (hs : .text s ∈ vs)
    (htexts : ∀ ss : List CodeText, vs ≠ ss.map .text) :
    f.execute (.list vs) = f.refuse (some .mixedMembers) := by
  refine h.execute_mixed (List.ne_nil_of_mem hs) ?_ htexts
  rintro xs rfl
  simp at hs

/-- A run of members of one kind, which `mk` makes, and the best of them in its place. -/
theorem execute_replace {mk : α → Value} {lt : α → α → Bool} {ordered : α → Prop}
    (hranks : Ranks lt ordered)
    (hexecute : ∀ x xs, f.execute (.list ((x :: xs).map mk)) = .ok (mk (foldBest lt x xs)))
    (hmixed : ∀ {x vs}, mk x ∈ vs → (∀ xs : List α, vs ≠ xs.map mk) →
      f.execute (.list vs) = f.refuse (some .mixedMembers))
    {x : α} {xs : List α} (hordered : ∀ y ∈ x :: xs, ordered y) (before after : List Value) :
    f.execute (.list (before ++ (x :: xs).map mk ++ after)) =
      f.execute (.list (before ++ mk (foldBest lt x xs) :: after)) := by
  by_cases hall : (∃ bs : List α, before = bs.map mk) ∧ ∃ ys : List α, after = ys.map mk
  · obtain ⟨⟨bs, rfl⟩, ys, rfl⟩ := hall
    rw [← List.map_append, ← List.map_append, ← List.map_cons, ← List.map_append]
    -- the first candidate is a member in front of the run, or the first one of the run itself
    cases bs with
    | nil =>
      simp only [List.nil_append, List.cons_append, hexecute, foldBest_append]
    | cons b bs =>
      simp only [List.cons_append (a := b), hexecute]
      rw [foldBest_replace hranks b bs x xs ys hordered]
  · -- with a member of another kind, the list is refused either way
    have hother : ∀ zs : List Value, ∀ vs : List α, before ++ zs ++ after ≠ vs.map mk := by
      intro zs vs heq
      obtain ⟨us, ys, rfl, hus, hys⟩ := List.map_eq_append_iff.1 heq.symm
      obtain ⟨bs, _, rfl, hbs, _⟩ := List.map_eq_append_iff.1 hus
      exact hall ⟨⟨bs, hbs.symm⟩, ys, hys.symm⟩
    have hbest : ∀ vs : List α, before ++ mk (foldBest lt x xs) :: after ≠ vs.map mk := by
      simpa using hother [mk (foldBest lt x xs)]
    have hmem : mk x ∈ before ++ (x :: xs).map mk ++ after := by simp
    have hmem' : mk (foldBest lt x xs) ∈ before ++ mk (foldBest lt x xs) :: after := by simp
    rw [hmixed hmem (hother _), hmixed hmem' hbest]

/-- A run of numbers and their extreme in its place. -/
theorem execute_run_numbers {x : Float} {xs : List Float}
    (hordered : ∀ y ∈ x :: xs, y.isNaN = false) (before after : List Value) :
    f.execute (.list (before ++ (x :: xs).map .number ++ after)) =
      f.execute (.list (before ++ .number (foldBest h.betterNumber x xs) :: after)) :=
  execute_replace h.ranksNumber h.execute_numbers h.execute_mixed_number hordered before after

/-- A run of texts and their extreme in its place. -/
theorem execute_run_texts (s : CodeText) (ss : List CodeText) (before after : List Value) :
    f.execute (.list (before ++ (s :: ss).map .text ++ after)) =
      f.execute (.list (before ++ .text (foldBest h.betterText s ss) :: after)) :=
  execute_replace h.ranksText h.execute_texts h.execute_mixed_text (fun _ _ => trivial) before after

end Extreme

end Reckon
