import Reckon.Proofs.Double.Zero
import Reckon.Proofs.Formula.Sameness

/-!
# Signs — operators on values that differ in the signs of zeros

Values that are equal without the signs of their zeros agree as numbers, texts and lists.  Operators
make such values of such values, or they refuse both for the same reason:

* `Value.Alike` — the kinds of such values, and `Value.agrees_of_unsigned`;
* `Binary.execute_unsigned` — the operators with two operands;
* `Function.execute_unsigned` — the functions, with one exception;
* `OddPoles` — the exception: powers with the two zeros as their bases and an exponent that is
  negative and odd.
-/

namespace Reckon

/-! ## Sums and candidates -/

namespace Double

theorem unsigned_foldl_add {xs ys : List Float} (h : xs.map unsigned = ys.map unsigned)
    {x y : Float} (hxy : unsigned x = unsigned y) :
    unsigned (xs.foldl (· + ·) x) = unsigned (ys.foldl (· + ·) y) := by
  induction xs generalizing ys x y with
  | nil =>
    obtain rfl := List.map_eq_nil_iff.1 h.symm
    exact hxy
  | cons a xs ih =>
    obtain ⟨c, zs, rfl, hac, hrest⟩ := List.map_eq_cons_iff.1 h.symm
    exact ih hrest.symm (unsigned_add hxy hac.symm)

/-- Whether a double is better than another one does not depend on the signs of zeros. -/
def Unsigned (better : Float → Float → Bool) : Prop :=
  ∀ {x x' y y'}, unsigned x = unsigned x' → unsigned y = unsigned y' → better x y = better x' y'

theorem unsigned_greater : Unsigned fun x best => best < x :=
  fun hx hy => decide_eq_decide.2 (lt_congr hy hx)

theorem unsigned_less : Unsigned fun x best => x < best :=
  fun hx hy => decide_eq_decide.2 (lt_congr hx hy)

theorem unsigned_foldBest {better : Float → Float → Bool} (hbetter : Unsigned better)
    {xs ys : List Float} (h : xs.map unsigned = ys.map unsigned) {x y : Float}
    (hxy : unsigned x = unsigned y) :
    unsigned (foldBest better x xs) = unsigned (foldBest better y ys) := by
  induction xs generalizing ys x y with
  | nil =>
    obtain rfl := List.map_eq_nil_iff.1 h.symm
    exact hxy
  | cons a xs ih =>
    obtain ⟨c, zs, rfl, hac, hrest⟩ := List.map_eq_cons_iff.1 h.symm
    refine ih hrest.symm ?_
    dsimp only
    rw [hbetter hac.symm hxy]
    split
    · exact hac.symm
    · exact hxy

end Double

/-! ## Kinds of values -/

namespace Value

/-- Values that are equal without the signs of zeros, by their kind. -/
inductive Alike : Value → Value → Prop where
  | number {x y : Float} : Double.unsigned x = Double.unsigned y → Alike (.number x) (.number y)
  | text (s : CodeText) : Alike (.text s) (.text s)
  | list {vs ws : List Value} : vs.map unsigned = ws.map unsigned → Alike (.list vs) (.list ws)
  | stray (s : Stray) : Alike (.stray s) (.stray s)

theorem unsignedMembers_eq_map (vs : List Value) : unsignedMembers vs = vs.map unsigned := by
  induction vs with
  | nil =>
    rfl
  | cons v vs ih =>
    rw [unsignedMembers, ih, List.map_cons]

theorem alike_of_unsigned {v w : Value} (h : v.unsigned = w.unsigned) : Alike v w := by
  cases v with
  | number x =>
    cases w with
    | number y =>
      exact .number (number.inj h)
    | text _ | list _ | stray _ =>
      cases h
  | text s =>
    cases w with
    | text t =>
      obtain rfl : s = t := text.inj h
      exact .text s
    | number _ | list _ | stray _ =>
      cases h
  | list vs =>
    cases w with
    | list ws =>
      have hmembers := list.inj h
      rw [unsignedMembers_eq_map, unsignedMembers_eq_map] at hmembers
      exact .list hmembers
    | number _ | text _ | stray _ =>
      cases h
  | stray s =>
    cases w with
    | stray t =>
      obtain rfl : s = t := stray.inj h
      exact .stray s
    | number _ | text _ | list _ =>
      cases h

theorem unsigned_list {vs ws : List Value} (h : vs.map unsigned = ws.map unsigned) :
    (Value.list vs).unsigned = (Value.list ws).unsigned := by
  rw [unsigned, unsigned, unsignedMembers_eq_map, unsignedMembers_eq_map, h]

theorem agrees_number {x y : Float} (h : Double.unsigned x = Double.unsigned y) :
    (number x).agrees (.number y) = true := by
  rw [agrees]
  rcases Double.eq_or_zeros_of_unsigned h with rfl | ⟨rfl | rfl, rfl | rfl⟩
  · -- not-a-number is the only double that is not equal to itself
    cases hx : x.isNaN with
    | true =>
      simp
    | false =>
      have hbeq : (x == x) = true :=
        Float.beq_iff_ne_nan_and_eq.2 (by simp_all [Float.isNaN_eq_decide_eq_nan])
      rw [hbeq]
      rfl
  all_goals decide +kernel

mutual

/-- Values that are equal without the signs of zeros agree. -/
theorem agrees_of_unsigned : (v w : Value) → v.unsigned = w.unsigned → v.agrees w = true
  | .number _, .number _, h => agrees_number (number.inj h)
  | .text _, .text _, h => agrees_text.2 (text.inj h)
  | .list vs, .list ws, h => membersAgree_of_unsigned vs ws (list.inj h)
  | .stray _, .stray _, h => by
    obtain rfl := stray.inj h
    simp [agrees]
  | .number _, .text _, h | .number _, .list _, h | .number _, .stray _, h => nomatch h
  | .text _, .number _, h | .text _, .list _, h | .text _, .stray _, h => nomatch h
  | .list _, .number _, h | .list _, .text _, h | .list _, .stray _, h => nomatch h
  | .stray _, .number _, h | .stray _, .text _, h | .stray _, .list _, h => nomatch h

theorem membersAgree_of_unsigned : (vs ws : List Value) →
    unsignedMembers vs = unsignedMembers ws → membersAgree vs ws = true
  | [], [], _ => rfl
  | [], _ :: _, h | _ :: _, [], h => nomatch h
  | v :: vs, w :: ws, h => by
    obtain ⟨hv, hvs⟩ := List.cons.inj h
    rw [membersAgree, agrees_of_unsigned v w hv, membersAgree_of_unsigned vs ws hvs]
    rfl

end

/-! ## Members -/

theorem members_unsigned {v w : Value} (h : v.unsigned = w.unsigned) :
    v.members.map unsigned = w.members.map unsigned := by
  cases alike_of_unsigned h with
  | list hmembers =>
    exact hmembers
  | number _ | text _ | stray _ =>
    exact congrArg (fun v => [v]) h

theorem numbers?_unsigned {vs ws : List Value} (h : vs.map unsigned = ws.map unsigned) :
    (numbers? vs).map (·.map Double.unsigned) = (numbers? ws).map (·.map Double.unsigned) := by
  induction vs generalizing ws with
  | nil =>
    obtain rfl := List.map_eq_nil_iff.1 h.symm
    rfl
  | cons v vs ih =>
    obtain ⟨w, ws, rfl, hw, hws⟩ := List.map_eq_cons_iff.1 h.symm
    have hrest := ih hws.symm
    cases alike_of_unsigned hw.symm with
    | @number x y hxy =>
      rw [numbers?, numbers?]
      calc ((numbers? vs).map (x :: ·)).map (·.map Double.unsigned)
          = ((numbers? vs).map (·.map Double.unsigned)).map (Double.unsigned x :: ·) := by
            rw [Option.map_map, Option.map_map]
            rfl
        _ = ((numbers? ws).map (·.map Double.unsigned)).map (Double.unsigned y :: ·) := by
            rw [hrest, hxy]
        _ = ((numbers? ws).map (y :: ·)).map (·.map Double.unsigned) := by
            rw [Option.map_map, Option.map_map]
            rfl
    | text _ | list _ | stray _ =>
      rfl

theorem texts?_unsigned {vs ws : List Value} (h : vs.map unsigned = ws.map unsigned) :
    texts? vs = texts? ws := by
  induction vs generalizing ws with
  | nil =>
    obtain rfl := List.map_eq_nil_iff.1 h.symm
    rfl
  | cons v vs ih =>
    obtain ⟨w, ws, rfl, hw, hws⟩ := List.map_eq_cons_iff.1 h.symm
    cases alike_of_unsigned hw.symm with
    | text s =>
      rw [texts?, texts?, ih hws.symm]
    | number _ | list _ | stray _ =>
      rfl

/-- The numbers of a list, seen through what they are without the signs of zeros. -/
theorem cases_of_numbers? {vs ws : List Value} (h : vs.map unsigned = ws.map unsigned) :
    (∃ x xs y ys, numbers? vs = some (x :: xs) ∧ numbers? ws = some (y :: ys) ∧
      Double.unsigned x = Double.unsigned y ∧ xs.map Double.unsigned = ys.map Double.unsigned) ∨
      (numbers? vs = some [] ∧ numbers? ws = some []) ∨
        numbers? vs = none ∧ numbers? ws = none := by
  have hnumbers := numbers?_unsigned h
  cases hvs : numbers? vs with
  | none =>
    rw [hvs] at hnumbers
    exact Or.inr (Or.inr ⟨rfl, Option.map_eq_none_iff.1 hnumbers.symm⟩)
  | some xs =>
    rw [hvs] at hnumbers
    obtain ⟨ys, hws, hmap⟩ := Option.map_eq_some_iff.1 hnumbers.symm
    cases xs with
    | nil =>
      obtain rfl := List.map_eq_nil_iff.1 hmap
      exact Or.inr (Or.inl ⟨rfl, hws⟩)
    | cons x xs =>
      obtain ⟨y, ys, rfl, hxy, hrest⟩ := List.map_eq_cons_iff.1 hmap
      exact Or.inl ⟨x, xs, y, ys, rfl, hws, hxy.symm, hrest.symm⟩

end Value

/-! ## Operators -/

theorem map_unsigned_number {x y : Float} (h : Double.unsigned x = Double.unsigned y) :
    (Except.ok (.number x) : Except Error Value).map Value.unsigned =
      (Except.ok (.number y) : Except Error Value).map Value.unsigned :=
  congrArg (fun x => Except.ok (Value.number x)) h

namespace Binary

variable [Capacity]

/-- Operators other than the comma refuse lists, so what has to be shown of them is what they make
of numbers, and of a number and a text on either side. -/
theorem execute_unsigned_of_kinds (op : Binary) (hop : op ≠ .comma)
    (hnumbers : ∀ {x x' y y'}, Double.unsigned x = Double.unsigned x' →
      Double.unsigned y = Double.unsigned y' →
      (op.execute (.number x) (.number y)).map Value.unsigned =
        (op.execute (.number x') (.number y')).map Value.unsigned)
    (htexts : ∀ {x x'} s, Double.unsigned x = Double.unsigned x' →
      op.execute (.number x) (.text s) = op.execute (.number x') (.text s) ∧
        op.execute (.text s) (.number x) = op.execute (.text s) (.number x'))
    {v v' w w' : Value} (hv : v.unsigned = v'.unsigned) (hw : w.unsigned = w'.unsigned) :
    (op.execute v w).map Value.unsigned = (op.execute v' w').map Value.unsigned := by
  cases Value.alike_of_unsigned hv with
  | number hx =>
    cases Value.alike_of_unsigned hw with
    | number hy =>
      exact hnumbers hx hy
    | text s =>
      rw [(htexts s hx).1]
    | list _ | stray _ =>
      cases op <;> first | rfl | exact absurd rfl hop
  | text s =>
    cases Value.alike_of_unsigned hw with
    | number hy =>
      rw [(htexts s hy).2]
    | text _ =>
      rfl
    | list _ | stray _ =>
      cases op <;> first | rfl | exact absurd rfl hop
  | list _ | stray _ =>
    cases Value.alike_of_unsigned hw <;> cases op <;> first | rfl | exact absurd rfl hop

theorem execute_div_unsigned {x x' y y' : Float} (hx : Double.unsigned x = Double.unsigned x')
    (hy : Double.unsigned y = Double.unsigned y') :
    (div.execute (.number x) (.number y)).map Value.unsigned =
      (div.execute (.number x') (.number y')).map Value.unsigned := by
  simp only [execute, ← Double.beq_zero_congr hy]
  cases hzero : y == 0 with
  | true =>
    rw [if_pos rfl, if_pos rfl]
  | false =>
    rw [if_neg Bool.false_ne_true, if_neg Bool.false_ne_true]
    exact map_unsigned_number (Double.unsigned_div hx hy hzero)

/-- Operators make the same of operands that are equal without the signs of zeros, up to these. -/
theorem execute_unsigned (op : Binary) {v v' w w' : Value} (hv : v.unsigned = v'.unsigned)
    (hw : w.unsigned = w'.unsigned) :
    (op.execute v w).map Value.unsigned = (op.execute v' w').map Value.unsigned := by
  cases op with
  | comma =>
    rw [execute_comma, execute_comma]
    refine congrArg Except.ok (Value.unsigned_list ?_)
    rw [List.map_append, List.map_append, Value.members_unsigned hv, Value.members_unsigned hw]
  | add =>
    exact execute_unsigned_of_kinds .add (by decide)
      (fun hx hy => map_unsigned_number (Double.unsigned_add hx hy)) (fun _ _ => ⟨rfl, rfl⟩) hv hw
  | sub =>
    exact execute_unsigned_of_kinds .sub (by decide)
      (fun hx hy => map_unsigned_number (Double.unsigned_sub hx hy)) (fun _ _ => ⟨rfl, rfl⟩) hv hw
  | mul =>
    refine execute_unsigned_of_kinds .mul (by decide)
      (fun hx hy => map_unsigned_number (Double.unsigned_mul hx hy)) ?_ hv hw
    intro x x' s hx
    simp only [execute, executeRepeat, Double.whole?_congr hx, and_self]
  | div =>
    exact execute_unsigned_of_kinds .div (by decide) execute_div_unsigned
      (fun _ _ => ⟨rfl, rfl⟩) hv hw
  | rem =>
    refine execute_unsigned_of_kinds .rem (by decide) ?_ (fun _ _ => ⟨rfl, rfl⟩) hv hw
    intro x x' y y' hx hy
    simp only [execute, Double.whole?_congr hx, Double.whole?_congr hy]

end Binary

/-- Arguments of two powers: the two zeros as bases, and the same negative odd exponent. -/
inductive OddPoles : Value → Value → Prop where
  | mk {x x' y : Float} : Double.OppositePoles x x' y →
    OddPoles (.list [.number x, .number y]) (.list [.number x', .number y])

namespace Function

theorem executeCircular_unsigned (f : Function) {circular : Float → Float}
    (hcircular : ∀ {x x'}, Double.unsigned x = Double.unsigned x' →
      Double.unsigned (circular x) = Double.unsigned (circular x'))
    {x x' : Float} (h : Double.unsigned x = Double.unsigned x') :
    (executeCircular f circular x).map Value.unsigned =
      (executeCircular f circular x').map Value.unsigned := by
  unfold executeCircular
  rw [Double.isInf_congr h]
  split
  · rfl
  · exact map_unsigned_number (hcircular h)

theorem executeSum_unsigned {v v' : Value} (h : v.unsigned = v'.unsigned) :
    (executeSum v).map Value.unsigned = (executeSum v').map Value.unsigned := by
  cases Value.alike_of_unsigned h with
  | number hx =>
    exact map_unsigned_number hx
  | list hmembers =>
    rcases Value.cases_of_numbers? hmembers with
      ⟨x, xs, y, ys, hvs, hws, hxy, hrest⟩ | ⟨hvs, hws⟩ | ⟨hvs, hws⟩
    · simp only [executeSum, hvs, hws]
      exact map_unsigned_number (Double.unsigned_foldl_add hrest hxy)
    · simp only [executeSum, hvs, hws]
    · simp only [executeSum, hvs, hws]
  | text _ | stray _ =>
    rfl

theorem executeExtreme_unsigned (f : Function) {betterNumber : Float → Float → Bool}
    (hbetter : Double.Unsigned betterNumber) (betterText : CodeText → CodeText → Bool)
    {v v' : Value} (h : v.unsigned = v'.unsigned) :
    (executeExtreme f betterNumber betterText v).map Value.unsigned =
      (executeExtreme f betterNumber betterText v').map Value.unsigned := by
  cases Value.alike_of_unsigned h with
  | number hx =>
    exact map_unsigned_number hx
  | @list vs ws hmembers =>
    cases vs with
    | nil =>
      obtain rfl := List.map_eq_nil_iff.1 hmembers.symm
      rfl
    | cons v vs =>
      obtain ⟨w, ws, rfl, _, _⟩ := List.map_eq_cons_iff.1 hmembers.symm
      have htexts := Value.texts?_unsigned hmembers
      rcases Value.cases_of_numbers? hmembers with
        ⟨x, xs, y, ys, hvs, hws, hxy, hrest⟩ | ⟨hvs, hws⟩ | ⟨hvs, hws⟩
      · simp only [executeExtreme, hvs, hws]
        exact map_unsigned_number (Double.unsigned_foldBest hbetter hrest hxy)
      · simp only [executeExtreme, hvs, hws, htexts]
      · simp only [executeExtreme, hvs, hws, htexts]
  | text _ | stray _ =>
    rfl

/-- A power takes a list of two numbers and nothing else. -/
theorem execute_pow_other {vs : List Value}
    (h : ∀ x y : Float, vs ≠ [.number x, .number y]) :
    pow.execute (.list vs) = pow.refuse (some .notTwoNumbers) := by
  unfold execute
  split <;> simp_all

/-- Two numbers in a list are two numbers without the signs of zeros, too. -/
theorem exists_pair_of_unsigned {vs : List Value} {x y : Float}
    (h : [Value.number x, .number y].map Value.unsigned = vs.map Value.unsigned) :
    ∃ x' y', vs = [.number x', .number y'] ∧ Double.unsigned x = Double.unsigned x' ∧
      Double.unsigned y = Double.unsigned y' := by
  obtain ⟨v, vs, rfl, hv, hrest⟩ := List.map_eq_cons_iff.1 h.symm
  obtain ⟨w, vs, rfl, hw, hrest⟩ := List.map_eq_cons_iff.1 hrest
  obtain rfl := List.map_eq_nil_iff.1 hrest
  cases Value.alike_of_unsigned hv.symm with
  | number hx =>
    cases Value.alike_of_unsigned hw.symm with
    | number hy =>
      exact ⟨_, _, rfl, hx, hy⟩

theorem execute_pow_unsigned {vs ws : List Value}
    (h : vs.map Value.unsigned = ws.map Value.unsigned) :
    (pow.execute (.list vs)).map Value.unsigned = (pow.execute (.list ws)).map Value.unsigned ∨
      OddPoles (.list vs) (.list ws) := by
  by_cases hpair : ∃ x y : Float, vs = [.number x, .number y]
  · obtain ⟨x, y, rfl⟩ := hpair
    obtain ⟨x', y', rfl, hx, hy⟩ := exists_pair_of_unsigned h
    rcases Double.unsigned_power hx hy with hpower | ⟨rfl, hpoles⟩
    · exact Or.inl (map_unsigned_number hpower)
    · exact Or.inr (.mk hpoles)
  · -- the other list has no two numbers, either
    refine Or.inl ?_
    rw [execute_pow_other fun x y hvs => hpair ⟨x, y, hvs⟩, execute_pow_other]
    rintro x y rfl
    obtain ⟨x', y', hvs, _, _⟩ := exists_pair_of_unsigned h.symm
    exact hpair ⟨x', y', hvs⟩

/-- A function that refuses lists: what has to be shown is what it makes of a number. -/
theorem execute_unsigned_of_number (f : Function)
    (hnumber : ∀ {x x'}, Double.unsigned x = Double.unsigned x' →
      (f.execute (.number x)).map Value.unsigned = (f.execute (.number x')).map Value.unsigned)
    (hlist : ∀ vs ws, f.execute (.list vs) = f.execute (.list ws)) {v v' : Value}
    (h : v.unsigned = v'.unsigned) :
    (f.execute v).map Value.unsigned = (f.execute v').map Value.unsigned := by
  cases Value.alike_of_unsigned h with
  | number hx =>
    exact hnumber hx
  | @list vs ws _ =>
    rw [hlist vs ws]
  | text _ | stray _ =>
    rfl

theorem execute_recip_unsigned {x x' : Float} (hx : Double.unsigned x = Double.unsigned x') :
    (recip.execute (.number x)).map Value.unsigned =
      (recip.execute (.number x')).map Value.unsigned := by
  simp only [execute, ← Double.beq_zero_congr hx]
  cases hzero : x == 0 with
  | true =>
    rw [if_pos rfl, if_pos rfl]
  | false =>
    rw [Double.eq_of_unsigned hx hzero]

/-- So do functions, except for powers at odd poles. -/
theorem execute_unsigned (f : Function) {v v' : Value} (h : v.unsigned = v'.unsigned) :
    (f.execute v).map Value.unsigned = (f.execute v').map Value.unsigned ∨
      f = .pow ∧ OddPoles v v' := by
  cases f with
  | sin =>
    exact Or.inl (execute_unsigned_of_number .sin
      (executeCircular_unsigned .sin Double.unsigned_sine) (fun _ _ => rfl) h)
  | cos =>
    exact Or.inl (execute_unsigned_of_number .cos
      (executeCircular_unsigned .cos Double.unsigned_cosine) (fun _ _ => rfl) h)
  | tan =>
    exact Or.inl (execute_unsigned_of_number .tan
      (executeCircular_unsigned .tan Double.unsigned_tangent) (fun _ _ => rfl) h)
  | abs =>
    exact Or.inl (execute_unsigned_of_number .abs
      (fun hx => map_unsigned_number (Double.unsigned_abs hx)) (fun _ _ => rfl) h)
  | opp =>
    exact Or.inl (execute_unsigned_of_number .opp
      (fun hx => map_unsigned_number (Double.unsigned_neg hx)) (fun _ _ => rfl) h)
  | recip =>
    exact Or.inl (execute_unsigned_of_number .recip execute_recip_unsigned (fun _ _ => rfl) h)
  | sum =>
    exact Or.inl (executeSum_unsigned h)
  | max =>
    exact Or.inl (executeExtreme_unsigned .max Double.unsigned_greater _ h)
  | min =>
    exact Or.inl (executeExtreme_unsigned .min Double.unsigned_less _ h)
  | pow =>
    cases Value.alike_of_unsigned h with
    | list hmembers =>
      exact (execute_pow_unsigned hmembers).imp id fun hpoles => ⟨rfl, hpoles⟩
    | number _ | text _ | stray _ =>
      exact Or.inl rfl

end Function
end Reckon
