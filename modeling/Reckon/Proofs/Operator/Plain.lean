import Reckon.Operator.Execute
import Reckon.Proofs.Machine.Outcome

/-!
# Plain — the values that calculations bring about

A calculation starts from numbers and texts.  All that it brings about are numbers, texts and lists
of them; a list has two members or more, and none of its members is a list.  Texts may satisfy a
property on top, as long as those of a moderate length do:

* `Value.IsScalar`, `Value.IsPlain` — numbers and texts, and lists of them;
* `Binary.execute_plain`, `Function.execute_plain` — operators do not leave these values.
-/

namespace Reckon

/-- Numbers, and texts with the property `P`. -/
inductive Value.IsScalar (P : CodeText → Prop) : Value → Prop where
  | number (x : Float) : IsScalar P (.number x)
  | text {s : CodeText} : P s → IsScalar P (.text s)

/-- Scalars and lists of at least two of them. -/
inductive Value.IsPlain (P : CodeText → Prop) : Value → Prop where
  | scalar {v : Value} : v.IsScalar P → IsPlain P v
  | list {vs : List Value} : 2 ≤ vs.length → (∀ v ∈ vs, v.IsScalar P) → IsPlain P (.list vs)

/-- Texts that are put together from others satisfy a property. -/
def HoldsOfShort [Capacity] (P : CodeText → Prop) : Prop :=
  ∀ s : CodeText, s.length ≤ Capacity.largestText → P s

variable {P : CodeText → Prop}

namespace Value

theorem IsScalar.mono {Q : CodeText → Prop} (hPQ : ∀ {s}, P s → Q s) {v : Value}
    (h : v.IsScalar P) : v.IsScalar Q := by
  cases h with
  | number x =>
    exact .number x
  | text hs =>
    exact .text (hPQ hs)

theorem IsPlain.mono {Q : CodeText → Prop} (hPQ : ∀ {s}, P s → Q s) {v : Value} (h : v.IsPlain P) :
    v.IsPlain Q := by
  cases h with
  | scalar h =>
    exact .scalar (h.mono hPQ)
  | list hlength h =>
    exact .list hlength fun w hw => (h w hw).mono hPQ

theorem IsScalar.members {v : Value} (h : v.IsScalar P) : v.members = [v] := by
  cases h <;> rfl

theorem IsPlain.members {v : Value} (h : v.IsPlain P) :
    v.members ≠ [] ∧ ∀ w ∈ v.members, w.IsScalar P := by
  cases h with
  | scalar h =>
    rw [h.members]
    refine ⟨by simp, ?_⟩
    intro w hw
    rw [List.mem_singleton] at hw
    subst hw
    exact h
  | list hlength h =>
    rw [members_list]
    refine ⟨?_, h⟩
    rintro rfl
    simp at hlength

theorem IsPlain.list_append {vs ws : List Value} (hvs : vs ≠ []) (hws : ws ≠ [])
    (h : ∀ v ∈ vs, v.IsScalar P) (h' : ∀ w ∈ ws, w.IsScalar P) :
    (Value.list (vs ++ ws)).IsPlain P := by
  refine .list ?_ ?_
  · have hpos := List.length_pos_iff.2 hvs
    have hpos' := List.length_pos_iff.2 hws
    rw [List.length_append]
    omega
  · intro v hv
    rcases List.mem_append.1 hv with hv | hv
    · exact h v hv
    · exact h' v hv

end Value

/-! ## Texts -/

theorem length_le_of_requireMemory [Capacity] {length : Nat} {u : Unit}
    (h : requireMemory length = .ok u) : length ≤ Capacity.largestText := by
  unfold requireMemory at h
  split at h
  · cases h
  · omega

theorem length_repeatText (s : CodeText) (count : Nat) :
    (repeatText s count).length = s.length * count := by
  rw [CodeText.length, points_repeatText, List.length_flatten, List.map_replicate,
    List.sum_replicate_nat, CodeText.length, Nat.mul_comm]

namespace Binary

variable [Capacity]

theorem executeRepeat_scalar (hP : HoldsOfShort P) {s : CodeText} (hs : P s) {x : Float} {u : Value}
    (h : executeRepeat s x = .ok u) : u.IsScalar P := by
  unfold executeRepeat at h
  split at h
  · cases h
  · rename_i n hn
    split at h
    · cases h
    · split at h
      · cases h
      · split at h
        · cases h
          exact .text hs
        · obtain ⟨_, hmemory, h⟩ := Except.exists_of_bind_eq_ok h
          obtain rfl := Except.ok.inj h
          refine .text (hP _ ?_)
          rw [length_repeatText]
          exact length_le_of_requireMemory hmemory

/-- What an operator other than the comma makes is a number or a text, whatever the number of members
on either side. -/
theorem execute_scalar_of_members (hP : HoldsOfShort P) {op : Binary} (hop : op ≠ .comma)
    {v w u : Value} (hv : ∀ x ∈ v.members, x.IsScalar P) (hw : ∀ x ∈ w.members, x.IsScalar P)
    (h : op.execute v w = .ok u) : u.IsScalar P := by
  unfold execute at h
  split at h
  · rename_i s t
    -- the joined text has found room, so it is short
    obtain ⟨_, hmemory, h⟩ := Except.exists_of_bind_eq_ok h
    obtain rfl := Except.ok.inj h
    refine .text (hP _ ?_)
    rw [CodeText.length_append]
    exact length_le_of_requireMemory hmemory
  · cases h
    exact .number _
  · cases h
    exact .number _
  · cases h
    exact .number _
  · cases hv _ List.mem_cons_self with
    | text hs =>
      exact executeRepeat_scalar hP hs h
  · cases hw _ List.mem_cons_self with
    | text hs =>
      exact executeRepeat_scalar hP hs h
  · split at h
    · cases h
    · cases h
      exact .number _
  · split at h
    · unfold executeRem at h
      split at h
      · cases h
      · split at h
        · cases h
          exact .number _
        · cases h
    · cases h
  · exact absurd rfl hop
  · cases h

theorem execute_scalar (hP : HoldsOfShort P) {op : Binary} (hop : op ≠ .comma) {v w u : Value}
    (hv : v.IsPlain P) (hw : w.IsPlain P) (h : op.execute v w = .ok u) : u.IsScalar P :=
  execute_scalar_of_members hP hop hv.members.2 hw.members.2 h

theorem execute_comma (v w : Value) : comma.execute v w = .ok (.list (v.members ++ w.members)) := by
  cases v <;> cases w <;> rfl

theorem execute_plain (hP : HoldsOfShort P) {op : Binary} {v w u : Value} (hv : v.IsPlain P)
    (hw : w.IsPlain P) (h : op.execute v w = .ok u) : u.IsPlain P := by
  -- only the comma makes lists, and it has a member from each side
  by_cases hop : op = .comma
  · subst hop
    rw [execute_comma] at h
    cases h
    exact .list_append hv.members.1 hw.members.1 hv.members.2 hw.members.2
  · exact .scalar (execute_scalar hP hop hv hw h)

end Binary

namespace Function

theorem executeCircular_scalar {f : Function} {circular : Float → Float} {x : Float} {u : Value}
    (h : executeCircular f circular x = .ok u) : u.IsScalar P := by
  unfold executeCircular at h
  split at h
  · cases h
  · cases h
    exact .number _

theorem executeSum_scalar {v u : Value} (h : executeSum v = .ok u) : u.IsScalar P := by
  unfold executeSum at h
  split at h
  · cases h
    exact .number _
  · split at h
    · cases h
      exact .number _
    · cases h
  · cases h

/-- The best text of a list is one of its members. -/
theorem executeExtreme_scalar {f : Function} {bn : Float → Float → Bool}
    {bt : CodeText → CodeText → Bool} {v u : Value} (hv : ∀ x ∈ v.members, x.IsScalar P)
    (h : executeExtreme f bn bt v = .ok u) : u.IsScalar P := by
  unfold executeExtreme at h
  split at h
  · cases h
    exact .number _
  · cases h
  · rename_i vs _
    split at h
    · cases h
      exact .number _
    · rename_i s ss htexts _
      cases h
      refine hv _ ?_
      rw [Value.members_list, Value.texts?_eq_some_iff.1 htexts]
      exact List.mem_map_of_mem (foldBest_mem bt s ss)
    · cases h
  · cases h

/-- What a function makes is a number or a text, whatever the number of members that it takes. -/
theorem execute_scalar_of_members {f : Function} {v u : Value}
    (hv : ∀ x ∈ v.members, x.IsScalar P) (h : f.execute v = .ok u) : u.IsScalar P := by
  unfold execute at h
  split at h
  · exact executeCircular_scalar h
  · exact executeCircular_scalar h
  · exact executeCircular_scalar h
  · cases h
    exact .number _
  · cases h
    exact .number _
  · split at h
    · cases h
    · cases h
      exact .number _
  · exact executeSum_scalar h
  · exact executeExtreme_scalar hv h
  · exact executeExtreme_scalar hv h
  · cases h
    exact .number _
  · cases h
  · cases h

theorem execute_scalar {f : Function} {v u : Value} (hv : v.IsPlain P)
    (h : f.execute v = .ok u) : u.IsScalar P :=
  execute_scalar_of_members hv.members.2 h

theorem execute_plain {f : Function} {v u : Value} (hv : v.IsPlain P)
    (h : f.execute v = .ok u) : u.IsPlain P :=
  .scalar (execute_scalar hv h)

end Function

end Reckon
