import Reckon.Formula.Operand

/-!
# Origin — what is known of the variables of an operand

A provenance tells no variable from one variable and from several ones.  Merging goes through
operands one by one and in any grouping, so the provenance of an operand depends on the names of its
markers only:

* `Provenance.ofNames` — the provenance of names;
* `Provenance.ofNames_append` — names are merged in any grouping;
* `Provenance.origin?_eq_some_iff`, `Provenance.origin?_eq_none_iff` — the one name, if there is
  just one.
-/

namespace Reckon
namespace Operand
namespace Provenance

/-- Names are compared in pairs; one pair that differs is enough, wherever it stands. -/
theorem merge_assoc (p q r : Provenance) : (p.merge q).merge r = p.merge (q.merge r) := by
  cases p <;> cases q <;> cases r <;> grind [merge]

/-- The provenance of names. -/
def ofNames : List String → Provenance
  | [] => .constant
  | name :: names => merge (.single name) (ofNames names)

theorem ofNames_append (names names' : List String) :
    ofNames (names ++ names') = (ofNames names).merge (ofNames names') := by
  induction names with
  | nil =>
    rfl
  | cons name names ih =>
    rw [List.cons_append, ofNames, ofNames, ih, merge_assoc]

theorem single_merge_eq_single_iff {p : Provenance} (hp : p ≠ .constant) {x v : String} :
    merge (.single x) p = .single v ↔ x = v ∧ p = .single v := by
  cases p <;> grind [merge]

theorem ofNames_ne_constant {names : List String} (hne : names ≠ []) :
    ofNames names ≠ .constant := by
  cases names with
  | nil =>
    exact absurd rfl hne
  | cons name names =>
    rw [ofNames]
    cases ofNames names <;> grind [merge]

theorem ofNames_eq_single_iff {first v : String} {names : List String} :
    ofNames (first :: names) = .single v ↔ first = v ∧ ∀ name ∈ names, name = v := by
  induction names generalizing first with
  | nil =>
    simp [ofNames, merge]
  | cons second names ih =>
    -- the first name is merged with what is known of the names behind it
    have hbehind : ofNames (second :: names) ≠ .constant := ofNames_ne_constant (by simp)
    rw [ofNames, single_merge_eq_single_iff hbehind, ih, List.forall_mem_cons]

theorem origin?_eq_some {p : Provenance} {v : String} : p.origin? = some v ↔ p = .single v := by
  cases p <;> simp [origin?]

/-- One name is known as the origin if it is the only one. -/
theorem origin?_eq_some_iff {names : List String} {v : String} :
    (ofNames names).origin? = some v ↔ ∀ name, name ∈ names ↔ name = v := by
  rw [origin?_eq_some]
  cases names with
  | nil =>
    simp [ofNames]
  | cons first names =>
    rw [ofNames_eq_single_iff]
    constructor
    · rintro ⟨rfl, hnames⟩ name
      rw [List.mem_cons]
      exact ⟨fun h => h.elim id (hnames name), Or.inl⟩
    · intro h
      exact ⟨(h first).1 List.mem_cons_self, fun name hname =>
        (h name).1 (List.mem_cons_of_mem first hname)⟩

/-- No name is known as the origin if there are several ones. -/
theorem origin?_eq_none_iff {names : List String} (hne : names ≠ []) :
    (ofNames names).origin? = none ↔ ∃ x ∈ names, ∃ y ∈ names, x ≠ y := by
  obtain ⟨first, hfirst⟩ := List.exists_mem_of_ne_nil names hne
  constructor
  · intro hnone
    by_cases hsame : ∀ name ∈ names, name = first
    · -- then the first name is the only one
      have hsome : (ofNames names).origin? = some first :=
        origin?_eq_some_iff.2 fun name => ⟨hsame name, fun h => h ▸ hfirst⟩
      rw [hsome] at hnone
      cases hnone
    · obtain ⟨x, hx⟩ := Classical.not_forall.1 hsame
      obtain ⟨hx, hdiffer⟩ := Classical.not_imp.1 hx
      exact ⟨x, hx, first, hfirst, hdiffer⟩
  · rintro ⟨x, hx, y, hy, hdiffer⟩
    cases horigin : (ofNames names).origin? with
    | none =>
      rfl
    | some v =>
      have honly := origin?_eq_some_iff.1 horigin
      exact absurd (((honly x).1 hx).trans ((honly y).1 hy).symm) hdiffer

/-- The provenance of names that are there is known from their origin. -/
theorem ofOrigin_ofNames {names : List String} (hne : names ≠ []) :
    ofOrigin (ofNames names).origin? = ofNames names := by
  have hconstant := ofNames_ne_constant hne
  cases h : ofNames names with
  | constant =>
    exact absurd h hconstant
  | single v =>
    rfl
  | mixed =>
    rfl

end Provenance
end Operand
end Reckon
