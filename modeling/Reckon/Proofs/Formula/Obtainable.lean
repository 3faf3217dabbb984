import Reckon.Proofs.Formula.Written

/-!
# Obtainable — operands that executing operators brings about

Markers and constants are obtainable operands, and so is what comes of executing an operator on
obtainable operands.  Whatever is merged or folded on the way, such an operand is written for a
tree:

* `Operand.Obtainable` — markers and constants, and what operators make of them;
* `Operand.KeepsNames` — an operand that is written for a tree, whose markers are some of the names
  that it comes from, or all of them;
* `Operand.IsWritten.binary`, `Operand.IsWritten.function` — what operators make of operands that
  are written for trees is such an operand, which loses names only where symbols are merged;
* `Operand.Obtainable.exists_isWritten` — so obtainable operands are written for trees.
-/

namespace Reckon

open Operand

/-- Operands that are had from markers and constants by executing operators any number of times. -/
inductive Operand.Obtainable [Capacity] : Operand → Prop where
  | marker (name : String) : Obtainable (.marker name)
  | constant {v : Value} (marks : List (Option Nat)) : v.IsFlat →
    Obtainable (.atom (.constant v marks))
  | binary {op : Binary} {a c z : Operand} : Obtainable a → Obtainable c →
    Deferral.execute (.binary op) [a, c] = .ok z → Obtainable z
  | function {f : Function} {a z : Operand} : Obtainable a →
    Deferral.execute (.function f) [a] = .ok z → Obtainable z

/-! ## Values -/

theorem Binary.execute_flat [Capacity] {op : Binary} {v w u : Value} (hv : v.IsFlat) (hw : w.IsFlat)
    (h : op.execute v w = .ok u) : u.IsFlat := by
  by_cases hop : op = .comma
  · subst hop
    rw [execute_comma] at h
    obtain rfl := Except.ok.inj h
    constructor
    · exact fun hnil => hv.nonempty (List.append_eq_nil_iff.1 hnil).1
    · exact List.forall_mem_append.2 ⟨hv.scalar, hw.scalar⟩
  · exact (execute_scalar_of_members holdsOfShort_anyText hop hv.scalar hw.scalar h).isFlat

theorem Function.execute_flat {f : Function} {v u : Value} (hv : v.IsFlat)
    (h : f.execute v = .ok u) : u.IsFlat :=
  (execute_scalar_of_members hv.scalar h).isFlat

namespace Operand

variable {a c z : Operand} {t u : Tree} {ts : List Tree}

theorem isWritten_value {v : Value} (h : v.IsScalar anyText) :
    (value v).IsWritten (.constant v []) :=
  .alone (Tree.isMember_constant h []).toIsAlone

theorem isWritten_marker (name : String) : (marker name).IsWritten (.marker name) :=
  .alone (t := .marker name) ⟨.marker name, Tree.lt_atomic .comma⟩

theorem isWritten_marked {v : Value} (h : v.IsFlat) (marks : List (Option Nat)) :
    ∃ t, (marked v marks).IsWritten t ∧ t.markers = [] :=
  ⟨_, .alone (t := .constant v _) ⟨.constant _ h, Tree.lt_atomic .comma⟩, rfl⟩

theorem IsWritten.flat (h : a.IsWritten t) {v : Value} (hv : a.value? = some v) : v.IsFlat := by
  cases h with
  | group _ _ =>
    cases hv
  | @alone t h =>
    cases t with
    | constant w marks =>
      cases hv
      cases h.folded with
      | constant _ hflat =>
        exact hflat
    | marker name =>
      cases hv
    | binary op t u =>
      cases hv
    | call f t =>
      cases hv

theorem IsWritten.markers_of_value? (h : a.IsWritten t) {v : Value} (hv : a.value? = some v) :
    t.markers = [] := by
  by_contra hmarkers
  rw [h.value?_iff.2 hmarkers] at hv
  cases hv

/-! ## Members -/

/-- Members of a constant list are constants. -/
theorem exists_ofMembers {vs : List Value} (h : ∀ v ∈ vs, v.IsScalar anyText)
    (marks : List (Option Nat)) :
    ∃ ts : List Tree, ofMembers vs marks = ts.map Tree.operand ∧ (∀ t ∈ ts, t.IsMember) ∧
      ts.flatMap Tree.markers = [] := by
  induction vs generalizing marks with
  | nil =>
    exact ⟨[], rfl, by simp, rfl⟩
  | cons v vs ih =>
    obtain ⟨hv, hvs⟩ := List.forall_mem_cons.1 h
    obtain ⟨ts, hts, hmember, hmarkers⟩ := ih hvs (marks.drop v.undefinedCount)
    have hfirst : ofMember v marks =
        (Tree.constant v (marks.take v.undefinedCount)).operand := by
      cases hv <;> rfl
    refine ⟨.constant v (marks.take v.undefinedCount) :: ts, ?_, ?_, hmarkers⟩
    · rw [ofMembers, hfirst, hts]
      rfl
    · exact List.forall_mem_cons.2 ⟨Tree.isMember_constant hv _, hmember⟩

/-- What an operand contributes to a group are the trees of members, with the same markers. -/
theorem IsWritten.groupMembers (h : a.IsWritten t) :
    ∃ ts : List Tree, a.groupMembers = ts.map Tree.operand ∧ ts ≠ [] ∧ (∀ t ∈ ts, t.IsMember) ∧
      ts.flatMap Tree.markers = t.markers := by
  cases h with
  | @group t u ts h _ =>
    exact ⟨_, rfl, by simp, h, (Tree.markers_joined t (u :: ts)).symm⟩
  | @alone t h =>
    -- a tree that is no constant is the only member
    have hsingle : t.IsMember → t.operand.groupMembers = [t.operand] →
        ∃ ts : List Tree, t.operand.groupMembers = ts.map Tree.operand ∧ ts ≠ [] ∧
          (∀ t ∈ ts, t.IsMember) ∧ ts.flatMap Tree.markers = t.markers := by
      intro hmember hmembers
      exact ⟨[t], hmembers, by simp, List.forall_mem_singleton.2 hmember, by simp⟩
    cases t with
    | marker name =>
      exact hsingle ⟨h, by simp⟩ rfl
    | binary op t u =>
      exact hsingle ⟨h, by simp⟩ rfl
    | call f t =>
      exact hsingle ⟨h, by simp⟩ rfl
    | constant v marks =>
      cases h.folded with
      | constant _ hflat =>
        cases v with
        | number x =>
          exact hsingle (Tree.isMember_constant (.number x) marks) rfl
        | text s =>
          exact hsingle (Tree.isMember_constant (.text trivial) marks) rfl
        | stray s =>
          cases hflat.scalar _ List.mem_cons_self
        | list vs =>
          obtain ⟨ts, hts, hmember, hmarkers⟩ :=
            exists_ofMembers hflat.scalar (Element.constant (.list vs) marks).marks
          refine ⟨ts, hts, ?_, hmember, hmarkers⟩
          have hlength := congrArg List.length hts
          rw [length_ofMembers, List.length_map] at hlength
          rintro rfl
          exact hflat.nonempty (List.eq_nil_of_length_eq_zero hlength)

theorem IsWritten.makeGroup (ha : a.IsWritten t) (hc : c.IsWritten u)
    (hmarkers : t.markers ++ u.markers ≠ []) :
    ∃ s, (makeGroup a c).IsWritten s ∧ s.markers = t.markers ++ u.markers := by
  obtain ⟨ts, hts, hne, hmember, htmarkers⟩ := ha.groupMembers
  obtain ⟨us, hus, hne', hmember', humarkers⟩ := hc.groupMembers
  have hlength : 2 ≤ (ts ++ us).length := by
    have hpos := List.length_pos_iff.2 hne
    have hpos' := List.length_pos_iff.2 hne'
    rw [List.length_append]
    omega
  have hflat : (ts ++ us).flatMap Tree.markers = t.markers ++ u.markers := by
    rw [List.flatMap_append, htmarkers, humarkers]
  obtain ⟨s, hs, hsmarkers⟩ := exists_isWritten_group hlength
    (List.forall_mem_append.2 ⟨hmember, hmember'⟩) (hflat ▸ hmarkers)
  refine ⟨s, ?_, hsmarkers.trans hflat⟩
  rw [Operand.makeGroup, hts, hus, ← List.map_append]
  exact hs

/-! ## Binary operators -/

theorem IsWritten.combine (ha : a.IsWritten t) (hc : c.IsWritten u) {op : Binary}
    (hop : op ≠ .comma) (hmarkers : t.markers ++ u.markers ≠ []) :
    (Deferral.combine op a c).IsWritten (.binary op t u) := by
  have horigin : commonOrigin [a, c] = (Tree.binary op t u).provenance.origin? := by
    rw [commonOrigin, provenanceOf, provenanceOf, provenanceOf, Provenance.merge_constant,
      ha.provenance, hc.provenance, Tree.provenance, Tree.provenance, Tree.provenance, Tree.markers,
      Provenance.ofNames_append]
  have hcombine : Deferral.combine op a c = (Tree.binary op t u).operand := by
    rw [Deferral.combine, ha.binarySequence hc op, horigin]
    rfl
  rw [hcombine]
  refine .alone ⟨.binary (fun _ => hmarkers) ha.folded hc.folded, ?_⟩
  rw [Tree.precedence_binary]
  cases op with
  | comma =>
    exact absurd rfl hop
  | _ =>
    decide

theorem exists_value?_of_isOne (h : c.isOne = true) : ∃ v, c.value? = some v := by
  unfold isOne at h
  split at h
  · exact ⟨_, ‹_›⟩
  · cases h

/-- An operand that is written for a tree whose markers are some of the names, in their order, and
all of them if `complete` holds. -/
structure KeepsNames (z : Operand) (names : List String) (complete : Prop) (s : Tree) : Prop where
  written : z.IsWritten s
  sublist : s.markers.Sublist names
  all : complete → s.markers = names

theorem IsWritten.keepsNames {names : List String} (h : a.IsWritten t)
    (hmarkers : t.markers = names) (complete : Prop) : a.KeepsNames names complete t :=
  ⟨h, hmarkers ▸ List.Sublist.refl _, fun _ => hmarkers⟩

/-- An operator that merges symbols leaves some of their names, and it is only then that it does. -/
theorem IsWritten.keepsNames_of_same {op : Binary} {names : List String} {s : Tree}
    (h : z.IsWritten s) (hsublist : s.markers.Sublist names) (hop : op = .add ∨ op = .sub)
    (hsame : a.sameSymbol c = true) :
    z.KeepsNames names (op = .add ∨ op = .sub → a.sameSymbol c = false) s :=
  ⟨h, hsublist, fun hdiffer => absurd hsame (Bool.eq_false_iff.1 (hdiffer hop))⟩

/-- What is deferred is written for a tree, in which all markers are left unless two symbols are
found to be the same. -/
theorem IsWritten.deferBinary (ha : a.IsWritten t) (hc : c.IsWritten u) (op : Binary)
    (hmarkers : t.markers ++ u.markers ≠ []) :
    ∃ s, (Deferral.deferBinary op a c).KeepsNames (t.markers ++ u.markers)
      (op = .add ∨ op = .sub → a.sameSymbol c = false) s := by
  have hkept : op ≠ .comma → Deferral.deferBinary op a c = Deferral.combine op a c →
      ∃ s, (Deferral.deferBinary op a c).KeepsNames (t.markers ++ u.markers)
        (op = .add ∨ op = .sub → a.sameSymbol c = false) s := by
    intro hop hdefer
    rw [hdefer]
    exact ⟨_, (ha.combine hc hop hmarkers).keepsNames rfl _⟩
  cases op with
  | comma =>
    obtain ⟨s, hs, hsmarkers⟩ := ha.makeGroup hc hmarkers
    exact ⟨s, hs.keepsNames hsmarkers _⟩
  | add =>
    by_cases hsame : a.sameSymbol c = true
    · -- the sum of a symbol with itself keeps the first of the two
      have hdefer : Deferral.deferBinary .add a c = Deferral.combine .mul a (value (.number 2)) :=
        if_pos hsame
      have hleft : t.markers ++ [] ≠ [] := by
        rw [List.append_nil]
        exact ha.value?_iff.1 (value?_of_sameSymbol hsame).1
      have hsublist : (t.markers ++ []).Sublist (t.markers ++ u.markers) :=
        (List.nil_sublist _).append_left _
      rw [hdefer]
      have htwo : (value (.number 2)).IsWritten (.constant (.number 2) []) :=
        isWritten_value (.number 2)
      have hdouble := ha.combine htwo (by decide : Binary.mul ≠ .comma) hleft
      exact ⟨_, hdouble.keepsNames_of_same hsublist (Or.inl rfl) hsame⟩
    · exact hkept (by decide) (if_neg hsame)
  | sub =>
    by_cases hsame : a.sameSymbol c = true
    · have hdefer : Deferral.deferBinary .sub a c = value (.number 0) := if_pos hsame
      have hzero : (value (.number 0)).IsWritten (.constant (.number 0) []) :=
        isWritten_value (.number 0)
      rw [hdefer]
      exact ⟨_, hzero.keepsNames_of_same (List.nil_sublist _) (Or.inr rfl) hsame⟩
    · exact hkept (by decide) (if_neg hsame)
  | mul =>
    -- one is a constant, so all markers are in the other factor
    by_cases hright : (a.isScalarSymbol && c.isOne) = true
    · have hdefer : Deferral.deferBinary .mul a c = a := if_pos hright
      obtain ⟨v, hv⟩ := exists_value?_of_isOne (Bool.and_eq_true_iff.1 hright).2
      rw [hdefer, hc.markers_of_value? hv, List.append_nil]
      exact ⟨t, ha.keepsNames rfl _⟩
    · by_cases hleft : (c.isScalarSymbol && a.isOne) = true
      · have hdefer : Deferral.deferBinary .mul a c = c := (if_neg hright).trans (if_pos hleft)
        obtain ⟨v, hv⟩ := exists_value?_of_isOne (Bool.and_eq_true_iff.1 hleft).2
        rw [hdefer, ha.markers_of_value? hv, List.nil_append]
        exact ⟨u, hc.keepsNames rfl _⟩
      · exact hkept (by decide) ((if_neg hright).trans (if_neg hleft))
  | div =>
    exact hkept (by decide) rfl
  | rem =>
    exact hkept (by decide) rfl

/-- An operand without markers has a value, and no other operand has. -/
theorem IsWritten.exists_value? (h : a.IsWritten t) (hmarkers : t.markers = []) :
    ∃ v, a.value? = some v :=
  Option.ne_none_iff_exists'.1 fun hnone => h.value?_iff.1 hnone hmarkers

/-- A binary operator makes an operand that is written for a tree.  All markers of the operands are
left in it, in their order, unless the operator finds two symbols to be the same. -/
theorem IsWritten.binary [Capacity] (ha : a.IsWritten t) (hc : c.IsWritten u) {op : Binary}
    (hz : Deferral.binary op a c = .ok z) :
    ∃ s, z.KeepsNames (t.markers ++ u.markers)
      (op = .add ∨ op = .sub → a.sameSymbol c = false) s := by
  by_cases hmarkers : t.markers ++ u.markers = []
  · obtain ⟨htmarkers, humarkers⟩ := List.append_eq_nil_iff.1 hmarkers
    obtain ⟨v, hv⟩ := ha.exists_value? htmarkers
    obtain ⟨w, hw⟩ := hc.exists_value? humarkers
    rw [Deferral.binary_of_values hv hw] at hz
    obtain ⟨x, hx, hz⟩ := Except.exists_of_bind_eq_ok hz
    obtain rfl := Except.ok.inj hz
    obtain ⟨s, hs, hsmarkers⟩ :=
      isWritten_marked (Binary.execute_flat (ha.flat hv) (hc.flat hw) hx) _
    exact ⟨s, hs.keepsNames (hsmarkers.trans hmarkers.symm) _⟩
  · have hnone : a.value? = none ∨ c.value? = none := by
      by_cases htmarkers : t.markers = []
      · rw [htmarkers, List.nil_append] at hmarkers
        exact Or.inr (hc.value?_iff.2 hmarkers)
      · exact Or.inl (ha.value?_iff.2 htmarkers)
    rw [Deferral.binary_of_symbolic hnone] at hz
    obtain rfl := Except.ok.inj hz
    exact ha.deferBinary hc op hmarkers

/-! ## Functions -/

theorem IsWritten.call (h : a.IsWritten t) {f : Function} (hmarkers : t.markers ≠ []) :
    (Operand.deferred (callSequence (.function f) a.sequence) t.provenance.origin?
      atomicPrecedence).IsWritten (.call f t) := by
  rw [h.sequence]
  exact .alone (t := .call f t) ⟨.call hmarkers h.folded, Tree.lt_atomic .comma⟩

/-- What is among members after folding is the tree of a member, if all members before were. -/
theorem isMember_of_remnant {ms : List Operand} {m : Operand}
    (hms : ∀ n ∈ ms, ∃ t : Tree, t.IsMember ∧ n = t.operand) (h : Deferral.Remnant ms m) :
    ∃ t : Tree, t.IsMember ∧ m = t.operand := by
  cases h with
  | kept hm =>
    exact hms m hm
  | number x =>
    exact ⟨_, Tree.isMember_constant (.number x) [], rfl⟩
  | text _ _ =>
    exact ⟨_, Tree.isMember_constant (.text trivial) [], rfl⟩

/-- Operands that are trees are the operands of a list of trees. -/
theorem exists_map_operand {ms : List Operand}
    (h : ∀ m ∈ ms, ∃ t : Tree, t.IsMember ∧ m = t.operand) :
    ∃ ts : List Tree, ms = ts.map Tree.operand ∧ ∀ t ∈ ts, t.IsMember := by
  induction ms with
  | nil =>
    exact ⟨[], rfl, by simp⟩
  | cons m ms ih =>
    obtain ⟨⟨t, ht, rfl⟩, hms⟩ := List.forall_mem_cons.1 h
    obtain ⟨ts, rfl, hts⟩ := ih hms
    exact ⟨t :: ts, rfl, List.forall_mem_cons.2 ⟨ht, hts⟩⟩

theorem flatMap_markers_operand (ts : List Tree) :
    (ts.map Tree.operand).flatMap Operand.markers = ts.flatMap Tree.markers := by
  simp only [List.flatMap_map, Tree.markers_operand]

/-- The members of a group are the operands of a list of trees. -/
theorem IsWritten.members {ms : List Operand} (h : (Operand.group ms).IsWritten t) :
    ∃ ts : List Tree, ms = ts.map Tree.operand ∧ 2 ≤ ts.length ∧ (∀ s ∈ ts, s.IsMember) ∧
      ts.flatMap Tree.markers = t.markers := by
  generalize hgroup : Operand.group ms = a at h
  cases h with
  | @alone t h =>
    cases t <;> cases hgroup
  | @group t u ts h _ =>
    cases hgroup
    exact ⟨t :: u :: ts, rfl, by simp, h, (Tree.markers_joined t (u :: ts)).symm⟩

/-- Where there is a marker, there is a symbolic member. -/
theorem exists_symbolic_operand (hmember : ∀ t ∈ ts, t.IsMember)
    (hmarkers : ts.flatMap Tree.markers ≠ []) :
    ∃ m ∈ ts.map Tree.operand, m.isSymbolic = true := by
  obtain ⟨name, hname⟩ := List.exists_mem_of_ne_nil _ hmarkers
  obtain ⟨t, ht, hname⟩ := List.mem_flatMap.1 hname
  refine ⟨t.operand, List.mem_map_of_mem ht, isSymbolic_iff.2 ?_⟩
  exact (hmember t ht).value?_operand.2 (List.ne_nil_of_mem hname)

/-- Folding the members of a group leaves a group that has the same markers. -/
theorem exists_isWritten_foldMembers {f : Function} {ms ms' : List Operand}
    (h : (Operand.group ms).IsWritten t) (hfolds : Deferral.Folds f ms ms')
    (hfold : Deferral.foldMembers (.function f) ms = .ok ms') :
    ∃ s, (Operand.group ms').IsWritten s ∧ s.markers = t.markers := by
  have hmarkers : t.markers ≠ [] := h.value?_iff.1 rfl
  obtain ⟨ts, rfl, hlength, hmember, htmarkers⟩ := h.members
  obtain ⟨ts', rfl, hmember'⟩ := exists_map_operand fun m hm =>
    isMember_of_remnant (fun n hn => by
      obtain ⟨s, hs, rfl⟩ := List.mem_map.1 hn
      exact ⟨s, hmember s hs, rfl⟩) (hfolds.mem m hm)
  -- markers are in symbolic members, which folding leaves alone
  have hsame : ts'.flatMap Tree.markers = t.markers := by
    rw [← flatMap_markers_operand, ← flatMap_markers_symbols,
      (Deferral.foldMembers_spec f hfold).1, flatMap_markers_symbols, flatMap_markers_operand,
      htmarkers]
  have hlength' : 2 ≤ ts'.length := by
    have hsymbolic := exists_symbolic_operand hmember (htmarkers ▸ hmarkers)
    have hfolded := hfolds.length (by rwa [List.length_map]) hsymbolic
    rwa [List.length_map] at hfolded
  obtain ⟨s, hs, hsmarkers⟩ := exists_isWritten_group hlength' hmember' (hsame ▸ hmarkers)
  exact ⟨s, hs, hsmarkers.trans hsame⟩

theorem IsWritten.provenanceOf {ms : List Operand} (h : (Operand.group ms).IsWritten t) :
    provenanceOf ms = t.provenance := by
  obtain ⟨ts, rfl, _, hmember, hmarkers⟩ := h.members
  rw [Tree.provenanceOf_operands fun s hs => (hmember s hs).toIsAlone, hmarkers]
  rfl

/-- A function makes an operand that is written for a tree, with the same markers. -/
theorem IsWritten.function (h : a.IsWritten t) {f : Function} (hz : Deferral.function f a = .ok z) :
    ∃ s, z.IsWritten s ∧ s.markers = t.markers := by
  cases hvalue : a.value? with
  | some v =>
    rw [Deferral.function_of_value hvalue] at hz
    obtain ⟨w, hw, hz⟩ := Except.exists_of_bind_eq_ok hz
    obtain rfl := Except.ok.inj hz
    obtain ⟨s, hs, hmarkers⟩ := isWritten_marked (Function.execute_flat (h.flat hvalue) hw) _
    exact ⟨s, hs, hmarkers.trans (h.markers_of_value? hvalue).symm⟩
  | none =>
    have hmarkers : t.markers ≠ [] := h.value?_iff.1 hvalue
    have horigin : commonOrigin [a] = t.provenance.origin? := by
      rw [commonOrigin, Operand.provenanceOf, Operand.provenanceOf, Provenance.merge_constant,
        h.provenance]
    rw [Deferral.function_of_symbolic hvalue] at hz
    cases a with
    | group ms =>
      -- what is called is the group that folding leaves
      obtain ⟨ms', hcall, hfolds, hfold⟩ := Deferral.deferCall_group f ms
      obtain ⟨s, hs, hsmarkers⟩ := exists_isWritten_foldMembers h hfolds hfold
      rw [hcall, Deferral.call, commonOrigin, hs.provenanceOf] at hz
      obtain rfl := Except.ok.inj hz
      exact ⟨_, hs.call (hsmarkers ▸ hmarkers), hsmarkers⟩
    | _ =>
      obtain rfl := Except.ok.inj hz
      rw [Deferral.call, horigin]
      exact ⟨_, h.call hmarkers, rfl⟩

/-! ## Obtainable operands -/

/-- An obtainable operand is written for a tree, on which no work is left that could be done ahead
of time. -/
theorem Obtainable.exists_isWritten [Capacity] (h : a.Obtainable) : ∃ t, a.IsWritten t := by
  induction h with
  | marker name =>
    exact ⟨_, isWritten_marker name⟩
  | constant marks hflat =>
    exact ⟨_, .alone (t := .constant _ marks) ⟨.constant marks hflat, Tree.lt_atomic .comma⟩⟩
  | binary _ _ hz iha ihc =>
    obtain ⟨t, ht⟩ := iha
    obtain ⟨u, hu⟩ := ihc
    rw [Deferral.execute_binary] at hz
    obtain ⟨s, hs⟩ := ht.binary hu hz
    exact ⟨s, hs.written⟩
  | function _ hz ih =>
    obtain ⟨t, ht⟩ := ih
    rw [Deferral.execute_function] at hz
    obtain ⟨s, hs, _⟩ := ht.function hz
    exact ⟨s, hs⟩

end Operand

end Reckon
