import Reckon.Proofs.Formula.Replay

/-!
# Dependence — what a replay depends on

A replay looks variables up in the order in which their markers come along, and it looks up nothing
else.  The names that a formula shows are these variables, in the order in which each of them is met
for the first time.

* `inputs_congr` — what a machine reads at a sequence, as far as the bindings go;
* `Formula.exists_split` — everything in front of the first marker of a name mentions names in front
  of that name only;
* `Formula.replay_dependence` — a replay depends on the bound values of these names, on all of them
  if it succeeds, and on those in front of a missing name if it fails.
-/

namespace Reckon

open Machine

/-! ## The order of names -/

namespace VariableTable

theorem prefix_foldl_insert (names : List String) (t : VariableTable) :
    t.names <+: (names.foldl insert t).names := by
  induction names generalizing t with
  | nil =>
    exact List.prefix_rfl
  | cons name names ih =>
    have hinsert : t.names <+: (t.insert name).names := by
      rw [names_insert]
      split
      · exact List.prefix_rfl
      · exact List.prefix_append _ _
    exact hinsert.trans (ih (t.insert name))

/-- Whatever is mentioned in front of the first mention of a name stands in front of it. -/
theorem mem_before {front rest before after : List String} {name : String}
    (hfront : name ∉ front)
    (hnames : (ofList (front ++ name :: rest)).names = before ++ name :: after) :
    ∀ other ∈ front, other ∈ before := by
  intro other hother
  have hnot : name ∉ (ofList front).names := fun h => hfront (mem_names_ofList.1 h)
  have hprefix : (ofList front).names <+: before ++ name :: after := by
    rw [← hnames, ofList, ofList, List.foldl_append]
    exact prefix_foldl_insert _ _
  have hbefore : before ++ [name] <+: before ++ name :: after := by
    rw [List.append_cons before name after]
    exact List.prefix_append _ _
  -- both begin the list of all names, and the name itself tells where the one in front ends
  rcases List.prefix_or_prefix_of_prefix hprefix hbefore with h | h
  · have hmem : other ∈ before ++ [name] := h.mem (mem_names_ofList.2 hother)
    rcases List.mem_append.1 hmem with hmem | hmem
    · exact hmem
    · rw [List.mem_singleton.1 hmem] at hother
      exact absurd hother hfront
  · exact absurd (h.mem (List.mem_append_right before (List.mem_singleton_self name))) hnot

end VariableTable

/-! ## What a machine reads -/

section Reading

variable {missing : String → Error} {b b' : Bindings} {es rest : List Element} {name : String}

theorem inputs_congr [Capacity] (h : ∀ m, .marker m ∈ es → b'.find? m = b.find? m) :
    inputs (Semantics.direct missing b') es = inputs (Semantics.direct missing b) es := by
  refine List.map_congr_left ?_
  intro e he
  cases e with
  | marker m =>
    have hresolve : b'.resolve missing m = b.resolve missing m := by
      simp only [Bindings.resolve, h m he]
    exact congrArg Input.operand hresolve
  | operator op =>
    rfl
  | constant v marks =>
    rfl

/-- The error that a machine meets at the elements of a sequence, before it comes to its end. -/
def Formula.FailsWithin (sem : Semantics Value) (es : List Element) (e : Error) : Prop :=
  feedAll sem.toReducer .empty (inputs sem es) = .error e

theorem Formula.FailsWithin.congr [Capacity] {e : Error}
    (hfails : FailsWithin (Semantics.direct missing b) es e)
    (h : ∀ m, .marker m ∈ es → b'.find? m = b.find? m) :
    FailsWithin (Semantics.direct missing b') es e := by
  have hinputs : inputs (Semantics.direct missing b') es = inputs (Semantics.direct missing b) es :=
    inputs_congr h
  unfold FailsWithin
  rw [hinputs]
  exact hfails

theorem Formula.FailsWithin.outcome {sem : Semantics Value} {e : Error}
    (hfails : FailsWithin sem es e) : outcome sem (es ++ rest) = .error e := by
  unfold FailsWithin at hfails
  rw [Formula.outcome, inputs_append, feedAll_append, hfails]
  rfl

/-- A sequence that comes to a value has found a value at each of its markers. -/
theorem exists_of_outcome {sem : Semantics Value} {v : Value}
    (h : Formula.outcome sem es = .ok v) (hname : .marker name ∈ es) :
    ∃ w, sem.resolve name = .ok w := by
  obtain ⟨front, rest, rfl⟩ := List.append_of_mem hname
  obtain ⟨s, hs, -⟩ := Except.exists_of_bind_eq_ok h
  rw [inputs_append, feedAll_append] at hs
  obtain ⟨t, -, hs⟩ := Except.exists_of_bind_eq_ok hs
  rw [inputs_cons, feedAll_cons] at hs
  obtain ⟨u, hu, -⟩ := Except.exists_of_bind_eq_ok hs
  obtain ⟨w, hw, -⟩ := Except.exists_of_bind_eq_ok hu
  exact ⟨w, hw⟩

/-- Where a marker is reached, its variable has to be there. -/
theorem outcome_of_reached {sem : Semantics Value} {s : State Value} {e : Error}
    (hreached : feedAll sem.toReducer .empty (inputs sem es) = .ok s)
    (hresolve : sem.resolve name = .error e) :
    Formula.outcome sem (es ++ .marker name :: rest) = .error e := by
  rw [Formula.outcome, inputs_append, feedAll_append, hreached, inputs_cons, Except.bind_ok,
    feedAll_cons]
  simp only [Element.input, feedInput, hresolve]
  rfl

end Reading

/-! ## Replays -/

namespace Formula

variable {f : Formula} {b b' : Bindings} {before after : List String} {name : String}

/-- The sequence up to the first marker of a name, which mentions the names in front of it only. -/
theorem exists_split (hnames : f.variableNames = before ++ name :: after) :
    ∃ front rest, f.sequence = front ++ .marker name :: rest ∧ .marker name ∉ front ∧
      ∀ m, .marker m ∈ front → m ∈ before := by
  have hmem : name ∈ f.variableNames := by
    rw [hnames]
    exact List.mem_append_right before List.mem_cons_self
  obtain ⟨front, rest, hsplit, hfront⟩ := List.eq_append_cons_of_mem (mem_variableNames.1 hmem)
  have hmentioned : ∀ m, m ∈ front.filterMap Element.marker? ↔ .marker m ∈ front := by
    intro m
    simp [List.mem_filterMap, Element.marker?_eq_some_iff]
  refine ⟨front, rest, hsplit, hfront, ?_⟩
  intro m hm
  rw [variableNames, hsplit, List.filterMap_append] at hnames
  exact VariableTable.mem_before (mt (hmentioned name).1 hfront) hnames m ((hmentioned m).2 hm)

section

variable [Capacity]

theorem replay_congr (h : ∀ m ∈ f.variableNames, b'.find? m = b.find? m) :
    f.replay b' = f.replay b := by
  have hinputs : inputs (Semantics.direct .unprovidedVariable b') f.sequence =
      inputs (Semantics.direct .unprovidedVariable b) f.sequence :=
    inputs_congr fun m hm => h m (mem_variableNames.2 hm)
  rw [replay_eq, replay_eq, outcome, outcome, hinputs]
  rfl

theorem exists_of_replay {v : Value} (h : f.replay b = .ok v) (hname : name ∈ f.variableNames) :
    ∃ supplied w, b.find? name = some supplied ∧ supplied.coerce = .ok (.value w) := by
  rw [replay_eq] at h
  obtain ⟨w, hw⟩ := exists_of_outcome h (mem_variableNames.1 hname)
  obtain ⟨supplied, hfind, hcoerce⟩ := exists_of_resolve hw
  exact ⟨supplied, w, hfind, hcoerce⟩

/-- A replay without a variable fails at its first marker or in front of it. -/
theorem replay_missing (hnames : f.variableNames = before ++ name :: after)
    (hmissing : b.find? name = none) :
    f.replay b = .error (.unprovidedVariable name) ∨
      ∃ e front rest, f.sequence = front ++ .marker name :: rest ∧ .marker name ∉ front ∧
        f.replay b = .error e ∧
          ∀ b' : Bindings, (∀ m ∈ before, b'.find? m = b.find? m) →
            FailsWithin (Semantics.direct .unprovidedVariable b') front e ∧
              f.replay b' = .error e := by
  obtain ⟨front, rest, hsplit, hnot, hfront⟩ := exists_split hnames
  -- the replay reaches the first marker of the name, or it fails at what stands in front
  cases hreached : feedAll (Semantics.direct .unprovidedVariable b).toReducer .empty
      (inputs (Semantics.direct .unprovidedVariable b) front) with
  | ok s =>
    have hresolve : b.resolve .unprovidedVariable name = .error (.unprovidedVariable name) := by
      simp only [Bindings.resolve, hmissing]
    left
    rw [replay_eq, hsplit]
    exact outcome_of_reached hreached hresolve
  | error e =>
    have hfails : ∀ b' : Bindings, (∀ m ∈ before, b'.find? m = b.find? m) →
        FailsWithin (Semantics.direct .unprovidedVariable b') front e ∧ f.replay b' = .error e := by
      intro b' hagree
      have hwithin : FailsWithin (Semantics.direct .unprovidedVariable b') front e :=
        FailsWithin.congr hreached fun m hm => hagree m (hfront m hm)
      refine ⟨hwithin, ?_⟩
      rw [replay_eq, hsplit]
      exact hwithin.outcome
    right
    exact ⟨e, front, rest, hsplit, hnot, (hfails b fun _ _ => rfl).2, hfails⟩

/-- A replay depends on what its variables are bound to and on nothing else.  If it succeeds then
all of them are bound to values that can be taken over.  If one of them is missing, the first one in
particular, then the replay says so, unless it has failed in front of it: with an error which the
variables in front of it decide. -/
theorem replay_dependence (f : Formula) (b : Bindings) :
    (∀ b' : Bindings, (∀ m ∈ f.variableNames, b'.find? m = b.find? m) →
      f.replay b' = f.replay b) ∧
    (∀ v, f.replay b = .ok v → ∀ m ∈ f.variableNames,
      ∃ supplied w, b.find? m = some supplied ∧ supplied.coerce = .ok (.value w)) ∧
    (∀ before name after, f.variableNames = before ++ name :: after → b.find? name = none →
      f.replay b = .error (.unprovidedVariable name) ∨
        ∃ e front rest, f.sequence = front ++ .marker name :: rest ∧ .marker name ∉ front ∧
          f.replay b = .error e ∧
            ∀ b' : Bindings, (∀ m ∈ before, b'.find? m = b.find? m) →
              FailsWithin (Semantics.direct .unprovidedVariable b') front e ∧
                f.replay b' = .error e) := by
  refine ⟨?_, ?_, ?_⟩
  · intro b' hagree
    exact replay_congr hagree
  · intro v hv m hm
    exact exists_of_replay hv hm
  · intro before name after hnames hmissing
    exact replay_missing hnames hmissing

end

/-- A quotient whose divisor may be missing, and a sum that fails in front of a missing variable. -/
theorem replay_dependence_of_quotient :
    (∃ f, compile "$x / $y" = .ok f ∧ f.variableNames = ["x", "y"] ∧
      f.replay [("z", .number 0), ("x", .number 6), ("y", .number 3)] =
        f.replay [("x", .number 6), ("y", .number 3)] ∧
      ∃ supplied w, Bindings.find? [("x", .number 6), ("y", .number 3)] "y" = some supplied ∧
        supplied.coerce = .ok (.value w)) ∧
    ∃ g, compile "$x / 0 + $y" = .ok g ∧ g.variableNames = ["x", "y"] ∧
      ∀ b : Bindings, b.find? "x" = some (.number 6) →
        g.replay b = .error (.divisionByZero (.binary .div)) := by
  constructor
  · let f : Formula := ⟨[.marker "x", .operator (.binary .div), .marker "y"], "$x / $y"⟩
    have hvalue : f.replay [("x", .number 6), ("y", .number 3)] = .ok (.number 2) := by
      decide +kernel
    refine ⟨f, by decide +kernel, by decide, ?_, ?_⟩
    · refine (replay_dependence f _).1 _ ?_
      intro m hm
      have hne : (m == "z") = false := by
        rw [beq_eq_false_iff_ne]
        rintro rfl
        exact absurd hm (by decide)
      simp only [Bindings.find?, List.lookup, hne]
    · exact (replay_dependence f _).2.1 _ hvalue "y" (by decide)
  · let g : Formula := ⟨[.marker "x", .operator (.binary .div), .constant (.number 0) [],
      .operator (.binary .add), .marker "y"], "$x / 0 + $y"⟩
    have herror : g.replay [("x", .number 6)] = .error (.divisionByZero (.binary .div)) := by
      decide +kernel
    refine ⟨g, by decide +kernel, by decide, ?_⟩
    intro b hb
    rcases (replay_dependence g [("x", .number 6)]).2.2 ["x"] "y" [] (by decide) rfl with
      h | ⟨e, front, rest, -, -, he, hagree⟩
    · rw [herror] at h
      cases h
    · rw [herror] at he
      obtain rfl := Except.error.inj he
      refine (hagree b ?_).2
      intro m hm
      rw [List.mem_singleton.1 hm]
      exact hb

end Formula

end Reckon
