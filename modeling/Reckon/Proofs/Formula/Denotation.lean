import Reckon.Proofs.Formula.Outcome
import Reckon.Proofs.Formula.Shape

/-!
# Denotation — what symbolic operands stand for

Under bindings every operand of a compilation stands for an outcome, which is had by replaying its
sequence.  The operands that a compilation brings about are sound: the sequence of a deferred
operation holds together at the precedence that is noted for it, and it comes to a number or a text.

* `Operand.outcome` — the outcome that an operand stands for;
* `soundShape`, `closed_soundShape` — soundness is a shape, and deferring keeps to it;
* `outcome_joinMembers` — the members of a group come to the list of what they stand for.
-/

namespace Reckon

open Machine Operand Formula

/-- The outcome that an operand stands for. -/
def Operand.outcome (sem : Semantics Value) (a : Operand) : Except Error Value :=
  match a.value? with
  | some v => .ok v
  | none => Formula.outcome sem a.sequence

theorem respects_outcome (sem : Semantics Value) : Deferral.Respects (Operand.outcome sem) := by
  intro m v h
  simp only [Operand.outcome, h]

/-- Operations that hold together at their precedence and come to a number or a text. -/
def soundShape (sem : Semantics Value) (P : CodeText → Prop) : Shape where
  Text := P
  Marker _ := True
  Deferred es _ p :=
    1 ≤ p ∧ Reads sem es p ∧ ∀ v, Formula.outcome sem es = .ok v → v.IsScalar P

/-- Evaluation on values with variables that are bound to numbers and to texts with a property. -/
structure Semantics.Suits [Capacity] (sem : Semantics Value) (P : CodeText → Prop) : Prop where
  reducer : sem.toReducer = Semantics.concrete
  number : sem.number = .number
  text : ∀ s, sem.text s = .text s
  short : HoldsOfShort P
  resolve : ∀ {name v}, sem.resolve name = .ok v → v.IsScalar P

variable {sem : Semantics Value} {P : CodeText → Prop}

/-! ## Scalars -/

namespace Operand

theorem IsScalar.outcome_sequence {a : Operand} (h : a.IsScalar (soundShape sem P)) :
    Formula.outcome sem a.sequence = a.outcome sem := by
  cases h <;> rfl

theorem IsScalar.reads {a : Operand} (h : a.IsScalar (soundShape sem P)) :
    Reads sem a.sequence a.precedence ∧ 1 ≤ a.precedence := by
  have hatomic : 1 ≤ atomicPrecedence := by decide
  cases h with
  | constant h _ =>
    exact ⟨reads_constant sem _ _, hatomic⟩
  | marker _ =>
    exact ⟨reads_marker sem _, hatomic⟩
  | deferred h =>
    exact ⟨h.2.1, h.1⟩

theorem IsScalar.outcome [Capacity] (hsem : sem.Suits P) {a : Operand}
    (h : a.IsScalar (soundShape sem P)) {v : Value} (hv : a.outcome sem = .ok v) : v.IsScalar P := by
  rw [← h.outcome_sequence] at hv
  cases h with
  | constant h _ =>
    cases hv
    exact h
  | @marker name _ =>
    change Formula.outcome sem [.marker name] = .ok v at hv
    rw [outcome_marker] at hv
    exact hsem.resolve hv
  | deferred h =>
    exact h.2.2 v hv

end Operand

theorem mapM_outcome_scalar [Capacity] (hsem : sem.Suits P) {ms : List Operand}
    (hms : ∀ m ∈ ms, m.IsScalar (soundShape sem P)) {vs : List Value}
    (h : ms.mapM (Operand.outcome sem) = .ok vs) :
    vs.length = ms.length ∧ ∀ v ∈ vs, v.IsScalar P := by
  induction ms generalizing vs with
  | nil =>
    cases h
    simp
  | cons m ms ih =>
    rw [List.mapM_cons] at h
    obtain ⟨v, hv, h⟩ := Except.exists_of_bind_eq_ok h
    obtain ⟨ws, hws, h⟩ := Except.exists_of_bind_eq_ok h
    cases h
    obtain ⟨hlength, hscalar⟩ := ih (fun n hn => hms n (List.mem_cons_of_mem m hn)) hws
    refine ⟨by rw [List.length_cons, List.length_cons, hlength], ?_⟩
    intro w hw
    rcases List.mem_cons.1 hw with rfl | hw
    · exact (hms m (by simp)).outcome hsem hv
    · exact hscalar w hw

/-! ## Members of a group -/

/-- What commas make of values: a single value is itself. -/
def asList : List Value → Value
  | [v] => v
  | vs => .list vs

theorem asList_of_two {vs : List Value} (h : 2 ≤ vs.length) : asList vs = .list vs := by
  match vs, h with
  | _ :: _ :: _, _ =>
    rfl

theorem members_asList {vs : List Value} (h : ∀ v ∈ vs, v.IsScalar P) : (asList vs).members = vs := by
  match vs, h with
  | [], _ =>
    rfl
  | [v], h =>
    exact (h v (by simp)).members
  | _ :: _ :: _, _ =>
    rfl

/-- One more member behind a comma. -/
theorem outcome_snoc [Capacity] (hsem : sem.Suits P) {ms : List Operand} (hne : ms ≠ [])
    (hms : ∀ m ∈ ms, m.IsScalar (soundShape sem P)) {n : Operand}
    (hn : n.IsScalar (soundShape sem P)) :
    (ms.mapM (Operand.outcome sem) >>= fun vs => .ok (asList vs)) >>= (fun v =>
      n.outcome sem >>= fun w => Binary.comma.execute v w) =
        (ms ++ [n]).mapM (Operand.outcome sem) >>= fun vs => .ok (asList vs) := by
  rw [List.mapM_append, List.mapM_cons, List.mapM_nil, bind_assoc, bind_assoc]
  cases hvs : ms.mapM (Operand.outcome sem) with
  | error e =>
    rfl
  | ok vs =>
    obtain ⟨hlength, hscalar⟩ := mapM_outcome_scalar hsem hms hvs
    simp only [Except.bind_ok, bind_assoc]
    cases hw : n.outcome sem with
    | error e =>
      rfl
    | ok w =>
      -- with one member in front there are two now, so the comma has made a list
      have hpos := List.length_pos_iff.2 hne
      have hlist : asList (vs ++ [w]) = .list (vs ++ [w]) := by
        refine asList_of_two ?_
        rw [List.length_append, hlength, List.length_singleton]
        omega
      simp only [Except.bind_ok, pure_bind]
      rw [Binary.execute_comma, members_asList hscalar, (hn.outcome hsem hw).members]
      exact congrArg Except.ok hlist.symm

/-- Members that need no brackets stand between commas as they are. -/
theorem joinMembers_cons {m : Operand} (hm : m.member = m.sequence) {ms : List Operand}
    (hms : ∀ n ∈ ms, n.member = n.sequence) :
    joinMembers (m :: ms) = m.sequence ++ ms.flatMap fun n => Element.comma :: n.sequence := by
  induction ms generalizing m with
  | nil =>
    rw [joinMembers, hm, List.flatMap_nil, List.append_nil]
  | cons n ms ih =>
    rw [joinMembers, hm, ih (hms n (by simp)) (fun k hk => hms k (List.mem_cons_of_mem n hk)),
      List.flatMap_cons]
    · simp
    · simp

section

variable [Capacity]

/-- Commas group from the left, so the members are joined one by one. -/
theorem computes_members (hsem : sem.Suits P) {ms : List Operand}
    (hms : ∀ n ∈ ms, n.IsScalar (soundShape sem P)) {es : List Element} {front : List Operand}
    (hne : front ≠ []) (hfront : ∀ m ∈ front, m.IsScalar (soundShape sem P))
    (h : Computes sem.toReducer (-1) (inputs sem es)
      (front.mapM (Operand.outcome sem) >>= fun vs => .ok (asList vs))) :
    Computes sem.toReducer (-1)
      (inputs sem (es ++ ms.flatMap fun n => Element.comma :: n.sequence))
      ((front ++ ms).mapM (Operand.outcome sem) >>= fun vs => .ok (asList vs)) := by
  -- `front` are the members that have been joined so far, and `es` is how they are written
  induction ms generalizing es front with
  | nil =>
    simpa using h
  | cons n ms ih =>
    have hn := hms n (by simp)
    have hjoin : Computes sem.toReducer (-1) (inputs sem (es ++ Element.comma :: n.sequence))
        ((front ++ [n]).mapM (Operand.outcome sem) >>= fun vs => .ok (asList vs)) := by
      have hcomma : sem.binary .comma = Binary.comma.execute :=
        congrArg (fun r => r.binary .comma) hsem.reducer
      have hoperand : wrapped (n.precedence ≤ Binary.comma.precedence) (inputs sem n.sequence) =
          inputs sem n.sequence := by
        have hprecedence := hn.reads.2
        have hcomma : Binary.comma.precedence = -1 := rfl
        rw [decide_eq_false (by omega)]
        rfl
      have hpart : Part _ _ _ Binary.comma.precedence :=
        Part.binary_of_computes h hn.reads.1.part
      rw [hoperand] at hpart
      rw [← outcome_snoc hsem hne hfront hn, ← hn.outcome_sequence, ← hcomma, inputs_append]
      exact hpart.lowest
    have hrest := ih (fun k hk => hms k (List.mem_cons_of_mem n hk)) (by simp) (by
      intro m hm
      rcases List.mem_append.1 hm with hm | hm
      · exact hfront m hm
      · rw [List.mem_singleton] at hm
        exact hm ▸ hn) hjoin
    simpa using hrest

theorem computes_joinMembers (hsem : sem.Suits P) {ms : List Operand} (hlength : 2 ≤ ms.length)
    (hms : ∀ m ∈ ms, m.IsScalar (soundShape sem P)) :
    Computes sem.toReducer (-1) (inputs sem (joinMembers ms))
      (ms.mapM (Operand.outcome sem) >>= fun vs => .ok (.list vs)) := by
  cases ms with
  | nil =>
    simp at hlength
  | cons m ms =>
    have hm := hms m (by simp)
    have hrest : ∀ n ∈ ms, n.IsScalar (soundShape sem P) :=
      fun n hn => hms n (List.mem_cons_of_mem m hn)
    have hsingle : Computes sem.toReducer (-1) (inputs sem m.sequence)
        ([m].mapM (Operand.outcome sem) >>= fun vs => .ok (asList vs)) := by
      have houtcome : ([m].mapM (Operand.outcome sem) >>= fun vs => .ok (asList vs)) =
          Formula.outcome sem m.sequence := by
        rw [hm.outcome_sequence, List.mapM_cons, List.mapM_nil]
        cases m.outcome sem <;> rfl
      rw [houtcome]
      exact hm.reads.1.part.lowest
    have hjoin := computes_members hsem hrest (by simp) (by simpa using hm) hsingle
    rw [joinMembers_cons (hm.member_eq_sequence And.left)
      fun n hn => (hrest n hn).member_eq_sequence And.left]
    -- two members or more are a list, whatever they come to
    have hlist : ((m :: ms).mapM (Operand.outcome sem) >>= fun vs => .ok (asList vs)) =
        (m :: ms).mapM (Operand.outcome sem) >>= fun vs => .ok (.list vs) := by
      cases hvs : (m :: ms).mapM (Operand.outcome sem) with
      | error e =>
        rfl
      | ok vs =>
        have hvs' := (mapM_outcome_scalar hsem hms hvs).1
        rw [Except.bind_ok, Except.bind_ok, asList_of_two (by omega)]
    rw [← hlist]
    exact hjoin

/-- The members of a group come to the list of what they stand for. -/
theorem outcome_joinMembers (hsem : sem.Suits P) {ms : List Operand} (hlength : 2 ≤ ms.length)
    (hms : ∀ m ∈ ms, m.IsScalar (soundShape sem P)) :
    Formula.outcome sem (joinMembers ms) =
      ms.mapM (Operand.outcome sem) >>= fun vs => .ok (.list vs) :=
  outcome_of_computes (by decide) (computes_joinMembers hsem hlength hms)

theorem reads_joinMembers (hsem : sem.Suits P) {ms : List Operand} (hlength : 2 ≤ ms.length)
    (hms : ∀ m ∈ ms, m.IsScalar (soundShape sem P)) :
    Reads sem (joinMembers ms) Binary.comma.precedence :=
  .of_computes (by decide) (by decide) (computes_joinMembers hsem hlength hms)

end

/-! ## Operands of a compilation -/

namespace Operand

theorem Formed.outcome_sequence {a : Operand} (h : a.Formed (soundShape sem P)) :
    Formula.outcome sem a.sequence = a.outcome sem := by
  cases h with
  | scalar h =>
    exact h.outcome_sequence
  | list marks h =>
    rfl
  | group hlength hsymbolic hscalar =>
    rfl

section

variable [Capacity]

theorem Formed.outcome_group (hsem : sem.Suits P) {ms : List Operand} (hlength : 2 ≤ ms.length)
    (hms : ∀ m ∈ ms, m.IsScalar (soundShape sem P)) :
    (Operand.group ms).outcome sem =
      ms.mapM (Operand.outcome sem) >>= fun vs => .ok (.list vs) :=
  outcome_joinMembers hsem hlength hms

theorem Formed.reads (hsem : sem.Suits P) {a : Operand} (h : a.Formed (soundShape sem P)) :
    Reads sem a.sequence a.precedence := by
  cases h with
  | scalar h =>
    exact h.reads.1
  | list marks h =>
    exact reads_constant sem _ _
  | group hlength hsymbolic hscalar =>
    exact reads_joinMembers hsem hlength hscalar

/-- What an operand of a compilation comes to is plain. -/
theorem Formed.outcome (hsem : sem.Suits P) {a : Operand} (h : a.Formed (soundShape sem P))
    {v : Value} (hv : a.outcome sem = .ok v) : v.IsPlain P := by
  cases h with
  | scalar h =>
    exact .scalar (h.outcome hsem hv)
  | list marks h =>
    cases hv
    exact h
  | group hlength hsymbolic hscalar =>
    rw [Formed.outcome_group hsem hlength hscalar] at hv
    obtain ⟨vs, hvs, hv⟩ := Except.exists_of_bind_eq_ok hv
    obtain rfl := Except.ok.inj hv
    obtain ⟨hlength', hscalar'⟩ := mapM_outcome_scalar hsem hscalar hvs
    exact .list (by omega) hscalar'

end

theorem mapM_outcome_ofMembers {vs : List Value} (h : ∀ v ∈ vs, v.IsScalar P)
    (marks : List (Option Nat)) : (ofMembers vs marks).mapM (Operand.outcome sem) = .ok vs := by
  induction vs generalizing marks with
  | nil =>
    rfl
  | cons v vs ih =>
    have hv : (ofMember v marks).outcome sem = .ok v := by
      cases h v (by simp) <;> rfl
    rw [ofMembers, List.mapM_cons, hv, ih fun w hw => h w (List.mem_cons_of_mem v hw)]
    rfl

/-- What an operand contributes to a group are the members of what it comes to. -/
theorem Formed.mapM_groupMembers [Capacity] (hsem : sem.Suits P) {a : Operand}
    (h : a.Formed (soundShape sem P)) :
    a.groupMembers.mapM (Operand.outcome sem) = a.outcome sem >>= fun v => .ok v.members := by
  cases h with
  | scalar h =>
    rw [h.groupMembers, List.mapM_cons, List.mapM_nil]
    cases hv : a.outcome sem with
    | error e =>
      rfl
    | ok v =>
      rw [Except.bind_ok, Except.bind_ok, (h.outcome hsem hv).members]
      rfl
  | @list vs marks h =>
    exact mapM_outcome_ofMembers h.members.2 _
  | group hlength hsymbolic hscalar =>
    rw [Formed.outcome_group hsem hlength hscalar, bind_assoc]
    exact (bind_pure _).symm

end Operand

/-! ## Soundness is kept -/

variable [Capacity]

theorem binary_of_suits (hsem : sem.Suits P) (op : Binary) : sem.binary op = op.execute :=
  congrArg (fun r => r.binary op) hsem.reducer

theorem function_of_suits (hsem : sem.Suits P) (f : Function) : sem.function f = f.execute :=
  congrArg (fun r => r.function f) hsem.reducer

/-- The outcome of an operation that is put together. -/
theorem outcome_combine (hsem : sem.Suits P) (op : Binary) {a c : Operand}
    (ha : a.Formed (soundShape sem P)) (hc : c.Formed (soundShape sem P)) :
    (Deferral.combine op a c).outcome sem =
      a.outcome sem >>= fun v => c.outcome sem >>= fun w => op.execute v w := by
  have h := (ha.reads hsem).outcome_binary (hc.reads hsem) op
  rw [ha.outcome_sequence, hc.outcome_sequence, binary_of_suits hsem] at h
  exact h

theorem closed_soundShape (hsem : sem.Suits P) : (soundShape sem P).Closed where
  text := hsem.short
  combine := by
    intro op a c hop ha hc _
    refine ⟨?_, (ha.reads hsem).binary (hc.reads hsem) op, ?_⟩
    · cases op with
      | comma =>
        exact absurd rfl hop
      | add =>
        decide
      | sub =>
        decide
      | mul =>
        decide
      | div =>
        decide
      | rem =>
        decide
    · -- what an operator makes of values is no list
      intro u hu
      change (Deferral.combine op a c).outcome sem = .ok u at hu
      rw [outcome_combine hsem op ha hc] at hu
      obtain ⟨v, hv, hu⟩ := Except.exists_of_bind_eq_ok hu
      obtain ⟨w, hw, hu⟩ := Except.exists_of_bind_eq_ok hu
      exact Binary.execute_scalar hsem.short hop (ha.outcome hsem hv) (hc.outcome hsem hw) hu
  call := by
    intro f a ha _
    refine ⟨by decide, ha.reads.1.call f, ?_⟩
    intro u hu
    rw [ha.reads.1.outcome_call f, ha.outcome_sequence, function_of_suits hsem] at hu
    obtain ⟨v, hv, hu⟩ := Except.exists_of_bind_eq_ok hu
    exact Function.execute_scalar (.scalar (ha.outcome hsem hv)) hu
  callGroup := by
    intro f ms hlength _ hms _
    have hreads := reads_joinMembers hsem hlength hms
    refine ⟨by decide, hreads.call f, ?_⟩
    intro u hu
    rw [hreads.outcome_call f, outcome_joinMembers hsem hlength hms, function_of_suits hsem] at hu
    obtain ⟨v, hv, hu⟩ := Except.exists_of_bind_eq_ok hu
    obtain ⟨vs, hvs, hv⟩ := Except.exists_of_bind_eq_ok hv
    obtain rfl := Except.ok.inj hv
    obtain ⟨hlength', hscalar⟩ := mapM_outcome_scalar hsem hms hvs
    exact Function.execute_scalar (.list (by omega) hscalar) hu

end Reckon
