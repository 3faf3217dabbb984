import Reckon.Proofs.Evaluation.Lockstep
import Reckon.Proofs.Formula.Obtainable
import Reckon.Proofs.Machine.Barrier
import Reckon.Proofs.Machine.Conserved

/-!
# Occurrence — the variables of a formula in the order of its source

A compilation takes operands apart and puts them together again in several ways, but it neither
reorders nor duplicates variables.  An evaluation that keeps nothing but names shows it: operators
join the names on their left with those on their right, so at the end all names stand in the order
of the source.

* `Token.variableNames` — the names behind markers in a list of tokens;
* `Semantics.naming`, `Evaluation.ofReading_naming` — the evaluation that keeps names, and its
  result;
* `Formula.markers_in_order` — the markers of a formula are some of these names, in their order;
  they are all of them unless two symbols are found to be the same.
-/

namespace Reckon

open Machine Operand

/-! ## Names in a list of tokens -/

/-- The names that stand behind markers, from left to right. -/
def Token.variableNames : List Token → List String
  | [] => []
  | [_] => []
  | t :: u :: ts =>
    if t.isMarker ∧ u.kind = .name then u.text :: variableNames (u :: ts)
    else variableNames (u :: ts)

/-- Evaluation on the names of variables. -/
def Semantics.naming : Semantics (List String) where
  binary _ names names' := .ok (names ++ names')
  function _ names := .ok names
  number _ := []
  text _ := []
  resolve name := .ok [name]

namespace Evaluation

/-! ## The evaluation that keeps names -/

/-- Operators keep the names of the operands, from the bottom to the top. -/
theorem conserves_naming :
    Semantics.naming.toReducer.Conserves fun operands => operands.toList.flatten := by
  intro op operands operands' h
  cases op with
  | bracket side =>
    rw [perform_bracket] at h
    cases h
  | function f =>
    rcases operands with _ | ⟨names, below⟩
    · cases h
    · rw [perform_function] at h
      cases h
      rfl
  | binary op =>
    rcases operands with _ | ⟨names', _ | ⟨names, below⟩⟩
    · cases h
    · cases h
    · rw [perform_binary] at h
      cases h
      simp [Stack.toList]

theorem variableNames_cons {t : Token} (h : t.isMarker = false) (ts : List Token) :
    Token.variableNames (t :: ts) = Token.variableNames ts := by
  cases ts with
  | nil =>
    rfl
  | cons u ts =>
    rw [Token.variableNames, if_neg (by simp [h])]

theorem variableNames_marker {m t : Token} (hm : m.isMarker = true) (hkind : t.kind = .name)
    (ts : List Token) : Token.variableNames (m :: t :: ts) = t.text :: Token.variableNames ts := by
  have hplain : t.isMarker = false := by simp [Token.isMarker, hkind]
  rw [Token.variableNames, if_pos ⟨hm, hkind⟩, variableNames_cons hplain]

theorem isMarker_of_role_ne {t : Token} (h : role t ≠ .marker) : t.isMarker = false := by
  cases hmarker : t.isMarker with
  | false =>
    rfl
  | true =>
    have hkind : t.kind = .symbol := by
      simp only [Token.isMarker, Bool.and_eq_true, decide_eq_true_eq] at hmarker
      exact hmarker.1
    exact absurd (by simp [role, hkind, hmarker]) h

/-- The names that an evaluation has and those that are still to come, if the tokens `ts` are. -/
def names (e : Evaluation (List String)) (ts : List Token) : List String :=
  e.state.operands.toList.flatten ++ Token.variableNames (e.marker.toList ++ ts)

theorem names_of_marker_none {e : Evaluation (List String)} (hm : e.marker = none)
    (ts : List Token) :
    e.names ts = e.state.operands.toList.flatten ++ Token.variableNames ts := by
  rw [names, hm]
  rfl

theorem names_withOperand (e : Evaluation (List String)) (found : List String) (ts : List Token) :
    (e.withOperand found).names ts =
      e.state.operands.toList.flatten ++ (found ++ Token.variableNames ts) := by
  simp [names, withOperand, Stack.push, Stack.toList]

/-- A token that is no marker brings no name, unless it is a name behind a marker. -/
theorem names_cons {e : Evaluation (List String)} {t : Token} (hm : e.marker = none)
    (hrole : role t ≠ .marker) (ts : List Token) :
    e.names (t :: ts) = e.state.operands.toList.flatten ++ Token.variableNames ts := by
  rw [names_of_marker_none hm, variableNames_cons (isMarker_of_role_ne hrole)]

/-- What an evaluation waits for is a name, if it waits for anything. -/
def AwaitsName (e : Evaluation (List String)) : Prop :=
  ∀ m, e.marker = some m → m.isMarker = true

/-- The name behind a marker moves from the tokens to the operands; no other token brings a name. -/
theorem names_feed {e e' : Evaluation (List String)} {t : Token} (hawaits : e.AwaitsName)
    (h : feed Semantics.naming e t = .ok e') (ts : List Token) :
    e'.names ts = e.names (t :: ts) ∧ e'.AwaitsName := by
  cases takes_of_feed h with
  | @name m found hm hkind hresolve =>
    cases hresolve
    refine ⟨?_, nofun⟩
    have hbehind : Token.variableNames (e.marker.toList ++ t :: ts) =
        t.text :: Token.variableNames ts := by
      rw [hm]
      exact variableNames_marker (hawaits m hm) hkind ts
    rw [names_withOperand, names, hbehind]
    rfl
  | number hm hrole _ =>
    rw [names_cons hm (by simp [hrole]), names_withOperand]
    exact ⟨rfl, nofun⟩
  | text hm hrole =>
    rw [names_cons hm (by simp [hrole]), names_withOperand]
    exact ⟨rfl, nofun⟩
  | marker hm hrole =>
    refine ⟨?_, ?_⟩
    · rw [names_of_marker_none hm]
      rfl
    · rintro m hm'
      cases hm'
      exact isMarker_of_role hrole
  | minus hm hrole _ =>
    refine ⟨?_, fun m hm' => hawaits m hm'⟩
    rw [names_cons hm (by simp [hrole])]
    exact names_of_marker_none hm ts
  | operator hm hrole _ hadvance =>
    refine ⟨?_, fun m hm' => hawaits m hm'⟩
    have hconserved := conserves_naming.advance hadvance
    rw [names_cons hm (by simp [hrole]), ← hconserved]
    refine names_of_marker_none ?_ ts
    exact hm

theorem names_foldlM {ts : List Token} {e e' : Evaluation (List String)} (hawaits : e.AwaitsName)
    (h : ts.foldlM (feed Semantics.naming) e = .ok e') :
    e'.names [] = e.names ts := by
  induction ts generalizing e with
  | nil =>
    cases h
    rfl
  | cons t ts ih =>
    rw [List.foldlM_cons] at h
    obtain ⟨e'', hfeed, h⟩ := Except.exists_of_bind_eq_ok h
    obtain ⟨hnames, hawaits'⟩ := names_feed hawaits hfeed ts
    rw [ih hawaits' h, hnames]

/-- All names are left at the end, in the order of the tokens. -/
theorem ofReading_naming {r : Reading} {found : List String}
    (h : ofReading Semantics.naming r = .ok found) : found = Token.variableNames r.tokens := by
  rw [ofReading_eq] at h
  obtain ⟨e, hfold, h⟩ := Except.exists_of_bind_eq_ok h
  have hstart : AwaitsName (start : Evaluation (List String)) := nofun
  have hnames : e.names [] = Token.variableNames r.tokens := names_foldlM hstart hfold
  cases hfailure : r.failure with
  | some failure =>
    rw [hfailure] at h
    cases h
  | none =>
    rw [hfailure] at h
    cases hm : e.marker with
    | some m =>
      dsimp only at h
      rw [conclude_of_marker_some _ hm] at h
      cases h
    | none =>
      dsimp only at h
      rw [conclude_of_marker_none _ hm] at h
      obtain ⟨s, hsettle, hfinal⟩ := Except.exists_of_bind_eq_ok h
      have hconserved := conserves_naming.settle hsettle
      -- the names of the only operand are all the names that are held
      rw [eq_of_final hfinal] at hconserved
      rw [← hnames, names_of_marker_none hm, ← hconserved]
      simp [State.empty, State.withOperand, Stack.push, Stack.toList, Token.variableNames]

end Evaluation

/-! ## Compilation -/

namespace Formula

variable {source : String} {f : Formula}

section

variable [Capacity]

/-- A compilation next to an evaluation that keeps names.  Every operand keeps the names next to it,
and all of them unless two symbols are merged in the session. -/
def naming (source : String) : Comparison Operand (List String) where
  left := Semantics.symbolic
  right := Semantics.naming
  SameOperand a names := ∃ t, a.KeepsNames names (∀ op x y, ¬Merges source op x y) t
  SameError := (· = ·)

theorem fair_naming (source : String) (r : Reading) : (naming source).Fair r where
  number x := ⟨_, (isWritten_value (.number x)).keepsNames rfl _⟩
  text _ _ _ := ⟨_, (isWritten_value (.text trivial)).keepsNames rfl _⟩
  error _ _ := rfl
  failure _ _ := rfl

/-- Operands join their names, and lose some of them only if they are merged. -/
theorem keepsNames_binary {op : Binary} {a c z : Operand} {names names' : List String}
    (ha : (naming source).SameOperand a names) (hc : (naming source).SameOperand c names')
    (hmem : .reduction (.binary op) [a, c] ∈ session source)
    (hz : Deferral.binary op a c = .ok z) :
    (naming source).SameOperand z (names ++ names') := by
  obtain ⟨t, ht⟩ := ha
  obtain ⟨u, hu⟩ := hc
  obtain ⟨s, hs⟩ := ht.written.binary hu.written hz
  refine ⟨s, hs.written, hs.sublist.trans (ht.sublist.append hu.sublist), ?_⟩
  intro hmerges
  rw [hs.all, ht.all hmerges, hu.all hmerges]
  -- otherwise the step would merge its operands
  intro hop
  cases hsame : a.sameSymbol c with
  | false =>
    rfl
  | true =>
    exact absurd ⟨hmem, hop, hsame⟩ (hmerges op a c)

theorem keepsNames_function {g : Function} {a z : Operand} {names : List String}
    (ha : (naming source).SameOperand a names) (hz : Deferral.function g a = .ok z) :
    (naming source).SameOperand z names := by
  obtain ⟨t, ht⟩ := ha
  obtain ⟨s, hs, hmarkers⟩ := ht.written.function hz
  exact ⟨s, hs, hmarkers ▸ ht.sublist, fun hmerges => hmarkers.trans (ht.all hmerges)⟩

/-- The two part only where the compilation fails. -/
theorem exists_error_of_parting_naming {x : Step Operand} {y : Step (List String)}
    (hx : x ∈ session source) (hpart : (naming source).Parting x y) :
    ∃ e, Semantics.symbolic.take x = .error e := by
  cases htake : Semantics.symbolic.take x with
  | error e =>
    exact ⟨e, rfl⟩
  | ok z =>
    cases hpart with
    | resolution name hdiffer =>
      obtain rfl : z = .marker name := Semantics.eq_of_resolve_symbolic htake
      have hagree : (naming source).Agree (naming source).SameOperand (.ok (.marker name))
          (.ok [name]) := .ok ⟨_, (isWritten_marker name).keepsNames rfl _⟩
      rw [← htake] at hagree
      exact absurd hagree hdiffer
    | @binary op a c names names' ha hc hdiffer =>
      have hz : Deferral.binary op a c = .ok z := htake
      have hagree : (naming source).Agree (naming source).SameOperand (.ok z)
          (.ok (names ++ names')) := .ok (keepsNames_binary ha hc hx hz)
      rw [← hz] at hagree
      exact absurd hagree hdiffer
    | @function g a names ha hdiffer =>
      have hz : Deferral.function g a = .ok z := htake
      have hagree : (naming source).Agree (naming source).SameOperand (.ok z) (.ok names) :=
        .ok (keepsNames_function ha hz)
      rw [← hz] at hagree
      exact absurd hagree hdiffer

/-- A formula keeps names of its source, as the operand that it comes from does. -/
theorem exists_keepsNames (hcompile : compile source = .ok f) :
    ∃ (a : Operand) (t : Tree), f.sequence = a.sequence ∧
      a.KeepsNames (Token.variableNames (Token.lex source).tokens)
        (∀ op x y, ¬Merges source op x y) t := by
  rw [compile_eq] at hcompile
  obtain ⟨a, ha, hcompile⟩ := Except.exists_of_bind_eq_ok hcompile
  obtain rfl := Except.ok.inj hcompile
  have hleft : (Evaluation.traced (naming source).left (Token.lex source)).result = .ok a := ha
  cases Comparison.lockstep_traced (fair_naming source (Token.lex source)) with
  | apart _ hpart hx _ =>
    -- the compilation would have ended at that step
    obtain ⟨e, he⟩ := exists_error_of_parting_naming hx.mem hpart
    rw [(hx.result he).2] at hleft
    cases hleft
  | together _ hresult =>
    rw [hleft] at hresult
    generalize hright : (Evaluation.traced (naming source).right (Token.lex source)).result = r
      at hresult
    cases hresult with
    | @ok _ names hkeeps =>
      obtain ⟨t, hkeeps⟩ := hkeeps
      rw [Evaluation.result_traced] at hright
      rw [Evaluation.ofReading_naming hright] at hkeeps
      exact ⟨a, t, rfl, hkeeps⟩

/-- The variables of a formula stand in the order of its source, and none of them more often than
there.  All of them are left unless two symbols are found to be the same. -/
theorem markers_in_order (hcompile : compile source = .ok f) :
    (f.sequence.filterMap Element.marker?).Sublist
        (Token.variableNames (Token.lex source).tokens) ∧
      (∀ name ∈ f.variableNames, name ∈ Token.variableNames (Token.lex source).tokens) ∧
        ((∀ op a c, ¬Merges source op a c) →
          f.sequence.filterMap Element.marker? =
            Token.variableNames (Token.lex source).tokens) := by
  obtain ⟨a, t, hsequence, hkeeps⟩ := exists_keepsNames hcompile
  have hmarkers : f.sequence.filterMap Element.marker? = t.markers := by
    rw [hsequence, hkeeps.written.sequence, Tree.filterMap_sequence]
  rw [hmarkers]
  refine ⟨hkeeps.sublist, ?_, hkeeps.all⟩
  intro name hname
  rw [variableNames, VariableTable.mem_names_ofList, hmarkers] at hname
  exact hkeeps.sublist.subset hname

end

/-- A difference of a maximum and a variable, in which no symbols are the same. -/
theorem markers_in_order_of_difference :
    ∃ f, compile "max($y, 1 * $x, 2, 3) - $y" = .ok f ∧
      f.sequence.filterMap Element.marker? =
        Token.variableNames (Token.lex "max($y, 1 * $x, 2, 3) - $y").tokens := by
  have hsome : (compile "max($y, 1 * $x, 2, 3) - $y").isOk = true := by decide +kernel
  obtain ⟨f, hcompile⟩ := Except.exists_of_isOk hsome
  refine ⟨f, hcompile, (markers_in_order hcompile).2.2 ?_⟩
  intro op a c hmerges
  rcases hmerges.additive with rfl | rfl
  · exact not_merges (by decide +kernel) a c hmerges
  · exact not_merges (by decide +kernel) a c hmerges

end Formula

end Reckon
