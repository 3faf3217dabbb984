import Reckon.Proofs.Formula.Parallel
import Reckon.Proofs.Formula.Replay
import Reckon.Proofs.Machine.Move

/-!
# Domain — the values that a calculation meets

The operators of a calculation tell values apart by their kind, and they know numbers, texts, and
flat lists of at least two numbers and texts.  Nothing else is ever put before them:

* `Value.InDomain` — these values;
* `Machine.Reachable` — the states that moves on values of the domain lead to, between transitions
  and within them;
* `Evaluation.InDomain`, `Formula.InDomain` — what is required of an evaluation and of a replay;
* `calculations_inDomain` — every evaluation meets it, and so does every replay of a formula that
  has been compiled.

Bound values come from outside and in more kinds, but what is taken over of them are numbers and
texts.
-/

namespace Reckon

open Machine

/-- Numbers, texts, and flat lists of at least two numbers and texts. -/
abbrev Value.InDomain (v : Value) : Prop :=
  v.IsPlain fun _ => True

/-! ## Reachable states -/

section

variable [Capacity]

theorem preserves_inDomain : Preserves Semantics.concrete Value.InDomain where
  binary hx hy hz := Binary.execute_plain (fun _ _ => trivial) hx hy hz
  function hx hz := Function.execute_plain hx hz

namespace Machine

/-- The states that a machine on values can be in, if the operands that arrive are in the domain. -/
def Reachable (s : State Value) : Prop :=
  Moves Semantics.concrete Value.InDomain .empty s

theorem reachable_empty : Reachable .empty := .refl

theorem Reachable.inDomain {s : State Value} (h : Reachable s) : ∀ v ∈ s.operands, v.InDomain :=
  h.forall_operands preserves_inDomain (fun _ hv => hv) (by simp [State.empty])

/-- Whatever a transition that goes by moves leaves is reachable again, even if it fails. -/
theorem Reachable.left {β : Type} {s : State Value} (h : Reachable s) {m : Machine Value β}
    (hm : Goes Semantics.concrete Value.InDomain m) : Reachable (left (m s)) :=
  h.trans (hm s)

end Machine

end

/-! ## Literals and bound values -/

theorem inDomain_of_resolve {missing : String → Error} {b : Bindings} {name : String} {v : Value}
    (h : b.resolve missing name = .ok v) : v.InDomain := by
  obtain ⟨supplied, _, hcoerce⟩ := Formula.exists_of_resolve h
  rcases Formula.cases_of_coerce hcoerce with ⟨x, rfl⟩ | ⟨s, _, rfl⟩
  · exact .scalar (.number x)
  · exact .scalar (.text trivial)

section

variable [Capacity]

theorem keeps_inDomain (missing : String → Error) (b : Bindings) (r : Reading) :
    (Semantics.direct missing b).Keeps r Value.InDomain where
  number x := .scalar (.number x)
  text _ _ _ := .scalar (.text trivial)
  resolve hv := inDomain_of_resolve hv
  binary := preserves_inDomain.binary
  function := preserves_inDomain.function

/-! ## Evaluations -/

namespace Evaluation

/-- An evaluation on values that stays within the domain. -/
structure InDomain (r : Reading) (b : Bindings) : Prop where
  /-- The state behind every token is reachable. -/
  reached : ∀ ts e, ts <+: r.tokens →
    ts.foldlM (feed (.direct .unknownVariable b)) start = .ok e → Reachable e.state
  /-- The operands of every operator that is executed are in the domain. -/
  executed : ∀ op operands,
    .reduction op operands ∈ (traced (.direct .unknownVariable b) r).steps →
      ∀ v ∈ operands, v.InDomain
  result : ∀ v, ofReading (.direct .unknownVariable b) r = .ok v → v.InDomain

variable {b : Bindings} {e e' : Evaluation Value}

theorem reachable_feed {missing : String → Error} {t : Token} (h : Reachable e.state)
    (hfeed : feed (.direct missing b) e t = .ok e') : Reachable e'.state := by
  cases takes_of_feed hfeed with
  | name _ _ hresolve =>
    exact h.tail (.operand _ (inDomain_of_resolve hresolve))
  | number _ _ _ =>
    exact h.tail (.operand _ (.scalar (.number _)))
  | text _ _ =>
    exact h.tail (.operand _ (.scalar (.text trivial)))
  | marker _ _ =>
    exact h
  | minus _ _ _ =>
    exact h.tail (.operator _ _)
  | operator _ _ _ hadvance =>
    exact h.trans (moves_of_advance hadvance)

theorem reachable_foldlM {missing : String → Error} {ts : List Token} (h : Reachable e.state)
    (hfeed : ts.foldlM (feed (.direct missing b)) e = .ok e') : Reachable e'.state := by
  induction ts generalizing e with
  | nil =>
    cases hfeed
    exact h
  | cons t ts ih =>
    rw [List.foldlM_cons] at hfeed
    obtain ⟨f, hfirst, hrest⟩ := Except.exists_of_bind_eq_ok hfeed
    exact ih (reachable_feed h hfirst) hrest

theorem inDomain (r : Reading) (b : Bindings) : InDomain r b where
  reached _ _ _ hfeed := reachable_foldlM reachable_empty hfeed
  executed _ _ hmem := (keeps_inDomain _ b r).all hmem
  result _ hv := (keeps_inDomain _ b r).result hv

end Evaluation

/-! ## Replays -/

namespace Formula

/-- A formula whose constants are in the domain, and whose replay stays within it. -/
structure InDomain (f : Formula) (b : Bindings) : Prop where
  constants : ∀ v marks, .constant v marks ∈ f.sequence → v.InDomain
  /-- The state behind every element is reachable, and so is the state behind one that fails. -/
  reached : ∀ es, es <+: f.sequence →
    Reachable (left (es.forM (feed (.direct .unprovidedVariable b)) .empty))
  finished : Reachable (left (runSequence (.direct .unprovidedVariable b) f.sequence .empty))
  /-- The operands of every operator that is executed are in the domain. -/
  executed : ∀ op operands,
    .reduction op operands ∈ ((Interpretation.direct b).replay f.sequence).steps →
      ∀ v ∈ operands, v.InDomain
  result : ∀ v, f.replay b = .ok v → v.InDomain

/-- A formula with the sequence of what a reading is compiled to. -/
def IsCompiled (f : Formula) (r : Reading) : Prop :=
  ∃ a, Evaluation.ofReading Semantics.symbolic r = .ok a ∧ f.sequence = a.sequence

variable {f : Formula}

theorem isCompiled_of_compile {source : String} (h : compile source = .ok f) :
    f.IsCompiled (Token.lex source) := by
  obtain ⟨a, ha, h⟩ := Except.exists_of_bind_eq_ok h
  obtain rfl := Except.ok.inj h
  exact ⟨a, ha, rfl⟩

theorem IsCompiled.constants {r : Reading} (h : f.IsCompiled r) {v : Value}
    {marks : List (Option Nat)} (hmem : .constant v marks ∈ f.sequence) : v.InDomain := by
  obtain ⟨a, ha, hsequence⟩ := h
  have hkeeps : Semantics.symbolic.Keeps r (Operand.Formed plainShape) :=
    closed_plainShape.keeps (fun _ _ _ => trivial) fun _ => trivial
  rw [hsequence] at hmem
  exact (hkeeps.result ha).plain _ hmem v marks rfl

theorem goes_feed (b : Bindings) {e : Element}
    (he : ∀ v marks, e = .constant v marks → v.InDomain) :
    Goes Semantics.concrete Value.InDomain (feed (.direct .unprovidedVariable b) e) := by
  cases e with
  | operator op =>
    exact goes_apply op
  | constant v marks =>
    exact goes_pushOperand (he v marks rfl)
  | marker name =>
    unfold feed
    dsimp only
    split
    · rename_i v hv
      exact goes_pushOperand (inDomain_of_resolve hv)
    · exact goes_throw _

theorem inDomain_of_constants (b : Bindings)
    (h : ∀ v marks, .constant v marks ∈ f.sequence → v.InDomain) : InDomain f b := by
  have hfeeds : ∀ es, es <+: f.sequence → Goes Semantics.concrete Value.InDomain
      (es.forM (feed (.direct .unprovidedVariable b))) := by
    intro es hes
    refine .forM fun e he => goes_feed b ?_
    rintro v marks rfl
    exact h v marks (hes.subset he)
  obtain ⟨hsteps, hresult⟩ := (keeps_inDomain .unprovidedVariable b ⟨[], none⟩).replay h
  exact {
    constants := h
    reached := fun es hes => reachable_empty.left (hfeeds es hes)
    finished := reachable_empty.left ((hfeeds _ List.prefix_rfl).bind fun _ => goes_finish)
    executed := fun op operands hmem => hsteps _ hmem
    result := fun v hv => hresult v (by rw [← replay_eq_result, hv]) }

end Formula

/--
Calculations stay within the domain of values.  In a reachable state every operand is in the domain,
and every transition leads to such a state, also when it fails; evaluations and replays pass through
reachable states only, execute operators on values of the domain only, and come to such a value; and
so are all constants of compiled formulas.
-/
theorem calculations_inDomain (b : Bindings) :
    (∀ s, Reachable s → (∀ v ∈ s.operands, v.InDomain) ∧
      (∀ op, Reachable (left (Machine.apply Semantics.concrete op s))) ∧
        Reachable (left (Machine.finish Semantics.concrete s))) ∧
      (∀ r, Evaluation.InDomain r b) ∧
        ∀ r f, Formula.IsCompiled f r → Formula.InDomain f b := by
  refine ⟨?_, fun r => Evaluation.inDomain r b, ?_⟩
  · intro s hs
    exact ⟨hs.inDomain, fun op => hs.left (goes_apply op), hs.left goes_finish⟩
  · intro r f hf
    exact Formula.inDomain_of_constants b fun v marks hmem => hf.constants hmem

end

/-- A product of a number and a text: the states before and after the comma behind it is fed, and the
formula that has the product as a constant. -/
theorem calculations_inDomain_of_product :
    ∃ f, Formula.compile "2 * 'a', $x" = .ok f ∧ Formula.InDomain f [("x", .number 1)] ∧
      Reachable ⟨[.text "a", .number 2], [.binary .mul]⟩ ∧
      (Value.text "a").InDomain ∧ (Value.number 2).InDomain ∧
      Reachable ⟨[.text "aa"], [.binary .comma]⟩ := by
  obtain ⟨hstates, -, hformulas⟩ := calculations_inDomain [("x", .number 1)]
  have hnumber : Reachable ⟨[.number 2], []⟩ := .single (.operand _ (.scalar (.number 2)))
  have hoperator : Reachable ⟨[.number 2], [.binary .mul]⟩ := hnumber.tail (.operator _ _)
  have hstate : Reachable ⟨[.text "a", .number 2], [.binary .mul]⟩ :=
    hoperator.tail (.operand _ (.scalar (.text trivial)))
  obtain ⟨hoperands, happly, -⟩ := hstates _ hstate
  have hleft : left (Machine.apply Semantics.concrete (.binary .comma)
      ⟨[.text "a", .number 2], [.binary .mul]⟩) = ⟨[.text "aa"], [.binary .comma]⟩ := by
    decide +kernel
  have hsome : (Formula.compile "2 * 'a', $x").isOk = true := by decide +kernel
  obtain ⟨f, hcompile⟩ := Except.exists_of_isOk hsome
  have hf := hformulas _ f (Formula.isCompiled_of_compile hcompile)
  exact ⟨f, hcompile, hf, hstate, hoperands _ (by simp), hoperands _ (by simp), hleft ▸ happly _⟩

end Reckon
