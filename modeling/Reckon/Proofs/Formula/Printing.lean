import Reckon.Proofs.Formula.Phrasing

/-!
# Printing — a printed formula compiles back to itself

The text of a formula is an expression again.  As the operand that a compilation leaves is a phrase
that is compiled to this very operand, compiling the text of a formula gives the formula back, down
to the signs of its zeros.  A constant must have a text that is read back, which lists, infinity and
not-a-number do not have.

* `Semantics.within` — an evaluation resolves no other variables than those that its words name;
* `Formula.compile_render` — the text of a formula compiles to its sequence.
-/

namespace Reckon

open Evaluation Operand

/-! ## The variables that are named -/

/-- The names in a reading. -/
def Reading.names (r : Reading) : List String :=
  (r.tokens.filter (·.kind = .name)).map Token.text

theorem mem_names {r : Reading} {name : String} :
    name ∈ r.names ↔ ∃ t ∈ r.tokens, t.kind = .name ∧ t.text = name := by
  simp [Reading.names, and_assoc]

section Within

variable {α : Type} {sem : Semantics α} {names : List String}

/-- The same semantics, with no other variables than those with the given names. -/
def Semantics.within (sem : Semantics α) (names : List String) : Semantics α where
  toReducer := sem.toReducer
  number := sem.number
  text := sem.text
  resolve name := if name ∈ names then sem.resolve name else .error (.unknownVariable name)

theorem feed_within {t : Token} (h : t.kind = .name → t.text ∈ names) (e : Evaluation α) :
    feed (sem.within names) e t = feed sem e t := by
  cases hmarker : e.marker with
  | none =>
    rw [feed_of_marker_none _ t hmarker, feed_of_marker_none _ t hmarker]
    rfl
  | some m =>
    rw [feed_of_marker_some _ t hmarker, feed_of_marker_some _ t hmarker]
    by_cases hkind : t.kind = .name
    · have hresolve : (sem.within names).resolve t.text = sem.resolve t.text := if_pos (h hkind)
      rw [hresolve]
    · rw [if_neg hkind, if_neg hkind]

/-- Only variables that are named in a reading are resolved. -/
theorem ofReading_within (r : Reading) : ofReading (sem.within r.names) r = ofReading sem r := by
  have hfold : ∀ ts : List Token, (∀ t ∈ ts, t ∈ r.tokens) → ∀ e,
      ts.foldlM (feed (sem.within r.names)) e = ts.foldlM (feed sem) e := by
    intro ts
    induction ts with
    | nil =>
      intro _ e
      rfl
    | cons t ts ih =>
      intro hts e
      obtain ⟨ht, hts⟩ := List.forall_mem_cons.1 hts
      have hfeed : feed (sem.within r.names) e t = feed sem e t :=
        feed_within (fun hkind => mem_names.2 ⟨t, ht, hkind, rfl⟩) e
      have hrest := ih hts
      rw [List.foldlM_cons, List.foldlM_cons, hfeed]
      congr 1
      funext e
      exact hrest e
  rw [ofReading_eq, ofReading_eq, hfold r.tokens fun _ h => h]
  rfl

end Within

/-! ## Printed formulas -/

/-- The operand that is left of a compilation is a phrase, if its constants are had back from their
texts. -/
theorem formed_of_compile [Capacity] {source : String} {a : Operand}
    (h : ofReading Semantics.symbolic (Token.lex source) = .ok a) : a.Formed phraseShape := by
  have hclosed := closed_phraseShape
  have hkeeps : (Semantics.symbolic.within (Token.lex source).names).Keeps (Token.lex source)
      (Operand.Formed phraseShape) := {
    number := fun x => Shape.formed_number x
    text := fun t _ _ => .scalar (isScalar_value (.text trivial))
    resolve := by
      intro name v hv
      unfold Semantics.within at hv
      dsimp only at hv
      split at hv
      · rename_i hname
        obtain ⟨t, ht, hkind, rfl⟩ := mem_names.1 hname
        rw [Semantics.eq_of_resolve_symbolic hv]
        exact .scalar (.marker (Token.isName_of_lex ht hkind))
      · cases hv
    binary := fun ha hc hz => hclosed.binary ha hc hz
    function := fun ha hz => hclosed.function ha hz }
  rw [← ofReading_within] at h
  exact hkeeps.result h

namespace Formula

variable {source : String} {f : Formula}

/-- The text of a formula compiles to the sequence of the formula, if every constant is a finite
number or a text of characters that are printable or that a letter behind a backslash stands for. -/
theorem compile_render [Capacity] (hcompile : compile source = .ok f)
    (hpresentable : ∀ e ∈ f.sequence, e.isPresentable = true) :
    compile f.render = .ok { sequence := f.sequence, source := f.render } := by
  obtain ⟨a, ha, hf⟩ := Except.exists_of_bind_eq_ok hcompile
  obtain rfl := Except.ok.inj hf
  have hformed := formed_of_compile ha
  -- the words of the text are a phrase that is compiled to the operand
  obtain ⟨ts, hlex, hts⟩ := Element.lex_render hpresentable fun name hname => hformed.name hname
  obtain ⟨t, hwords, hmeaning⟩ := (hformed.fits hpresentable).listing
  have hread : ofReading Semantics.symbolic ⟨ts, none⟩ = .ok a :=
    (t.ofReading_words Semantics.symbolic (hts.trans hwords.symm)).trans hmeaning
  rw [compile, render, hlex, hread]
  rfl

/-- Negative zero and a text with an apostrophe are had back. -/
theorem compile_render_of_zero :
    ∃ f, compile "0 * -1 * ($x - 'it\\'s') % 2" = .ok f ∧
      f.render = "-0.0 * ($x - \"it's\") % 2.0" ∧
      compile f.render = .ok { sequence := f.sequence, source := f.render } := by
  let f : Formula := ⟨[.constant (.number (-0)) [], .operator (.binary .mul),
    .operator (.bracket .left), .marker "x", .operator (.binary .sub), .constant (.text "it's") [],
    .operator (.bracket .right), .operator (.binary .rem), .constant (.number 2) []],
    "0 * -1 * ($x - 'it\\'s') % 2"⟩
  have hcompile : compile "0 * -1 * ($x - 'it\\'s') % 2" = .ok f := by decide +kernel
  have hpresentable : ∀ e ∈ f.sequence, e.isPresentable = true := by decide +kernel
  exact ⟨f, hcompile, by decide +kernel, compile_render hcompile hpresentable⟩

end Formula

end Reckon
