import Reckon.Formula
import Reckon.Proofs.Evaluation.Phrase
import Reckon.Proofs.Machine.Barrier
import Reckon.Proofs.Token.Extent

/-!
# Bracket — an expression in brackets stands for its value

Tokens that have a value by themselves can be put in brackets anywhere in a reading: the machine
then comes to the state in which the value has been pushed, and a function in front of the bracket
has been called with it.  What lies on the stacks already has no part in this.

* `Evaluation.foldlM_feed_within` — reading behind a left bracket is reading from the start;
* `Evaluation.ofReading_of_words` — a value depends on the words alone, not on their positions;
* `Evaluation.bracketed_acts_as_value` — the main statement, and what it means for source texts.
-/

namespace Reckon
namespace Evaluation

open Machine Phrase Token

variable {α : Type}

/-! ## Behind a left bracket -/

/-- An evaluation of what stands in a bracket, on top of the state in front of the bracket. -/
def within (e : Evaluation α) (outer : State α) : Evaluation α :=
  { e with state := e.state.within outer }

theorem feed_within {sem : Semantics α} {e f : Evaluation α} {t : Token}
    (h : feed sem e t = .ok f) (outer : State α) :
    feed sem (e.within outer) t = .ok (f.within outer) := by
  apply Takes.feed
  cases takes_of_feed h with
  | name hmarker hkind hresolve =>
    exact .name hmarker hkind hresolve
  | number hmarker hrole hvalue =>
    exact .number hmarker hrole hvalue
  | text hmarker hrole =>
    exact .text hmarker hrole
  | marker hmarker hrole =>
    exact .marker hmarker hrole
  | minus hmarker hrole hawaits =>
    exact .minus hmarker hrole hawaits
  | operator hmarker hrole hminus hadvance =>
    exact .operator hmarker hrole hminus (advance_within hadvance outer)

/-- Tokens that are read from the start are read behind a left bracket. -/
theorem foldlM_feed_within {sem : Semantics α} {e f : Evaluation α} {ts : List Token}
    (h : ts.foldlM (feed sem) e = .ok f) (outer : State α) :
    ts.foldlM (feed sem) (e.within outer) = .ok (f.within outer) := by
  induction ts generalizing e with
  | nil =>
    cases h
    rfl
  | cons t ts ih =>
    rw [List.foldlM_cons] at h ⊢
    obtain ⟨e', hfeed, h⟩ := Except.exists_of_bind_eq_ok h
    rw [feed_within hfeed outer]
    exact ih h

/-! ## Words -/

/-- Evaluations that differ in nothing but the place of a marker. -/
structure Alike (e f : Evaluation α) : Prop where
  state : e.state = f.state
  awaitsOperand : e.awaitsOperand = f.awaitsOperand
  marker : e.marker.isSome = f.marker.isSome

theorem Alike.of_marker_none {e f : Evaluation α} (h : Alike e f) (he : e.marker = none) :
    e = f := by
  obtain ⟨s, awaits, m⟩ := e
  obtain ⟨s', awaits', m'⟩ := f
  obtain ⟨rfl, rfl, hmarker⟩ := h
  cases he
  cases m' with
  | none =>
    rfl
  | some m' =>
    cases hmarker

theorem role_of_word {t u : Token} (h : t.word = u.word) : role t = role u := by
  obtain ⟨kind, text, position⟩ := t
  obtain ⟨kind', text', position'⟩ := u
  obtain ⟨rfl, rfl⟩ := Prod.mk.inj h
  rfl

theorem Alike.refl (e : Evaluation α) : Alike e e := ⟨rfl, rfl, rfl⟩

/-- A token can be replaced by one with the same word. -/
theorem exists_feed_of_word {sem : Semantics α} {e e' f : Evaluation α} {t u : Token}
    (h : feed sem e t = .ok e') (halike : Alike e f) (hword : t.word = u.word) :
    ∃ f', feed sem f u = .ok f' ∧ Alike e' f' := by
  obtain ⟨hkind, htext⟩ := Prod.mk.inj hword
  have hrole : role t = role u := role_of_word hword
  cases takes_of_feed h with
  | @name m v hmarker hname hresolve =>
    have hsome : f.marker.isSome = true := by
      rw [← halike.marker, hmarker]
      rfl
    obtain ⟨m', hmarker'⟩ := Option.isSome_iff_exists.1 hsome
    refine ⟨f.withOperand v, Takes.feed (.name hmarker' (hkind ▸ hname) (htext ▸ hresolve)), ?_⟩
    exact ⟨congrArg (State.withOperand · v) halike.state, rfl, rfl⟩
  | number hmarker hnumber hvalue =>
    obtain rfl := halike.of_marker_none hmarker
    exact ⟨_, Takes.feed (.number hmarker (hrole ▸ hnumber) (htext ▸ hvalue)), .refl _⟩
  | text hmarker htextual =>
    obtain rfl := halike.of_marker_none hmarker
    exact ⟨_, htext ▸ Takes.feed (.text hmarker (hrole ▸ htextual)), .refl _⟩
  | marker hmarker hmark =>
    obtain rfl := halike.of_marker_none hmarker
    exact ⟨_, Takes.feed (.marker hmarker (hrole ▸ hmark)), rfl, rfl, rfl⟩
  | minus hmarker hop hawaits =>
    obtain rfl := halike.of_marker_none hmarker
    exact ⟨_, Takes.feed (.minus hmarker (hrole ▸ hop) hawaits), .refl _⟩
  | operator hmarker hop hminus hadvance =>
    obtain rfl := halike.of_marker_none hmarker
    exact ⟨_, Takes.feed (.operator hmarker (hrole ▸ hop) hminus hadvance), .refl _⟩

theorem exists_foldlM_feed_of_words {sem : Semantics α} {e e' f : Evaluation α}
    {ts us : List Token} (h : ts.foldlM (feed sem) e = .ok e') (halike : Alike e f)
    (hwords : us.map word = ts.map word) :
    ∃ f', us.foldlM (feed sem) f = .ok f' ∧ Alike e' f' := by
  induction ts generalizing e f us with
  | nil =>
    cases h
    rw [List.map_eq_nil_iff.1 hwords]
    exact ⟨f, rfl, halike⟩
  | cons t ts ih =>
    obtain ⟨u, us, rfl, hword, hwords⟩ := List.map_eq_cons_iff.1 hwords
    rw [List.foldlM_cons] at h
    obtain ⟨e₁, hfeed, h⟩ := Except.exists_of_bind_eq_ok h
    obtain ⟨f₁, hfeed', halike⟩ := exists_feed_of_word hfeed halike hword.symm
    rw [List.foldlM_cons, hfeed']
    exact ih h halike hwords

/-- What a reading with a value has come to before its end. -/
theorem exists_of_ofReading {sem : Semantics α} {ts : List Token} {v : α}
    (h : ofReading sem ⟨ts, none⟩ = .ok v) :
    ∃ e, ts.foldlM (feed sem) start = .ok e ∧ e.marker = none ∧
      (settle sem.toReducer Operator.executable e.state >>= final) = .ok v := by
  rw [ofReading_eq] at h
  obtain ⟨e, hfold, hend⟩ := Except.exists_of_bind_eq_ok h
  dsimp only at hend
  cases hmarker : e.marker with
  | some m =>
    rw [conclude_of_marker_some sem hmarker] at hend
    cases hend
  | none =>
    rw [conclude_of_marker_none sem hmarker] at hend
    exact ⟨e, hfold, hmarker, hend⟩

/-- Where the words stand has no part in their value. -/
theorem ofReading_of_words {sem : Semantics α} {ts us : List Token} {v : α}
    (h : ofReading sem ⟨ts, none⟩ = .ok v) (hwords : us.map word = ts.map word) :
    ofReading sem ⟨us, none⟩ = .ok v := by
  obtain ⟨e, hfold, hmarker, hend⟩ := exists_of_ofReading h
  obtain ⟨f, hfold', halike⟩ := exists_foldlM_feed_of_words hfold ⟨rfl, rfl, rfl⟩ hwords
  obtain rfl := halike.of_marker_none hmarker
  rw [ofReading_eq]
  dsimp only
  rw [hfold', Except.bind_ok, conclude_of_marker_none sem hmarker]
  exact hend

/-! ## Both brackets -/

theorem feed_bracket (sem : Semantics α) (side : Bracket) {e : Evaluation α} {t : Token}
    (he : e.marker = none) (ht : t.word = (.symbol, (Operator.bracket side).spelling)) :
    feed sem e t =
      advance sem.toReducer (.bracket side) e.state >>= fun s =>
        .ok ⟨s, opensOperand (.bracket side), none⟩ := by
  have hrole : role t = .operator (.bracket side) := role_of_word_symbol ht rfl
  obtain ⟨s, awaits, m⟩ := e
  cases he
  rw [feed_of_marker_none sem t rfl, feedPlain_eq, hrole]
  exact feedOperator_eq_advance _ _ _ (by simp [Operator.minus])

/-- Tokens with a value, put in brackets, push the value and call the function that waits for it. -/
theorem foldlM_feed_bracketed {sem : Semantics α} {ts : List Token} {v : α}
    (h : ofReading sem ⟨ts, none⟩ = .ok v) {l r : Token} (hl : l.word = leftBracket)
    (hr : r.word = rightBracket) {e : Evaluation α} (he : e.marker = none) :
    (l :: ts ++ [r]).foldlM (feed sem) e =
      ((pushOperand v >>= fun _ => callWaiting sem.toReducer).run e.state).map
        fun p => ⟨p.2, false, none⟩ := by
  -- what the tokens come to by themselves, they come to on top of the left bracket
  obtain ⟨f, hfold, hmarker, hend⟩ := exists_of_ofReading h
  have hopen : feed sem e l = .ok (start.within e.state) := feed_bracket sem .left he hl
  have hclose : feed sem (f.within e.state) r =
      outcome ((pushOperand v >>= fun _ => callWaiting sem.toReducer) e.state) >>= fun s =>
        .ok ⟨s, false, none⟩ := by
    rw [← advance_right_within hend e.state]
    exact feed_bracket sem .right hmarker hr
  rw [List.cons_append, List.foldlM_cons, hopen, Except.bind_ok, List.foldlM_append,
    foldlM_feed_within hfold e.state, Except.bind_ok, List.foldlM_cons, hclose, run_eq_outcome]
  cases outcome ((pushOperand v >>= fun _ => callWaiting sem.toReducer) e.state) <;> rfl

/-! ## Source texts -/

/-- The words of a source text in brackets. -/
theorem spells_bracketed {source : String} {ts : List Token} (h : lex source = ⟨ts, none⟩) :
    Spells ("(" ++ source ++ ")").toList (leftBracket :: ts.map word ++ [rightBracket]) := by
  have hinner : Spells source.toList ((lex source).tokens.map word) :=
    spells_of_lexFrom (congrArg Reading.failure h)
  have hclosing : Spells [')'] [rightBracket] := spells_nil.symbol (by decide)
  have hlist : ("(" ++ source ++ ")").toList = '(' :: (source.toList ++ [')']) := by
    simp
  rw [h] at hinner
  rw [hlist]
  exact (hinner.append hclosing (by decide)).symbol (by decide)

theorem ofReading_lex_bracketed {sem : Semantics α} {source : String} {v : α}
    (h : ofReading sem (lex source) = .ok v) :
    ofReading sem (lex ("(" ++ source ++ ")")) = .ok v := by
  cases hlex : lex source with
  | mk ts failure =>
    cases failure with
    | some e =>
      -- an error behind the tokens leaves no value
      rw [hlex, ofReading_eq] at h
      obtain ⟨_, _, hend⟩ := Except.exists_of_bind_eq_ok h
      cases hend
    | none =>
      rw [hlex] at h
      -- the tokens between the brackets stand elsewhere now, but their words are the same
      obtain ⟨us, hus, hwords⟩ := (spells_bracketed hlex).lex
      obtain ⟨l, rest, rfl, hl, hrest⟩ := List.map_eq_cons_iff.1 hwords
      obtain ⟨inner, closing, rfl, hinner, hclosing⟩ := List.map_eq_append_iff.1 hrest
      obtain ⟨r, rfl, hr⟩ := List.map_eq_singleton_iff.1 hclosing
      have hfold := foldlM_feed_bracketed (ofReading_of_words h hinner) hl hr (e := start) rfl
      rw [hus, ofReading_eq]
      dsimp only
      rw [← List.cons_append, hfold]
      rfl

/-- An expression in brackets acts as its value wherever a token may stand that is not the name of a
variable: on every state, reading it pushes the value and calls the function that waits for it.  So
a source text in brackets has the value, and the formula, of the source text. -/
theorem bracketed_acts_as_value [Capacity] :
    (∀ {α : Type} (sem : Semantics α) (ts : List Token) (v : α),
      ofReading sem ⟨ts, none⟩ = .ok v →
        ∀ (e : Evaluation α) (l r : Token), e.marker = none → l.word = leftBracket →
          r.word = rightBracket →
            (l :: ts ++ [r]).foldlM (feed sem) e =
              ((pushOperand v >>= fun _ => callWaiting sem.toReducer).run e.state).map
                fun p => ⟨p.2, false, none⟩) ∧
      (∀ (source : String) (b : Bindings) (v : Value), evaluate source b = .ok v →
        evaluate ("(" ++ source ++ ")") b = .ok v) ∧
      ∀ (source : String) (f : Formula), Formula.compile source = .ok f →
        Formula.compile ("(" ++ source ++ ")") = .ok ⟨f.sequence, "(" ++ source ++ ")"⟩ := by
  refine ⟨?_, ?_, ?_⟩
  · intro α sem ts v h e l r he hl hr
    exact foldlM_feed_bracketed h hl hr he
  · intro source b v h
    exact ofReading_lex_bracketed h
  · intro source f h
    obtain ⟨operand, hreading, h⟩ := Except.exists_of_bind_eq_ok h
    cases h
    unfold Formula.compile
    rw [ofReading_lex_bracketed hreading]
    rfl

/-- A product in brackets behind a minus sign, by itself, and in a formula. -/
theorem bracketed_acts_as_value_of_product :
    ∃ (e : Evaluation Value) (l r : Token) (f : Formula),
      e.state = ⟨[.number 1], [.opposite, .binary .add]⟩ ∧
        (l :: (lex "2 * 3").tokens ++ [r]).foldlM (feed (Semantics.direct .unknownVariable [])) e =
          ((pushOperand (.number 6) >>= fun _ => callWaiting Semantics.concrete).run e.state).map
            (fun p => ⟨p.2, false, none⟩) ∧
        evaluate ("(" ++ "2 * 3" ++ ")") [] = .ok (.number 6) ∧
        Formula.compile "2 * $x" = .ok f ∧
        Formula.compile ("(" ++ "2 * $x" ++ ")") = .ok ⟨f.sequence, "(" ++ "2 * $x" ++ ")"⟩ := by
  have hvalue : evaluate "2 * 3" [] = .ok (.number 6) :=
    Except.toOption_eq_some.1 (by decide +kernel)
  let f : Formula :=
    ⟨[.constant (.number 2) [], .operator (.binary .mul), .marker "x"], "2 * $x"⟩
  have hcompile : Formula.compile "2 * $x" = .ok f := by
    decide +kernel
  obtain ⟨honState, hevaluate, hformula⟩ := bracketed_acts_as_value
  refine ⟨⟨⟨[.number 1], [.opposite, .binary .add]⟩, true, none⟩, ⟨.symbol, "(", 3⟩,
    ⟨.symbol, ")", 9⟩, f, rfl, ?_, hevaluate _ _ _ hvalue, hcompile, hformula _ _ hcompile⟩
  have hlex : lex "2 * 3" = ⟨(lex "2 * 3").tokens, none⟩ := by
    decide +kernel
  exact honState _ _ _ (hlex ▸ hvalue) _ _ _ rfl rfl rfl

end Evaluation
end Reckon
