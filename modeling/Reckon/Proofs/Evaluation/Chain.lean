import Reckon.Proofs.Evaluation.Lockstep
import Reckon.Proofs.Evaluation.Phrase
import Reckon.Proofs.Operator.Plain

/-!
# Chain — a list and the brackets within it

Brackets around a part of a list make that part a list of its own, which becomes a member of the
whole.  The comma takes the members of a list one by one, so nothing is left of the brackets:

* `Phrase.Chain` — the ways of putting brackets around sub-chains of a list of expressions;
* `Phrase.Gathers` — operands that are taken apart into members, which the comma puts together;
* `Phrase.Chain.agree` — however the brackets are put, the first error of the expressions is the
  error of the list, or else the members of the list are those of the expressions;
* `Phrase.Spells` — the source texts of a phrase, and what they evaluate to.
-/

namespace Reckon
namespace Phrase

open Evaluation

variable {α π : Type}

/-! ## Bracketing -/

/-- A list in brackets as an expression. -/
def enclosed (t : Phrase .listing) : Phrase .sum :=
  .term (.factor (.atom (.group t)))

/-- A function called with a list, as a list of one member. -/
def called (f : Function) (spelling : String)
    (spells : Operator.lookup? spelling = some (.function f)) (t : Phrase .listing) :
    Phrase .listing :=
  .single (.term (.factor (.atom (.call f spelling spells t))))

/-- The list is made of the expressions, in their order, with brackets around any of its sub-chains
of at least two members; brackets may stand within each other and around the whole. -/
inductive Chain : List (Phrase .sum) → Phrase .listing → Prop where
  | single (e : Phrase .sum) : Chain [e] (.single e)
  | enclosed {es : List (Phrase .sum)} {t : Phrase .listing} : 2 ≤ es.length → Chain es t →
    Chain es (.single t.enclosed)
  | join {es : List (Phrase .sum)} {t : Phrase .listing} (e : Phrase .sum) : Chain es t →
    Chain (es ++ [e]) (.join t e)
  | joinEnclosed {es es' : List (Phrase .sum)} {t t' : Phrase .listing} : Chain es t →
    2 ≤ es'.length → Chain es' t' → Chain (es ++ es') (.join t t'.enclosed)

/-- The operands that expressions mean, from left to right, up to the first error. -/
def meanings (sem : Semantics α) (es : List (Phrase .sum)) : Except Error (List α) :=
  es.mapM fun e => e.meaning sem

theorem meanings_append (sem : Semantics α) (es es' : List (Phrase .sum)) :
    meanings sem (es ++ es') =
      meanings sem es >>= fun xs => meanings sem es' >>= fun ys => .ok (xs ++ ys) :=
  List.mapM_append

/-! ## Members -/

/-- Operands that are taken apart into members: the comma never fails, and it puts members behind
members; lists with the same members are the same. -/
structure Gathers (sem : Semantics α) (P : α → Prop) (parts : α → List π) (IsList : α → Prop)
    (Same : α → α → Prop) : Prop where
  meaning : ∀ (t : Phrase .listing) v, t.meaning sem = .ok v → P v
  comma : ∀ a c, P a → P c →
    ∃ z, sem.binary .comma a c = .ok z ∧ IsList z ∧ parts z = parts a ++ parts c
  same : ∀ z z', IsList z → IsList z' → parts z = parts z' → Same z z'

/-- A property that an evaluation keeps holds of what phrases mean. -/
theorem holds_of_meaning {sem : Semantics α} {P : α → Prop} (h : ∀ r, sem.Keeps r P)
    (t : Phrase .listing) (v : α) (hv : t.meaning sem = .ok v) : P v := by
  have hread := t.ofReading_words sem (t.map_word_tokens fun _ => 0)
  exact (h _).result (hread.trans hv)

section

variable {sem : Semantics α} {P : α → Prop} {parts : α → List π} {IsList : α → Prop}
  {Same : α → α → Prop} {es es' : List (Phrase .sum)} {t t' : Phrase .listing}

theorem Gathers.join (hg : Gathers sem P parts IsList Same) {s : Phrase .sum}
    (ht : (t.meaning sem).map parts = (meanings sem es).map (·.flatMap parts))
    (hs : (s.meaning sem).map parts = (meanings sem es').map (·.flatMap parts)) :
    ((Phrase.join t s).meaning sem).map parts =
      (meanings sem (es ++ es')).map (·.flatMap parts) := by
  have hjoin : (Phrase.join t s).meaning sem =
      combine sem.toReducer .comma (t.meaning sem) (s.meaning sem) := rfl
  rw [hjoin, meanings_append]
  -- an error on the left comes before one on the right, on both sides of the equation
  rcases Except.cases_of_map_eq ht with ⟨e, hv, hxs⟩ | ⟨v, xs, hv, hxs, hparts⟩
  · rw [hv, hxs]
    rfl
  · rcases Except.cases_of_map_eq hs with ⟨e, hw, hys⟩ | ⟨w, ys, hw, hys, hparts'⟩
    · rw [hv, hxs, hw, hys]
      rfl
    · obtain ⟨z, hz, _, hzparts⟩ :=
        hg.comma v w (hg.meaning t v hv) (hg.meaning (.single s) w hw)
      rw [hv, hxs, hw, hys]
      simp only [combine, Except.bind_ok, hz]
      change Except.ok (parts z) = Except.ok ((xs ++ ys).flatMap parts)
      rw [hzparts, hparts, hparts', List.flatMap_append]

/-- The members of a list are those of its expressions, wherever brackets are put. -/
theorem Chain.map_parts (hg : Gathers sem P parts IsList Same) (h : Chain es t) :
    (t.meaning sem).map parts = (meanings sem es).map (·.flatMap parts) := by
  have hsingle : ∀ e : Phrase .sum,
      (e.meaning sem).map parts = (meanings sem [e]).map (·.flatMap parts) := by
    intro e
    simp only [meanings, List.mapM_cons, List.mapM_nil]
    cases e.meaning sem with
    | error e =>
      rfl
    | ok v =>
      change Except.ok (parts v) = Except.ok ([v].flatMap parts)
      rw [List.flatMap_singleton]
  induction h with
  | single e =>
    exact hsingle e
  | enclosed _ _ ih =>
    exact ih
  | join e _ ih =>
    exact hg.join ih (hsingle e)
  | joinEnclosed _ _ _ ih ih' =>
    exact hg.join ih ih'

theorem Gathers.isList_join (hg : Gathers sem P parts IsList Same) {s : Phrase .sum} {z : α}
    (hz : (Phrase.join t s).meaning sem = .ok z) : IsList z := by
  obtain ⟨v, hv, hz⟩ := Except.exists_of_bind_eq_ok hz
  obtain ⟨w, hw, hz⟩ := Except.exists_of_bind_eq_ok hz
  obtain ⟨u, hu, hlist, _⟩ := hg.comma v w (hg.meaning t v hv) (hg.meaning (.single s) w hw)
  obtain rfl := Except.ok.inj (hu.symm.trans hz)
  exact hlist

/-- What two expressions or more make is a list. -/
theorem Chain.isList (hg : Gathers sem P parts IsList Same) (h : Chain es t)
    (hlength : 2 ≤ es.length) {z : α} (hz : t.meaning sem = .ok z) : IsList z := by
  induction h with
  | single e =>
    simp at hlength
  | enclosed _ _ ih =>
    exact ih hlength hz
  | join e _ _ =>
    exact hg.isList_join hz
  | joinEnclosed _ _ _ _ _ =>
    exact hg.isList_join hz

/-- Two ways of putting brackets lead to the same error or to the same list. -/
theorem Chain.agree (hg : Gathers sem P parts IsList Same) (h : Chain es t) (h' : Chain es t')
    (hlength : 2 ≤ es.length) :
    (∃ e, t.meaning sem = .error e ∧ t'.meaning sem = .error e) ∨
      ∃ z z', t.meaning sem = .ok z ∧ t'.meaning sem = .ok z' ∧ IsList z ∧ Same z z' := by
  have hparts : (t.meaning sem).map parts = (t'.meaning sem).map parts :=
    (h.map_parts hg).trans (h'.map_parts hg).symm
  rcases Except.cases_of_map_eq hparts with herror | ⟨z, z', hz, hz', hparts⟩
  · exact Or.inl herror
  · have hlist : IsList z := h.isList hg hlength hz
    have hlist' : IsList z' := h'.isList hg hlength hz'
    exact Or.inr ⟨z, z', hz, hz', hlist, hg.same z z' hlist hlist' hparts⟩

end

/-! ## Values -/

/-- Values are gathered in flat lists. -/
theorem gathers_direct [Capacity] (missing : String → Error) (b : Bindings) :
    Gathers (Semantics.direct missing b) (fun _ => True) Value.members
      (fun v => ∃ vs, v = .list vs) (· = ·) where
  meaning _ _ _ := trivial
  comma v w _ _ := ⟨_, Binary.execute_comma v w, ⟨_, rfl⟩, rfl⟩
  same := by
    rintro _ _ ⟨vs, rfl⟩ ⟨ws, rfl⟩ hparts
    exact congrArg Value.list hparts

/-! ## Source texts -/

/-- A source text is read to its end, and its words are those of a phrase. -/
structure Spells (source : String) (t : Phrase .listing) : Prop where
  complete : (Token.lex source).failure = none
  words : (Token.lex source).tokens.map Token.word = t.words

theorem Spells.ofReading {source : String} {t : Phrase .listing} (h : Spells source t)
    (sem : Semantics α) : ofReading sem (Token.lex source) = t.meaning sem := by
  have hlex : Token.lex source = ⟨(Token.lex source).tokens, none⟩ := by
    rw [← h.complete]
  rw [hlex, t.ofReading_words sem h.words]

theorem Spells.evaluate [Capacity] {source : String} {t : Phrase .listing} (h : Spells source t)
    (b : Bindings) : evaluate source b = t.meaning (Semantics.direct .unknownVariable b) :=
  h.ofReading _

/-- An expression with a function takes its errors from the argument first. -/
theorem meaning_called (sem : Semantics α) (f : Function) (spelling : String)
    (spells : Operator.lookup? spelling = some (.function f)) (t : Phrase .listing) :
    (called f spelling spells t).meaning sem = t.meaning sem >>= sem.function f := rfl

end Phrase
end Reckon
