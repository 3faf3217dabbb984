import Reckon.Proofs.Double.Zero
import Reckon.Proofs.Evaluation.Lockstep
import Reckon.Proofs.Formula.Shape

/-!
# Sameness — operands that a compilation takes for the same

A compilation takes two operations for the same if their sequences agree, and constants agree if
they are equal as numbers.  So a zero agrees with the zero of the other sign, and nothing else
differs:

* `Value.unsigned`, `Value.zeros` — a value without the signs of its zeros, and the zeros
  themselves;
* `Formula.merges_alike` — the sequences of merged operands are the same up to the signs of zeros,
  and where these are the same as well, the operands replay identically;
* `Formula.merges_opposite_zeros` — the signs of zeros can be told apart by a replay.
-/

namespace Reckon

open Operand

/-! ## The signs of zeros -/

namespace Value

mutual

/-- A value with a positive zero for every zero. -/
def unsigned : Value → Value
  | .number x => .number (if Double.IsZero x then 0 else x)
  | .list vs => .list (unsignedMembers vs)
  | v => v

def unsignedMembers : List Value → List Value
  | [] => []
  | v :: vs => v.unsigned :: unsignedMembers vs

end

mutual

/-- The zeros in a value from left to right, with their signs. -/
def zeros : Value → List Float
  | .number x => if Double.IsZero x then [x] else []
  | .list vs => memberZeros vs
  | _ => []

def memberZeros : List Value → List Float
  | [] => []
  | v :: vs => v.zeros ++ memberZeros vs

end

theorem isZero_iff_of_unsigned {x y : Float}
    (h : (if Double.IsZero x then 0 else x) = if Double.IsZero y then 0 else y) :
    Double.IsZero x ↔ Double.IsZero y := by
  rcases Double.eq_or_zeros_of_unsigned h with rfl | ⟨hx, hy⟩
  · exact Iff.rfl
  · exact iff_of_true hx hy

mutual

theorem length_zeros : (v w : Value) → v.unsigned = w.unsigned → v.zeros.length = w.zeros.length
  | .number x, .number y, h => by
    have hiff := isZero_iff_of_unsigned (number.inj h)
    by_cases hx : Double.IsZero x
    · simp [zeros, hx, hiff.1 hx]
    · have hy : ¬Double.IsZero y := fun hy => hx (hiff.2 hy)
      simp [zeros, hx, hy]
  | .list vs, .list ws, h => length_memberZeros vs ws (list.inj h)
  | .text _, .text _, _ | .stray _, .stray _, _ => rfl
  | .number _, .text _, h | .number _, .list _, h | .number _, .stray _, h => nomatch h
  | .text _, .number _, h | .text _, .list _, h | .text _, .stray _, h => nomatch h
  | .list _, .number _, h | .list _, .text _, h | .list _, .stray _, h => nomatch h
  | .stray _, .number _, h | .stray _, .text _, h | .stray _, .list _, h => nomatch h

theorem length_memberZeros : (vs ws : List Value) → unsignedMembers vs = unsignedMembers ws →
    (memberZeros vs).length = (memberZeros ws).length
  | [], [], _ => rfl
  | [], _ :: _, h | _ :: _, [], h => nomatch h
  | v :: vs, w :: ws, h => by
    obtain ⟨hv, hvs⟩ := List.cons.inj h
    rw [memberZeros, memberZeros, List.length_append, List.length_append, length_zeros v w hv,
      length_memberZeros vs ws hvs]

end

mutual

/-- A value is known by its zeros and by what it is without their signs. -/
theorem eq_of_unsigned : (v w : Value) → v.unsigned = w.unsigned → v.zeros = w.zeros → v = w
  | .number x, .number y, h, hzeros => by
    have hunsigned := number.inj h
    have hiff := isZero_iff_of_unsigned hunsigned
    by_cases hx : Double.IsZero x
    · simp only [zeros, if_pos hx, if_pos (hiff.1 hx)] at hzeros
      rw [List.cons.inj hzeros |>.1]
    · rw [if_neg hx, if_neg fun hy => hx (hiff.2 hy)] at hunsigned
      rw [hunsigned]
  | .list vs, .list ws, h, hzeros =>
    congrArg list (eq_of_unsignedMembers vs ws (list.inj h) hzeros)
  | .text _, .text _, h, _ => h
  | .stray _, .stray _, h, _ => h
  | .number _, .text _, h, _ | .number _, .list _, h, _ | .number _, .stray _, h, _ => nomatch h
  | .text _, .number _, h, _ | .text _, .list _, h, _ | .text _, .stray _, h, _ => nomatch h
  | .list _, .number _, h, _ | .list _, .text _, h, _ | .list _, .stray _, h, _ => nomatch h
  | .stray _, .number _, h, _ | .stray _, .text _, h, _ | .stray _, .list _, h, _ => nomatch h

theorem eq_of_unsignedMembers : (vs ws : List Value) → unsignedMembers vs = unsignedMembers ws →
    memberZeros vs = memberZeros ws → vs = ws
  | [], [], _, _ => rfl
  | [], _ :: _, h, _ | _ :: _, [], h, _ => nomatch h
  | v :: vs, w :: ws, h, hzeros => by
    obtain ⟨hv, hvs⟩ := List.cons.inj h
    obtain ⟨hfirst, hrest⟩ := List.append_inj hzeros (length_zeros v w hv)
    rw [eq_of_unsigned v w hv hfirst, eq_of_unsignedMembers vs ws hvs hrest]

end

/-! ## Agreement -/

variable {P : CodeText → Prop}

/-- Texts and lists are no integers. -/
theorem sameInteger_eq_false {v w : Value} (h : w.integer? = none) : v.sameInteger w = false := by
  unfold sameInteger
  rw [h]
  cases v.integer? <;> rfl

theorem unsigned_of_agrees_number {x y : Float} (h : (number x).agrees (.number y) = true) :
    (number x).unsigned = (number y).unsigned := by
  simp only [agrees, Bool.or_eq_true, Bool.and_eq_true] at h
  rcases h with heq | ⟨hx, hy⟩
  · -- numbers that are equal but not the same are the two zeros
    rcases Double.eq_or_zeros_of_beq heq with rfl | ⟨hx, hy⟩
    · rfl
    · simp [unsigned, hx, hy]
  · rw [Double.eq_of_isNaN hx hy]

theorem unsigned_of_agrees_scalar {v w : Value} (hv : v.IsScalar P) (hw : w.IsScalar P)
    (h : v.agrees w = true) : v.unsigned = w.unsigned := by
  cases hv with
  | number x =>
    cases hw with
    | number y =>
      exact unsigned_of_agrees_number h
    | @text s hs =>
      have hfalse : (number x).agrees (.text s) = false := sameInteger_eq_false rfl
      rw [hfalse] at h
      cases h
  | @text s hs =>
    cases hw with
    | number y =>
      have hfalse : (Value.text s).agrees (.number y) = false := rfl
      rw [hfalse] at h
      cases h
    | text ht =>
      rw [agrees_text] at h
      rw [h]

theorem unsigned_of_membersAgree {vs ws : List Value} (hvs : ∀ v ∈ vs, v.IsScalar P)
    (hws : ∀ w ∈ ws, w.IsScalar P) (h : membersAgree vs ws = true) :
    unsignedMembers vs = unsignedMembers ws := by
  induction vs generalizing ws with
  | nil =>
    cases ws with
    | nil =>
      rfl
    | cons w ws =>
      cases h
  | cons v vs ih =>
    cases ws with
    | nil =>
      cases h
    | cons w ws =>
      rw [membersAgree, Bool.and_eq_true] at h
      have hfirst := unsigned_of_agrees_scalar (hvs v (by simp)) (hws w (by simp)) h.1
      have hrest := ih (fun u hu => hvs u (List.mem_cons_of_mem v hu))
        (fun u hu => hws u (List.mem_cons_of_mem w hu)) h.2
      rw [unsignedMembers, unsignedMembers, hfirst, hrest]

/-- Plain values that agree differ in the signs of zeros only. -/
theorem unsigned_of_agrees {v w : Value} (hv : v.IsPlain P) (hw : w.IsPlain P)
    (h : v.agrees w = true) : v.unsigned = w.unsigned := by
  cases hv with
  | scalar hv =>
    cases hw with
    | scalar hw =>
      exact unsigned_of_agrees_scalar hv hw h
    | @list ws _ hws =>
      have hfalse : v.agrees (.list ws) = false := by
        cases hv <;> exact sameInteger_eq_false rfl
      rw [hfalse] at h
      cases h
  | @list vs _ hvs =>
    cases hw with
    | scalar hw =>
      have hfalse : (Value.list vs).agrees w = false := by
        cases hw <;> rfl
      rw [hfalse] at h
      cases h
    | list _ hws =>
      rw [agrees] at h
      rw [unsigned, unsigned, unsigned_of_membersAgree hvs hws h]

end Value

namespace Element

/-- An element without marks. -/
def unmarked : Element → Element
  | .constant v _ => .constant v []
  | e => e

/-- An element without marks and without the signs of zeros. -/
def unsigned : Element → Element
  | .constant v _ => .constant v.unsigned []
  | e => e

/-- The zeros in a sequence from left to right, with their signs. -/
def zeros : List Element → List Float
  | [] => []
  | .constant v _ :: es => v.zeros ++ zeros es
  | _ :: es => zeros es

/-- Constants that are plain. -/
def IsPlain (e : Element) : Prop :=
  ∀ v marks, e = .constant v marks → v.IsPlain fun _ => True

theorem zeros_map_unmarked (es : List Element) : zeros (es.map unmarked) = zeros es := by
  induction es with
  | nil =>
    rfl
  | cons e es ih =>
    cases e <;> simp [zeros, unmarked, ih]

theorem unsigned_of_agrees {e e' : Element} (he : e.IsPlain) (he' : e'.IsPlain)
    (h : e.agrees e' = true) : e.unsigned = e'.unsigned := by
  unfold agrees at h
  split at h
  · rw [decide_eq_true_eq] at h
    rw [h]
  · rename_i v ms w ns
    rw [Bool.and_eq_true] at h
    have hvalue := Value.unsigned_of_agrees (he v ms rfl) (he' w ns rfl) h.1
    simp only [unsigned, hvalue]
  · rw [decide_eq_true_eq] at h
    rw [h]
  · cases h

theorem unsigned_of_sequencesAgree {es es' : List Element} (hes : ∀ e ∈ es, e.IsPlain)
    (hes' : ∀ e ∈ es', e.IsPlain) (h : sequencesAgree es es' = true) :
    es.map unsigned = es'.map unsigned := by
  induction es generalizing es' with
  | nil =>
    cases es' with
    | nil =>
      rfl
    | cons e' es' =>
      cases h
  | cons e es ih =>
    cases es' with
    | nil =>
      cases h
    | cons e' es' =>
      rw [sequencesAgree, Bool.and_eq_true] at h
      rw [List.map_cons, List.map_cons,
        unsigned_of_agrees (hes e (by simp)) (hes' e' (by simp)) h.1,
        ih (fun f hf => hes f (List.mem_cons_of_mem e hf))
          (fun f hf => hes' f (List.mem_cons_of_mem e' hf)) h.2]

theorem zeros_cons (e : Element) (es : List Element) : zeros (e :: es) = zeros [e] ++ zeros es := by
  cases e <;> simp [zeros]

/-- Elements that differ in the signs of zeros only have equally many zeros, and are the same if
these are. -/
theorem unmarked_of_unsigned_single {e e' : Element} (h : e.unsigned = e'.unsigned) :
    (zeros [e]).length = (zeros [e']).length ∧
      (zeros [e] = zeros [e'] → e.unmarked = e'.unmarked) := by
  cases e with
  | operator op =>
    cases e' <;> cases h
    exact ⟨rfl, fun _ => rfl⟩
  | marker name =>
    cases e' <;> cases h
    exact ⟨rfl, fun _ => rfl⟩
  | constant v ms =>
    cases e' with
    | operator op =>
      cases h
    | marker name =>
      cases h
    | constant w ns =>
      simp only [unsigned, constant.injEq, and_true] at h
      have hlength := Value.length_zeros v w h
      simp only [zeros, List.append_nil]
      refine ⟨hlength, ?_⟩
      intro hzeros
      rw [Value.eq_of_unsigned v w h hzeros]
      rfl

/-- A sequence is known by its zeros and by what it is without their signs. -/
theorem unmarked_of_unsigned {es es' : List Element} (h : es.map unsigned = es'.map unsigned)
    (hzeros : zeros es = zeros es') : es.map unmarked = es'.map unmarked := by
  induction es generalizing es' with
  | nil =>
    cases es' with
    | nil =>
      rfl
    | cons e' es' =>
      cases h
  | cons e es ih =>
    cases es' with
    | nil =>
      cases h
    | cons e' es' =>
      obtain ⟨hfirst, hrest⟩ := List.cons.inj h
      obtain ⟨hlength, hsame⟩ := unmarked_of_unsigned_single hfirst
      -- the zeros of the first elements are equally many, so the lists of zeros can be cut there
      rw [zeros_cons e, zeros_cons e'] at hzeros
      obtain ⟨hfirst, hothers⟩ := List.append_inj hzeros hlength
      rw [List.map_cons, List.map_cons, hsame hfirst, ih hrest hothers]

end Element

/-! ## Plain sequences -/

/-- Deferred operations whose constants are plain. -/
def plainShape : Shape where
  Text _ := True
  Marker _ := True
  Deferred es _ _ := ∀ e ∈ es, e.IsPlain

theorem Element.isPlain_operator (op : Operator) : (Element.operator op).IsPlain := by
  rintro v marks ⟨⟩

theorem mem_bracketed {wrap : Bool} {es : List Element} {e : Element} (h : e ∈ bracketed wrap es) :
    e ∈ es ∨ ∃ op, e = .operator op := by
  unfold bracketed at h
  split at h
  · simp only [List.cons_append, List.mem_cons, List.mem_append, List.not_mem_nil, or_false] at h
    rcases h with h | h | h
    · exact Or.inr ⟨_, h⟩
    · exact Or.inl h
    · exact Or.inr ⟨_, h⟩
  · exact Or.inl h

/-- Nothing but operators is put between two operands. -/
theorem mem_binarySequence {a c : Operand} {op : Operator} {p : Int} {e : Element}
    (h : e ∈ binarySequence a op c p) :
    e ∈ a.sequence ∨ e ∈ c.sequence ∨ ∃ op, e = .operator op := by
  rcases List.mem_append.1 h with h | h
  · rcases mem_bracketed h with h | h
    · exact Or.inl h
    · exact Or.inr (Or.inr h)
  · rcases List.mem_cons.1 h with h | h
    · exact Or.inr (Or.inr ⟨op, h⟩)
    · exact Or.inr (mem_bracketed h)

theorem mem_callSequence {op : Operator} {es : List Element} {e : Element}
    (h : e ∈ callSequence op es) : e ∈ es ∨ ∃ op, e = .operator op := by
  rcases List.mem_cons.1 h with h | h
  · exact Or.inr ⟨op, h⟩
  · exact mem_bracketed h

theorem mem_joinMembers {ms : List Operand} {e : Element} (h : e ∈ joinMembers ms) :
    (∃ m ∈ ms, e ∈ m.sequence) ∨ ∃ op, e = .operator op := by
  have hmember : ∀ m : Operand, e ∈ m.member → e ∈ m.sequence ∨ ∃ op, e = .operator op := by
    intro m he
    rw [member_eq] at he
    exact mem_bracketed he
  induction ms with
  | nil =>
    simp [joinMembers] at h
  | cons m ms ih =>
    have hfirst : e ∈ m.member → (∃ n ∈ m :: ms, e ∈ n.sequence) ∨ ∃ op, e = .operator op :=
      fun he => (hmember m he).imp (fun he => ⟨m, List.mem_cons_self, he⟩) id
    cases ms with
    | nil =>
      exact hfirst h
    | cons n ms =>
      rw [joinMembers] at h
      · rcases List.mem_append.1 h with h | h
        · exact hfirst h
        · rcases List.mem_cons.1 h with h | h
          · exact Or.inr ⟨_, h⟩
          · exact (ih h).imp (fun ⟨k, hk, he⟩ => ⟨k, List.mem_cons_of_mem m hk, he⟩) id
      · simp

theorem Operand.IsScalar.plain {a : Operand} (h : a.IsScalar plainShape) :
    ∀ e ∈ a.sequence, e.IsPlain := by
  cases h with
  | @constant v marks h _ =>
    intro e he
    obtain rfl := List.mem_singleton.1 he
    rintro w ns ⟨⟩
    exact .scalar h
  | @marker name _ =>
    intro e he
    obtain rfl := List.mem_singleton.1 he
    rintro w ns ⟨⟩
  | deferred h =>
    exact h

theorem plain_joinMembers {members : List Operand} (h : ∀ m ∈ members, m.IsScalar plainShape) :
    ∀ e ∈ joinMembers members, e.IsPlain := by
  intro e he
  rcases mem_joinMembers he with ⟨m, hm, he⟩ | ⟨op, rfl⟩
  · exact (h m hm).plain e he
  · exact Element.isPlain_operator op

theorem Operand.Formed.plain {a : Operand} (h : a.Formed plainShape) :
    ∀ e ∈ a.sequence, e.IsPlain := by
  cases h with
  | scalar h =>
    exact h.plain
  | @list vs marks h =>
    intro e he
    obtain rfl := List.mem_singleton.1 he
    rintro w ns ⟨⟩
    exact h
  | group _ _ h =>
    exact plain_joinMembers h

theorem closed_plainShape [Capacity] : plainShape.Closed where
  text _ _ := trivial
  combine _ ha hc _ := by
    intro e he
    rcases mem_binarySequence he with he | he | ⟨op, rfl⟩
    · exact ha.plain e he
    · exact hc.plain e he
    · exact Element.isPlain_operator op
  call f _ ha _ := by
    intro e he
    rcases mem_callSequence he with he | ⟨op, rfl⟩
    · exact ha.plain e he
    · exact Element.isPlain_operator op
  callGroup f _ _ _ h _ := by
    intro e he
    rcases mem_callSequence he with he | ⟨op, rfl⟩
    · exact plain_joinMembers h e he
    · exact Element.isPlain_operator op

/-- A compilation keeps to any shape that is closed and has room for the texts of its source. -/
theorem Shape.Closed.keeps [Capacity] {σ : Shape} (h : σ.Closed) {r : Reading}
    (htext : ∀ t ∈ r.tokens, t.kind = .text → σ.Text t.text) (hmarker : ∀ name, σ.Marker name) :
    Semantics.symbolic.Keeps r (Operand.Formed σ) where
  number x := formed_number x
  text t ht hkind := .scalar (isScalar_value (.text (htext t ht hkind)))
  resolve hv := by
    rw [Semantics.eq_of_resolve_symbolic hv]
    exact .scalar (.marker (hmarker _))
  binary ha hc hz := h.binary ha hc hz
  function ha hz := h.function ha hz

namespace Formula

/-! ## Merged operands -/

/-- A replay does not look at marks. -/
theorem feed_unmarked (sem : Semantics Value) (e : Element) : feed sem e.unmarked = feed sem e := by
  cases e <;> rfl

theorem forM_feed_unmarked (sem : Semantics Value) (es : List Element) :
    (es.map Element.unmarked).forM (feed sem) = es.forM (feed sem) := by
  induction es with
  | nil =>
    rfl
  | cons e es ih =>
    simp only [List.map_cons, List.forM_eq_forM, List.forM_cons, feed_unmarked] at ih ⊢
    rw [ih]

section

variable [Capacity]

theorem replay_unmarked {es es' : List Element}
    (h : es.map Element.unmarked = es'.map Element.unmarked) (source : String) (b : Bindings) :
    replay ⟨es, source⟩ b = replay ⟨es', source⟩ b := by
  -- the machine is fed the same, so it does not even matter what comes of it
  have hrun : ∀ sem, runSequence sem es = runSequence sem es' := by
    intro sem
    unfold runSequence
    rw [← forM_feed_unmarked sem es, h, forM_feed_unmarked]
  simp only [replay, hrun]

theorem Merges.unsigned {source : String} {op : Binary} {a c : Operand}
    (h : Merges source op a c) :
    a.sequence.map Element.unsigned = c.sequence.map Element.unsigned := by
  -- the constants of all operands that a compilation meets are plain
  have hkeeps : Semantics.symbolic.Keeps (Token.lex source) (Operand.Formed plainShape) :=
    closed_plainShape.keeps (fun _ _ _ => trivial) fun _ => trivial
  have hall := hkeeps.all h.mem
  have ha : a.Formed plainShape := hall a (by simp)
  have hc : c.Formed plainShape := hall c (by simp)
  rcases sameSymbol_cases h.same with ⟨name, rfl, rfl⟩ | ⟨es, es', origin, p, p', rfl, rfl, hagree⟩
  · rfl
  · exact Element.unsigned_of_sequencesAgree ha.plain hc.plain hagree

/-- Operands that a compilation merges have the same sequences up to the signs of zeros, and they
replay identically if every zero has the sign of its counterpart. -/
theorem merges_alike {source : String} {op : Binary} {a c : Operand} (h : Merges source op a c) :
    a.sequence.map Element.unsigned = c.sequence.map Element.unsigned ∧
      (a.sequence.map Element.unmarked = c.sequence.map Element.unmarked ↔
        Element.zeros a.sequence = Element.zeros c.sequence) ∧
      (Element.zeros a.sequence = Element.zeros c.sequence →
        ∀ b, replay ⟨a.sequence, source⟩ b = replay ⟨c.sequence, source⟩ b) := by
  have hunmarked : Element.zeros a.sequence = Element.zeros c.sequence →
      a.sequence.map Element.unmarked = c.sequence.map Element.unmarked :=
    Element.unmarked_of_unsigned h.unsigned
  refine ⟨h.unsigned, ⟨?_, hunmarked⟩, ?_⟩
  · intro hsequences
    rw [← Element.zeros_map_unmarked, hsequences, Element.zeros_map_unmarked]
  · intro hzeros b
    exact replay_unmarked (hunmarked hzeros) source b

end

/-- Two equal products are merged. -/
theorem merges_alike_of_product :
    ∃ a c, Merges "$x*3+$x*3" .add a c ∧
      ∀ b, replay ⟨a.sequence, "$x*3+$x*3"⟩ b = replay ⟨c.sequence, "$x*3+$x*3"⟩ b := by
  obtain ⟨a, c, hmerges, hzeros⟩ := exists_merges "$x*3+$x*3" .add
    (fun a c => Element.zeros a.sequence = Element.zeros c.sequence) (Or.inl rfl)
    (by decide +kernel)
  exact ⟨a, c, hmerges, (merges_alike hmerges).2.2 (of_decide_eq_true hzeros)⟩

/-- Two products with zeros of different signs are merged as well, although powers of them can be as
far apart as the infinities. -/
theorem merges_opposite_zeros :
    ∃ a c, Merges "pow($x*0,-1)-pow($x*(-0),-1)" .sub a c ∧
      replay ⟨a.sequence, "pow($x*0,-1)-pow($x*(-0),-1)"⟩ [("x", .number 1)] =
        .ok (.number Double.infinity) ∧
      replay ⟨c.sequence, "pow($x*0,-1)-pow($x*(-0),-1)"⟩ [("x", .number 1)] =
        .ok (.number (-Double.infinity)) := by
  obtain ⟨a, c, hmerges, hreplays⟩ := exists_merges "pow($x*0,-1)-pow($x*(-0),-1)" .sub
    (fun a c =>
      (replay ⟨a.sequence, "pow($x*0,-1)-pow($x*(-0),-1)"⟩ [("x", .number 1)]).toOption =
          some (.number Double.infinity) ∧
        (replay ⟨c.sequence, "pow($x*0,-1)-pow($x*(-0),-1)"⟩ [("x", .number 1)]).toOption =
          some (.number (-Double.infinity)))
    (Or.inr rfl) (by decide +kernel)
  obtain ⟨ha, hc⟩ := of_decide_eq_true hreplays
  exact ⟨a, c, hmerges, Except.toOption_eq_some.1 ha, Except.toOption_eq_some.1 hc⟩

end Formula

end Reckon
