import Reckon.Proofs.Operator.Plain
import Reckon.Proofs.Text.Escape
import Reckon.Proofs.Token.Layout

/-!
# Literal — values are told apart by their literals

The literals of two values are the same only if the values are, with negative and positive zero told
apart and all not-a-numbers identified.  A literal in a list ends at the comma or at the bracket
behind it, which may well occur within texts, but not within numbers.

* `NumberFormat.characters_inj` — numbers are told apart by their texts;
* `Value.scalar_append_inj` — and so are the members of a list by the way in which they are shown;
* `Value.literal_inj`, `Value.oneLine_literal` — values are, and they stay on one line.
-/

namespace Reckon

open Text

/-! ## Numbers -/

namespace Double

/-- What is not finite is not-a-number or one of the infinities. -/
theorem cases_of_isFinite_eq_false {x : Float} (h : x.isFinite = false) :
    x = notANumber ∨ x = infinity ∨ x = -infinity := by
  have hfinite : (unpacked x).isFinite = false := h
  rw [← packed_unpacked x]
  cases hx : unpacked x with
  | notANumber => exact Or.inl (by decide +kernel)
  | infinity s =>
    cases s with
    | positive => exact Or.inr (Or.inl (by decide +kernel))
    | negative => exact Or.inr (Or.inr (by decide +kernel))
  | _ =>
    rw [hx] at hfinite
    cases hfinite

end Double

namespace NumberFormat

variable {x y : Float} {c : Char}

/-- Whether a character may stand in the plain text of a number. -/
def isNumberCharacter (c : Char) : Bool :=
  isNumeralCharacter c || c ∈ ['n', 'a', 'i', 'f']

theorem isNumeralCharacter_of_isFinite (h : x.isFinite = true) (hc : c ∈ plain.characters x) :
    isNumeralCharacter c = true := by
  obtain ⟨n, hcharacters, -⟩ := exists_numeral_of_isFinite plain h
  rw [hcharacters] at hc
  split at hc
  · rcases List.mem_cons.1 hc with rfl | hc
    · decide
    · exact Numeral.isNumeralCharacter_of_mem hc
  · exact Numeral.isNumeralCharacter_of_mem hc

/-- What is not finite has a word. -/
theorem mem_words (h : x.isFinite = false) :
    plain.characters x ∈ [['n', 'a', 'n'], ['i', 'n', 'f'], ['-', 'i', 'n', 'f']] := by
  rcases Double.cases_of_isFinite_eq_false h with rfl | rfl | rfl <;> decide +kernel

/-- There is a letter in the words that no numeral has. -/
theorem mem_characters_iff : 'n' ∈ plain.characters x ↔ x.isFinite = false := by
  constructor
  · intro hmem
    rw [Bool.eq_false_iff]
    intro h
    exact absurd (isNumeralCharacter_of_isFinite h hmem) (by decide)
  · intro h
    have hall : ∀ w ∈ [['n', 'a', 'n'], ['i', 'n', 'f'], ['-', 'i', 'n', 'f']], 'n' ∈ w := by decide
    exact hall _ (mem_words h)

theorem isNumberCharacter_of_mem (hc : c ∈ plain.characters x) : isNumberCharacter c = true := by
  cases hx : x.isFinite with
  | true =>
    rw [isNumberCharacter, isNumeralCharacter_of_isFinite hx hc, Bool.true_or]
  | false =>
    have hall : ∀ w ∈ [['n', 'a', 'n'], ['i', 'n', 'f'], ['-', 'i', 'n', 'f']],
        ∀ c ∈ w, isNumberCharacter c = true := by
      simp only [List.mem_cons, List.not_mem_nil, or_false, forall_eq_or_imp, forall_eq]
      decide
    exact hall _ (mem_words hx) c hc

theorem characters_ne_nil (x : Float) : plain.characters x ≠ [] := by
  cases hx : x.isFinite with
  | true =>
    obtain ⟨n, hcharacters, -⟩ := exists_numeral_of_isFinite plain hx
    obtain ⟨c, cs, hcs, -⟩ := n.exists_head
    rw [hcharacters, hcs]
    split <;> simp
  | false =>
    have hmem := mem_characters_iff.2 hx
    exact List.ne_nil_of_mem hmem

/-- A numeral with a minus in front of it is no numeral. -/
theorem minus_cons_ne (n : Numeral) (cs : List Char) : '-' :: cs ≠ n.characters := by
  intro h
  exact (n.head_ne_sign (congrArg List.head? h.symm)).1 rfl

/-- A numeral denotes one number only. -/
theorem double_inj {n n' : Numeral} (h : n.characters = n'.characters) : n.double = n'.double := by
  have hvalue := n.value_characters
  rw [h, n'.value_characters] at hvalue
  exact (Except.ok.inj hvalue).symm

/-- Numbers are told apart by their texts, zeros of opposite signs included. -/
theorem characters_inj (h : plain.characters x = plain.characters y) : x = y := by
  have hfinite : x.isFinite = false ↔ y.isFinite = false := by
    rw [← mem_characters_iff, h, mem_characters_iff]
  cases hx : x.isFinite with
  | false =>
    have hy := hfinite.1 hx
    rcases Double.cases_of_isFinite_eq_false hx with rfl | rfl | rfl <;>
      rcases Double.cases_of_isFinite_eq_false hy with rfl | rfl | rfl <;>
        first
          | rfl
          | exact absurd h (by decide +kernel)
  | true =>
    have hy : y.isFinite = true := by simpa [hx] using hfinite
    obtain ⟨n, hn, hx⟩ := exists_numeral_of_isFinite plain hx
    obtain ⟨n', hn', hy⟩ := exists_numeral_of_isFinite plain hy
    -- there is a minus sign in front of both numerals or of neither
    have hsame : Double.isNegative x = Double.isNegative y ∧ n.characters = n'.characters := by
      rw [hn, hn'] at h
      cases hxsign : Double.isNegative x <;> cases hysign : Double.isNegative y <;>
        rw [hxsign, hysign] at h
      · exact ⟨rfl, h⟩
      · exact absurd h.symm (minus_cons_ne n _)
      · exact absurd h (minus_cons_ne n' _)
      · exact ⟨rfl, (List.cons.inj h).2⟩
    rw [← hx, ← hy, hsame.1, double_inj hsame.2]

end NumberFormat

/-! ## Members of lists -/

namespace Value

variable {P Q : CodeText → Prop} {v w : Value} {vs ws : List Value} {rest rest' : List Char}

/-- What stands behind a member of a list: nothing that a number could go on with. -/
def EndsMember (rest : List Char) : Prop :=
  ∀ c, rest.head? = some c → c = ',' ∨ c = ']'

theorem endsMember_cons {c : Char} (hc : c = ',' ∨ c = ']') (cs : List Char) :
    EndsMember (c :: cs) := by
  intro x hx
  rwa [← Option.some.inj hx]

theorem literal_number (x : Float) :
    (number x).literal.toList = NumberFormat.plain.characters x := by
  rw [literal, NumberFormat.write, String.toList_ofList]

theorem literal_text (t : CodeText) : (text t).literal.toList = Quoted.encode t.points := by
  rw [literal, quoted, String.toList_ofList]

/-- The text of a number ends where one of its characters does not follow. -/
theorem number_append_inj {x y : Float} (hrest : EndsMember rest) (hrest' : EndsMember rest')
    (h : NumberFormat.plain.characters x ++ rest = NumberFormat.plain.characters y ++ rest') :
    x = y ∧ rest = rest' := by
  have hends : ∀ {cs}, EndsMember cs → ∀ c, cs.head? = some c →
      NumberFormat.isNumberCharacter c = false := by
    intro cs hcs c hc
    rcases hcs c hc with rfl | rfl <;> decide
  -- the characters up to the first that no number has are the number
  have hsame : NumberFormat.plain.characters x = NumberFormat.plain.characters y := by
    have htake := congrArg (List.takeWhile NumberFormat.isNumberCharacter) h
    rwa [takeWhile_append_of_head (fun _ => NumberFormat.isNumberCharacter_of_mem) (hends hrest),
      takeWhile_append_of_head (fun _ => NumberFormat.isNumberCharacter_of_mem)
        (hends hrest')] at htake
  rw [hsame] at h
  exact ⟨NumberFormat.characters_inj hsame, List.append_cancel_left h⟩

/-- A number does not begin with a character that it cannot have. -/
theorem characters_append_ne {x : Float} {c : Char}
    (hc : NumberFormat.isNumberCharacter c = false) :
    NumberFormat.plain.characters x ++ rest ≠ c :: rest' := by
  obtain ⟨d, ds, hds⟩ := List.exists_cons_of_ne_nil (NumberFormat.characters_ne_nil x)
  rw [hds, List.cons_append]
  intro h
  obtain ⟨rfl, -⟩ := List.cons.inj h
  have hmem : d ∈ NumberFormat.plain.characters x := by rw [hds]; exact List.mem_cons_self
  rw [NumberFormat.isNumberCharacter_of_mem hmem] at hc
  cases hc

theorem isNumberCharacter_mark (ps : List CodePoint) :
    NumberFormat.isNumberCharacter (Quoted.mark ps) = false := by
  rcases Token.isMark_mark ps with h | h <;> rw [h] <;> decide

/-- Numbers and texts are told apart by their literals, and so is what follows. -/
theorem scalar_append_inj (hv : v.IsScalar P) (hw : w.IsScalar Q) (hrest : EndsMember rest)
    (hrest' : EndsMember rest') (h : v.literal.toList ++ rest = w.literal.toList ++ rest') :
    v = w ∧ rest = rest' := by
  cases hv with
  | number x =>
    cases hw with
    | number y =>
      rw [literal_number, literal_number] at h
      obtain ⟨rfl, hrest⟩ := number_append_inj hrest hrest' h
      exact ⟨rfl, hrest⟩
    | @text t ht =>
      rw [literal_number, literal_text] at h
      exact absurd h (characters_append_ne (isNumberCharacter_mark _))
  | @text s hs =>
    cases hw with
    | number y =>
      rw [literal_number, literal_text] at h
      exact absurd h.symm (characters_append_ne (isNumberCharacter_mark _))
    | @text t ht =>
      rw [literal_text, literal_text] at h
      obtain ⟨hpoints, hrest⟩ := Quoted.encode_append_inj h
      exact ⟨congrArg (fun points => text ⟨points⟩) hpoints, hrest⟩

/-! ## Values -/

/-- What stands in a list behind its first member. -/
def followers : List Value → List Char
  | [] => []
  | v :: vs => ',' :: ' ' :: (literals (v :: vs)).toList

theorem literals_cons (v : Value) (vs : List Value) :
    (literals (v :: vs)).toList = v.literal.toList ++ followers vs := by
  cases vs with
  | nil => rw [literals, followers, List.append_nil]
  | cons w ws =>
    rw [literals, String.toList_append, String.toList_append, List.append_assoc]
    · rfl
    · simp

theorem endsMember_followers (vs : List Value) : EndsMember (followers vs ++ ']' :: rest) := by
  cases vs with
  | nil => exact endsMember_cons (Or.inr rfl) _
  | cons v vs => exact endsMember_cons (Or.inl rfl) _

theorem followers_append_inj (hvs : ∀ v ∈ vs, v.IsScalar P) (hws : ∀ w ∈ ws, w.IsScalar Q)
    (h : followers vs ++ ']' :: rest = followers ws ++ ']' :: rest') : vs = ws ∧ rest = rest' := by
  induction vs generalizing ws with
  | nil =>
    cases ws with
    | nil => exact ⟨rfl, (List.cons.inj h).2⟩
    | cons w ws => exact absurd (List.cons.inj h).1 (by decide)
  | cons v vs ih =>
    cases ws with
    | nil => exact absurd (List.cons.inj h).1 (by decide)
    | cons w ws =>
      rw [List.forall_mem_cons] at hvs hws
      obtain ⟨hv, hvs⟩ := hvs
      obtain ⟨hw, hws⟩ := hws
      rw [followers, followers, literals_cons, literals_cons] at h
      simp only [List.cons_append, List.append_assoc, List.cons.injEq, true_and] at h
      obtain ⟨rfl, hbehind⟩ :=
        scalar_append_inj hv hw (endsMember_followers vs) (endsMember_followers ws) h
      obtain ⟨rfl, hrest⟩ := ih hvs hws hbehind
      exact ⟨rfl, hrest⟩

theorem literal_list (v : Value) (vs : List Value) :
    (list (v :: vs)).literal.toList = '[' :: (v.literal.toList ++ (followers vs ++ [']'])) := by
  rw [literal, String.toList_append, String.toList_append, literals_cons, List.append_assoc,
    List.append_assoc]
  rfl

/-- A scalar does not look like a list. -/
theorem literal_ne_of_isScalar (hv : v.IsScalar P) (cs : List Char) :
    v.literal.toList ≠ '[' :: cs := by
  cases hv with
  | number x =>
    intro h
    rw [literal_number, ← List.append_nil (NumberFormat.plain.characters x)] at h
    exact characters_append_ne (by decide) h
  | text hs =>
    rw [literal_text]
    intro h
    have hmark := (List.cons.inj h).1
    rcases Token.isMark_mark _ with hq | hq <;> rw [hmark] at hq <;> exact absurd hq (by decide)

/-- Values are told apart by their literals. -/
theorem literal_inj (hv : v.IsPlain P) (hw : w.IsPlain Q) (h : v.literal = w.literal) : v = w := by
  have hnil : EndsMember [] := nofun
  have htoList := congrArg String.toList h
  cases hv with
  | scalar hv =>
    cases hw with
    | scalar hw =>
      have happend := congrArg (· ++ []) htoList
      exact (scalar_append_inj hv hw hnil hnil happend).1
    | list hlength hws =>
      obtain ⟨w, ws, rfl⟩ := List.exists_cons_of_length_pos (Nat.lt_of_lt_of_le Nat.two_pos hlength)
      rw [literal_list] at htoList
      exact absurd htoList (literal_ne_of_isScalar hv _)
  | list hlength hvs =>
    obtain ⟨v, vs, rfl⟩ := List.exists_cons_of_length_pos (Nat.lt_of_lt_of_le Nat.two_pos hlength)
    rw [literal_list] at htoList
    cases hw with
    | scalar hw => exact absurd htoList.symm (literal_ne_of_isScalar hw _)
    | list hlength' hws =>
      obtain ⟨w, ws, rfl⟩ :=
        List.exists_cons_of_length_pos (Nat.lt_of_lt_of_le Nat.two_pos hlength')
      rw [literal_list] at htoList
      rw [List.forall_mem_cons] at hvs hws
      obtain ⟨rfl, hbehind⟩ := scalar_append_inj hvs.1 hws.1 (endsMember_followers vs)
        (endsMember_followers ws) (List.cons.inj htoList).2
      obtain ⟨rfl, -⟩ := followers_append_inj hvs.2 hws.2 hbehind
      rfl

/-! ## Lines -/

theorem oneLine_scalar (hv : v.IsScalar P) : OneLine v.literal.toList := by
  cases hv with
  | number x =>
    rw [literal_number]
    intro c hc
    have hnumber := NumberFormat.isNumberCharacter_of_mem hc
    rw [NumberFormat.isNumberCharacter, Bool.or_eq_true] at hnumber
    rcases hnumber with h | h
    · exact isLineBreak_of_isBlank (isBlank_of_isNumeralCharacter h)
    · have hall : ∀ c ∈ ['n', 'a', 'i', 'f'], isLineBreak c = false := by
        simp only [List.mem_cons, List.not_mem_nil, or_false, forall_eq_or_imp, forall_eq]
        decide
      exact hall c (of_decide_eq_true h)
  | text hs =>
    rw [literal_text]
    exact Quoted.oneLine_encode _

theorem oneLine_followers (hvs : ∀ v ∈ vs, v.IsScalar P) : OneLine (followers vs) := by
  induction vs with
  | nil => exact oneLine_nil
  | cons v vs ih =>
    obtain ⟨hv, hvs⟩ := List.forall_mem_cons.1 hvs
    rw [followers, literals_cons, oneLine_cons, oneLine_cons, oneLine_append]
    exact ⟨by decide, by decide, oneLine_scalar hv, ih hvs⟩

/-- A value is shown on one line, whatever its texts are. -/
theorem oneLine_literal (hv : v.IsPlain P) : OneLine v.literal.toList := by
  cases hv with
  | scalar hv => exact oneLine_scalar hv
  | list hlength hvs =>
    obtain ⟨v, vs, rfl⟩ := List.exists_cons_of_length_pos (Nat.lt_of_lt_of_le Nat.two_pos hlength)
    obtain ⟨hv, hvs⟩ := List.forall_mem_cons.1 hvs
    rw [literal_list, oneLine_cons, oneLine_append, oneLine_append, oneLine_cons]
    exact ⟨by decide, oneLine_scalar hv, oneLine_followers hvs, by decide, oneLine_nil⟩

end Value
end Reckon
