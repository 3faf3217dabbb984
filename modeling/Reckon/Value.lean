import Reckon.Numeric.NumberFormat
import Reckon.Operator
import Reckon.Text.Quoted

/-!
# Value — numbers, texts and lists

The values of the calculator and the two ways in which they are shown.

* `Value.literal` shows a value inside a formula, a listing or a log line: texts are quoted.
* `Value.display` shows a result: a text stands for itself, a list is written as a JSON array.

Two relations compare values.  Equality tells negative from positive zero.  `Value.agrees` is the
comparison that formulas are compared with: numbers agree if they are equal as numbers, so the two
zeros do.  Both identify all not-a-numbers; `Value.undefinedCount` says how many there are, for those
who tell them apart.

A machine takes whatever is put on its stack.  A `Stray` is what may stand there although the
calculator does not know it as a value: every operator refuses it, and lists hold it as it is.
-/

namespace Reckon

/-- Something that stands where a value is expected and is none. -/
inductive Stray where
  | operator (op : Operator)
  | marker (name : String)
  | integer (n : Int)
  | truth (holds : Bool)
  /-- Anything else. -/
  | unknown
  deriving DecidableEq, Repr

/-- A concrete value. -/
inductive Value where
  | number (x : Float)
  | text (t : CodeText)
  | list (members : List Value)
  | stray (s : Stray)
  deriving Repr, Inhabited

namespace Stray

/-- The marker of a variable on one line, for messages. -/
def describeMarker (name : String) : String :=
  "Var(" ++ Text.quoted name ++ ")"

/-- A stray on one line, for messages. -/
def describe : Stray → String
  | .operator op => op.describeToken
  | .marker name => describeMarker name
  | .integer n => toString n
  | .truth holds => if holds then "True" else "False"
  | .unknown => "?"

/-- The integer that a stray counts as when it is compared with numbers. -/
def integer? : Stray → Option Int
  | .integer n => some n
  | .truth holds => some (if holds then 1 else 0)
  | _ => none

/-- The JSON text of a stray; there is none for operators and markers. -/
def json? : Stray → Option String
  | .integer n => some (toString n)
  | .truth holds => some (toString holds)
  | _ => none

end Stray

namespace Value

/-! ## Equality -/

mutual

/-- Equality of values is decided member by member. -/
def decideEq : (v w : Value) → Decidable (v = w)
  | .number x, .number y => decidable_of_iff (x = y) (by simp)
  | .text s, .text t => decidable_of_iff (s = t) (by simp)
  | .list vs, .list ws =>
    match decideEqList vs ws with
    | isTrue h => isTrue (by rw [h])
    | isFalse h => isFalse (by simpa using h)
  | .stray s, .stray t => decidable_of_iff (s = t) (by simp)
  | .number _, .text _ | .number _, .list _ | .number _, .stray _ => isFalse (by simp)
  | .text _, .number _ | .text _, .list _ | .text _, .stray _ => isFalse (by simp)
  | .list _, .number _ | .list _, .text _ | .list _, .stray _ => isFalse (by simp)
  | .stray _, .number _ | .stray _, .text _ | .stray _, .list _ => isFalse (by simp)

def decideEqList : (vs ws : List Value) → Decidable (vs = ws)
  | [], [] => isTrue rfl
  | [], _ :: _ => isFalse (by simp)
  | _ :: _, [] => isFalse (by simp)
  | v :: vs, w :: ws =>
    match decideEq v w, decideEqList vs ws with
    | isTrue hv, isTrue hvs => isTrue (by rw [hv, hvs])
    | isFalse hv, _ => isFalse (by simp [hv])
    | _, isFalse hvs => isFalse (by simp [hvs])

end

instance : DecidableEq Value := decideEq

/-! ## Numeric agreement -/

/-- The integer that a value is when it is compared with numbers. -/
def integer? : Value → Option Int
  | .number x => Double.whole? x
  | .stray s => s.integer?
  | _ => none

/-- Whether two values are the same integer. -/
def sameInteger (v w : Value) : Bool :=
  v.integer?.isSome && v.integer? = w.integer?

mutual

/-- Whether two values agree as numbers, texts or lists; a stray agrees with itself, too. -/
def agrees : Value → Value → Bool
  | .number x, .number y => x == y || (x.isNaN && y.isNaN)
  | .text s, .text t => s == t
  | .list vs, .list ws => membersAgree vs ws
  | .stray s, .stray t => s = t || sameInteger (.stray s) (.stray t)
  | v, w => sameInteger v w

def membersAgree : List Value → List Value → Bool
  | [], [] => true
  | v :: vs, w :: ws => v.agrees w && membersAgree vs ws
  | _, _ => false

end

mutual

/-- The number of not-a-numbers in a value. -/
def undefinedCount : Value → Nat
  | .number x => if x.isNaN then 1 else 0
  | .list vs => memberUndefinedCount vs
  | _ => 0

def memberUndefinedCount : List Value → Nat
  | [] => 0
  | v :: vs => v.undefinedCount + memberUndefinedCount vs

end

/-! ## Kinds of values -/

def isNumber : Value → Bool
  | .number _ => true
  | _ => false

def isText : Value → Bool
  | .text _ => true
  | _ => false

mutual

/-- The strays in a value. -/
def strays : Value → List Stray
  | .stray s => [s]
  | .list vs => memberStrays vs
  | _ => []

def memberStrays : List Value → List Stray
  | [] => []
  | v :: vs => v.strays ++ memberStrays vs

end

/-- The members that a value contributes to a list: those of a list, else the value itself. -/
def members : Value → List Value
  | .list vs => vs
  | v => [v]

/-- The numbers of a list that holds nothing else. -/
def numbers? : List Value → Option (List Float)
  | [] => some []
  | .number x :: vs => (numbers? vs).map (x :: ·)
  | _ :: _ => none

/-- The texts of a list that holds nothing else. -/
def texts? : List Value → Option (List CodeText)
  | [] => some []
  | .text s :: vs => (texts? vs).map (s :: ·)
  | _ :: _ => none

/-! ## Texts of values -/

mutual

/-- A value as it is shown in formulas and logs. -/
def literal : Value → String
  | .number x => NumberFormat.plain.write x
  | .text s => Text.quoted s
  | .list vs => "[" ++ literals vs ++ "]"
  | .stray s => s.describe

/-- Literals separated by commas. -/
def literals : List Value → String
  | [] => ""
  | [v] => v.literal
  | v :: vs => v.literal ++ ", " ++ literals vs

end

/-- A code unit of sixteen bits as a JSON escape. -/
def jsonUnit (n : Nat) : List Char :=
  '\\' :: 'u' :: Text.hexDigits 4 n

/-- A character of a JSON string; beyond printable ASCII it is written by its UTF-16 code units. -/
def jsonCharacter (c : Char) : List Char :=
  if c = '"' ∨ c = '\\' then ['\\', c]
  else if c = '\n' then ['\\', 'n']
  else if c = '\r' then ['\\', 'r']
  else if c = '\t' then ['\\', 't']
  else if c = '\x08' then ['\\', 'b']
  else if c = '\x0c' then ['\\', 'f']
  else if 0x20 ≤ c.toNat ∧ c.toNat < 0x7F then [c]
  else if c.toNat < 0x10000 then jsonUnit c.toNat
  else jsonUnit (0xD7C0 + c.toNat / 0x400) ++ jsonUnit (0xDC00 + c.toNat % 0x400)

/-- A code point of a JSON string; half of a character is a code unit. -/
def jsonPoint : CodePoint → List Char
  | .character c => jsonCharacter c
  | .half place => jsonUnit (CodePoint.half place).code

/-- A JSON string in ASCII. -/
def jsonString (t : CodeText) : String :=
  String.ofList ('"' :: t.points.flatMap jsonPoint ++ ['"'])

mutual

/-- A value as a JSON text; a stray without one is described. -/
def json : Value → String
  | .number x => NumberFormat.json.write x
  | .text s => jsonString s
  | .list vs => "[" ++ jsonMembers vs ++ "]"
  | .stray s => s.json?.getD s.describe

def jsonMembers : List Value → String
  | [] => ""
  | [v] => v.json
  | v :: vs => v.json ++ ", " ++ jsonMembers vs

end

/-- A value as it is shown as a result. -/
def display : Value → CodeText
  | .number x => NumberFormat.plain.write x
  | .text s => s
  | .list vs => json (.list vs)
  | .stray s => s.describe

/-! ## Small facts -/

@[simp] theorem members_list (vs : List Value) : (Value.list vs).members = vs := rfl

theorem agrees_text {s t : CodeText} : (Value.text s).agrees (.text t) = true ↔ s = t := by
  simp [agrees]

theorem numbers?_eq_some_iff {vs : List Value} {xs : List Float} :
    numbers? vs = some xs ↔ vs = xs.map .number := by
  induction vs generalizing xs with
  | nil => cases xs <;> simp [numbers?]
  | cons v vs ih =>
    cases v with
    | number x =>
      cases xs with
      | nil => simp [numbers?]
      | cons y ys =>
        rw [numbers?, Option.map_eq_some_iff]
        constructor
        · rintro ⟨zs, hzs, hcons⟩
          obtain ⟨rfl, rfl⟩ := List.cons.inj hcons
          rw [ih.1 hzs, List.map_cons]
        · intro h
          simp only [List.map_cons, List.cons.injEq, number.injEq] at h
          exact ⟨ys, ih.2 h.2, by rw [h.1]⟩
    | text s => cases xs <;> simp [numbers?]
    | list ws => cases xs <;> simp [numbers?]
    | stray s => cases xs <;> simp [numbers?]

theorem texts?_eq_some_iff {vs : List Value} {ss : List CodeText} :
    texts? vs = some ss ↔ vs = ss.map .text := by
  induction vs generalizing ss with
  | nil => cases ss <;> simp [texts?]
  | cons v vs ih =>
    cases v with
    | text s =>
      cases ss with
      | nil => simp [texts?]
      | cons t ts =>
        rw [texts?, Option.map_eq_some_iff]
        constructor
        · rintro ⟨us, hus, hcons⟩
          obtain ⟨rfl, rfl⟩ := List.cons.inj hcons
          rw [ih.1 hus, List.map_cons]
        · intro h
          simp only [List.map_cons, List.cons.injEq, text.injEq] at h
          exact ⟨ts, ih.2 h.2, by rw [h.1]⟩
    | number x => cases ss <;> simp [texts?]
    | list ws => cases ss <;> simp [texts?]
    | stray s => cases ss <;> simp [texts?]

end Value

end Reckon
