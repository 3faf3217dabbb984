import Reckon.Error

/-!
# VariableTable — the variables of a formula

A table holds the names of variables in the order in which they were first mentioned, each of them
once.  The handle of a name is its place in that order; it never changes.
-/

namespace Reckon

/-- Distinct names in the order of their first mention. -/
structure VariableTable where
  names : List String
  nodup : names.Nodup

namespace VariableTable

def empty : VariableTable := ⟨[], List.nodup_nil⟩

def contains (t : VariableTable) (name : String) : Bool :=
  name ∈ t.names

def size (t : VariableTable) : Nat :=
  t.names.length

/-- The place of a name that the table contains. -/
def handle? (t : VariableTable) (name : String) : Option Nat :=
  t.names.idxOf? name

/-- The table with a name mentioned; nothing changes if it was mentioned before. -/
def insert (t : VariableTable) (name : String) : VariableTable :=
  if h : name ∈ t.names then t
  else ⟨t.names ++ [name], List.nodup_append.2 ⟨t.nodup, by simp, by
    intro a ha b hb
    rw [List.mem_singleton.1 hb]
    exact fun hab => h (hab ▸ ha)⟩⟩

/-- The table of a list of names, which may repeat. -/
def ofList (names : List String) : VariableTable :=
  names.foldl insert empty

/-- Refuses the empty name, which no variable has. -/
def requireName (name : String) : Except Error Unit :=
  if name.isEmpty then .error (.limit .emptyName) else .ok ()

/-- The handle of a name and the table that contains it.  Every name but the empty one is accepted. -/
def intern (t : VariableTable) (name : String) : Except Error (Nat × VariableTable) := do
  requireName name
  return (t.names.idxOf name, t.insert name)

theorem requireName_of_ne {name : String} (h : name ≠ "") : requireName name = .ok () :=
  if_neg (by rwa [String.isEmpty_iff])

theorem names_insert (t : VariableTable) (name : String) :
    (t.insert name).names = if name ∈ t.names then t.names else t.names ++ [name] := by
  unfold insert
  split <;> rfl

theorem mem_names_insert {t : VariableTable} {name other : String} :
    other ∈ (t.insert name).names ↔ other ∈ t.names ∨ other = name := by
  rw [names_insert]
  split <;> simp_all

theorem mem_names_ofList {names : List String} {name : String} :
    name ∈ (ofList names).names ↔ name ∈ names := by
  suffices h : ∀ t : VariableTable, name ∈ (names.foldl insert t).names ↔
      name ∈ t.names ∨ name ∈ names by
    simpa [ofList, empty] using h empty
  induction names with
  | nil => simp
  | cons x xs ih =>
    intro t
    simp only [List.foldl_cons, ih, mem_names_insert, List.mem_cons]
    exact or_assoc

end VariableTable

end Reckon
