/-
Tables that keep the order in which their keys were first put.

Member tables, exports and summaries are listed in reports in the order in which their names came
up, so a table is a list of entries: putting a known key again changes its value and not its place.
The view is `Table.get?`; `get?_insert` says what `insert` does to it.
-/

namespace FlowTyping

/-- A table in order of first insertion. -/
structure Table (κ α : Type) where
  entries : List (κ × α)
deriving Repr

namespace Table

variable {κ α : Type} [DecidableEq κ]

def empty : Table κ α := ⟨[]⟩

instance : Inhabited (Table κ α) := ⟨empty⟩

def find? (key : κ) : List (κ × α) → Option α
  | [] => none
  | (k, a) :: es => if k = key then some a else find? key es

/-- Change the value of a key where it stands, or put the entry at the end. -/
def put (key : κ) (value : α) : List (κ × α) → List (κ × α)
  | [] => [(key, value)]
  | (k, a) :: es => if k = key then (k, value) :: es else (k, a) :: put key value es

def get? (t : Table κ α) (key : κ) : Option α := find? key t.entries

def contains (t : Table κ α) (key : κ) : Bool := (t.get? key).isSome

def insert (t : Table κ α) (key : κ) (value : α) : Table κ α := ⟨put key value t.entries⟩

/-- Put a value unless the key is known. -/
def insertNew (t : Table κ α) (key : κ) (value : α) : Table κ α :=
  if t.contains key then t else t.insert key value

/-- Take the entries of some keys out. -/
def without (t : Table κ α) (keys : List κ) : Table κ α := ⟨t.entries.filter (·.1 ∉ keys)⟩

def keys (t : Table κ α) : List κ := t.entries.map (·.1)

def size (t : Table κ α) : Nat := t.entries.length

/-! ### The view -/

theorem find?_put (key other : κ) (value : α) (es : List (κ × α)) :
    find? other (put key value es) = if key = other then some value else find? other es := by
  induction es with
  | nil => rfl
  | cons e es ih =>
    obtain ⟨k, a⟩ := e
    simp only [put]
    split
    · next h =>
      subst h
      simp only [find?]
      split <;> rfl
    · next h =>
      simp only [find?, ih]
      split
      · next hk =>
        subst hk
        rw [if_neg fun hc => h hc.symm]
      · rfl

theorem get?_insert (t : Table κ α) (key other : κ) (value : α) :
    (t.insert key value).get? other = if key = other then some value else t.get? other :=
  find?_put key other value t.entries

@[simp]
theorem get?_insert_self (t : Table κ α) (key : κ) (value : α) :
    (t.insert key value).get? key = some value := by
  rw [get?_insert, if_pos rfl]

end Table

end FlowTyping
