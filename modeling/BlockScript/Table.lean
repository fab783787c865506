/-!
# Insertion-ordered tables

A table maps keys to values and remembers the order in which its keys were first inserted.
Inserting a key that is already present replaces its value and keeps its place, so the order of
`entries` is the order of first insertion.
-/

namespace BlockScript

/-- A finite map whose entries stand in the order of their first insertion. -/
structure Table (κ : Type) (α : Type) where
  /-- The entries, oldest key first. -/
  entries : List (κ × α) := []
  deriving DecidableEq

namespace Table

variable {κ α β : Type}

/-- The table without entries. -/
def empty : Table κ α := ⟨[]⟩

instance : Inhabited (Table κ α) := ⟨empty⟩

/-- The keys, oldest first. -/
def keys (t : Table κ α) : List κ := t.entries.map Prod.fst

/-- The values, in the order of their keys. -/
def values (t : Table κ α) : List α := t.entries.map Prod.snd

/-- The number of entries. -/
def size (t : Table κ α) : Nat := t.entries.length

/-- Applies a function to every value and keeps the keys and their order. -/
def map (f : α → β) (t : Table κ α) : Table κ β :=
  ⟨t.entries.map fun entry => (entry.1, f entry.2)⟩

variable [DecidableEq κ]

/-- The value of the first entry with a key. -/
def findEntry (key : κ) : List (κ × α) → Option α
  | [] => none
  | entry :: rest => if entry.1 = key then some entry.2 else findEntry key rest

/-- The value of a key. -/
def get? (t : Table κ α) (key : κ) : Option α := findEntry key t.entries

/-- Whether a key is present. -/
def contains (t : Table κ α) (key : κ) : Bool := (t.get? key).isSome

/-- Replaces the value of a key in its place, or appends a new entry. -/
def insertEntry (key : κ) (value : α) : List (κ × α) → List (κ × α)
  | [] => [(key, value)]
  | entry :: rest =>
    if entry.1 = key then (key, value) :: rest else entry :: insertEntry key value rest

/-- Sets the value of a key. A key that is present keeps its place, a new one comes last. -/
def insert (t : Table κ α) (key : κ) (value : α) : Table κ α :=
  ⟨insertEntry key value t.entries⟩

/-- Removes a key and closes the gap it leaves. -/
def erase (t : Table κ α) (key : κ) : Table κ α :=
  ⟨t.entries.filter fun entry => entry.1 ≠ key⟩

/-- Changes the value of a key, if the key is present. -/
def modify (t : Table κ α) (key : κ) (f : α → α) : Table κ α :=
  ⟨t.entries.map fun entry => if entry.1 = key then (entry.1, f entry.2) else entry⟩

/-- The table that results from inserting the given entries one after the other. -/
def ofList (entries : List (κ × α)) : Table κ α :=
  entries.foldl (fun t entry => t.insert entry.1 entry.2) empty

@[simp] private theorem get?_empty (key : κ) : (empty : Table κ α).get? key = none := rfl

private theorem findEntry_insertEntry (key other : κ) (value : α) (entries : List (κ × α)) :
    findEntry other (insertEntry key value entries) =
      if key = other then some value else findEntry other entries := by
  induction entries with
  | nil => simp [insertEntry, findEntry]
  | cons entry rest ih =>
    by_cases hk : entry.1 = key
    · subst hk
      by_cases h : entry.1 = other <;> simp [insertEntry, findEntry, h]
    · by_cases h : key = other
      · subst h
        simp [insertEntry, findEntry, hk, ih]
      · simp [insertEntry, findEntry, hk, h, ih]

/-- Reading a table after an insertion: the inserted key has the new value, all others are as
before. -/
theorem get?_insert (t : Table κ α) (key other : κ) (value : α) :
    (t.insert key value).get? other = if key = other then some value else t.get? other :=
  findEntry_insertEntry key other value t.entries

end Table

end BlockScript
