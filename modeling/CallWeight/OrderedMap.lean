/-! # Maps that remember their order

A finite map as a list of entries. A new key goes to the end; a key that is already there keeps its
place when its value is replaced.
-/

namespace CallWeight

structure OrderedMap (α : Type) (β : Type) where
  entries : List (α × β) := []
  deriving Repr

namespace OrderedMap

variable {α β : Type}

def empty : OrderedMap α β := {}

instance : Inhabited (OrderedMap α β) := ⟨empty⟩

def keys (m : OrderedMap α β) : List α := m.entries.map Prod.fst

def values (m : OrderedMap α β) : List β := m.entries.map Prod.snd

def size (m : OrderedMap α β) : Nat := m.entries.length

variable [DecidableEq α]

def lookupIn (key : α) : List (α × β) → Option β
  | [] => none
  | (k, v) :: rest => if k = key then some v else lookupIn key rest

def get? (m : OrderedMap α β) (key : α) : Option β := lookupIn key m.entries

def contains (m : OrderedMap α β) (key : α) : Bool := (m.get? key).isSome

def insertIn (key : α) (value : β) : List (α × β) → List (α × β)
  | [] => [(key, value)]
  | (k, v) :: rest => if k = key then (k, value) :: rest else (k, v) :: insertIn key value rest

def insert (m : OrderedMap α β) (key : α) (value : β) : OrderedMap α β :=
  { entries := insertIn key value m.entries }

/-- Add an entry unless the key is there already. -/
def insertNew (m : OrderedMap α β) (key : α) (value : β) : OrderedMap α β :=
  if m.contains key then m else m.insert key value

/-- Entries from left to right, a later one replacing the value of an earlier one. -/
def ofList (entries : List (α × β)) : OrderedMap α β :=
  entries.foldl (fun m (key, value) => m.insert key value) empty

theorem lookupIn_insertIn (key other : α) (value : β) (entries : List (α × β)) :
    lookupIn other (insertIn key value entries) =
      if key = other then some value else lookupIn other entries := by
  induction entries with
  | nil => rfl
  | cons entry rest ih =>
      obtain ⟨k, v⟩ := entry
      by_cases same : k = key
      · subst same
        by_cases found : k = other <;> simp [insertIn, lookupIn, found]
      · by_cases found : k = other
        · subst found
          simp [insertIn, lookupIn, same, Ne.symm same]
        · simp [insertIn, lookupIn, same, found, ih]

/-- An insertion changes the value of its own key only. -/
theorem get?_insert (m : OrderedMap α β) (key other : α) (value : β) :
    (m.insert key value).get? other = if key = other then some value else m.get? other :=
  lookupIn_insertIn key other value m.entries

@[simp] theorem get?_empty (key : α) : (empty : OrderedMap α β).get? key = none := rfl

theorem lookupIn_eq_none_iff (key : α) (entries : List (α × β)) :
    lookupIn key entries = none ↔ key ∉ entries.map Prod.fst := by
  induction entries with
  | nil => simp [lookupIn]
  | cons entry rest ih =>
      obtain ⟨k, v⟩ := entry
      by_cases same : k = key
      · simp [lookupIn, same]
      · simp [lookupIn, same, ih, Ne.symm same]

/-- A key is listed exactly if it has a value. -/
theorem mem_keys_iff (m : OrderedMap α β) (key : α) : key ∈ m.keys ↔ m.contains key = true := by
  simp only [contains, Option.isSome_iff_ne_none, ne_eq, get?, lookupIn_eq_none_iff, keys,
    Decidable.not_not]

theorem mem_of_lookupIn {key : α} {value : β} {entries : List (α × β)}
    (found : lookupIn key entries = some value) : (key, value) ∈ entries := by
  induction entries with
  | nil => simp [lookupIn] at found
  | cons entry rest ih =>
      obtain ⟨k, v⟩ := entry
      by_cases same : k = key
      · simp only [lookupIn, same, if_true, Option.some.injEq] at found
        simp [same, found]
      · simp only [lookupIn, same, if_false] at found
        exact List.mem_cons_of_mem _ (ih found)

/-- A value that is found is one of the values. -/
theorem mem_values_of_get? {m : OrderedMap α β} {key : α} {value : β}
    (found : m.get? key = some value) : value ∈ m.values :=
  List.mem_map.mpr ⟨(key, value), mem_of_lookupIn found, rfl⟩

theorem map_fst_insertIn (key : α) (value : β) (entries : List (α × β)) :
    (insertIn key value entries).map Prod.fst =
      if key ∈ entries.map Prod.fst then entries.map Prod.fst
      else entries.map Prod.fst ++ [key] := by
  induction entries with
  | nil => rfl
  | cons entry rest ih =>
      obtain ⟨k, v⟩ := entry
      by_cases same : k = key
      · simp [insertIn, same]
      · simp only [insertIn, same, if_false, List.map_cons, ih, List.mem_cons, Ne.symm same,
          false_or]
        split <;> simp

/-- A new key is listed last, a known one stays where it is. -/
theorem keys_insert (m : OrderedMap α β) (key : α) (value : β) :
    (m.insert key value).keys = if key ∈ m.keys then m.keys else m.keys ++ [key] :=
  map_fst_insertIn key value m.entries

theorem nodup_keys_insert {m : OrderedMap α β} (distinct : m.keys.Nodup) (key : α) (value : β) :
    (m.insert key value).keys.Nodup := by
  rw [keys_insert]
  split
  · exact distinct
  · rename_i isNew
    refine List.nodup_append.mpr ⟨distinct, by simp, ?_⟩
    intro old listed new isKey same
    have isKey : new = key := by simpa using isKey
    exact isNew (isKey ▸ same ▸ listed)

theorem insertIn_of_new {key : α} {entries : List (α × β)} (isNew : lookupIn key entries = none)
    (value : β) : insertIn key value entries = entries ++ [(key, value)] := by
  induction entries with
  | nil => rfl
  | cons entry rest ih =>
      obtain ⟨k, v⟩ := entry
      by_cases same : k = key
      · simp [lookupIn, same] at isNew
      · simp only [lookupIn, same, if_false] at isNew
        simp [insertIn, same, ih isNew]

/-- A new key makes a map larger by one. -/
theorem size_insert_of_new {m : OrderedMap α β} {key : α} (isNew : m.get? key = none) (value : β) :
    (m.insert key value).size = m.size + 1 := by
  simp [size, insert, insertIn_of_new isNew]

theorem values_insert_of_new {m : OrderedMap α β} {key : α} (isNew : m.get? key = none)
    (value : β) : (m.insert key value).values = m.values ++ [value] := by
  simp [values, insert, insertIn_of_new isNew]

/-- Adding an entry for a key that is there already changes nothing. -/
theorem get?_insertNew (m : OrderedMap α β) (key other : α) (value : β) :
    (m.insertNew key value).get? other =
      if key = other then some ((m.get? key).getD value) else m.get? other := by
  unfold insertNew contains
  cases found : m.get? key with
  | none => simp [get?_insert]
  | some old =>
      by_cases same : key = other
      · subst same
        simp [found]
      · simp [same]

theorem mem_keys_insertNew (m : OrderedMap α β) (key other : α) (value : β) :
    other ∈ (m.insertNew key value).keys ↔ other = key ∨ other ∈ m.keys := by
  simp only [mem_keys_iff, contains, get?_insertNew]
  by_cases same : key = other
  · simp [same]
  · simp [same, Ne.symm same]

theorem nodup_keys_insertNew {m : OrderedMap α β} (distinct : m.keys.Nodup) (key : α) (value : β) :
    (m.insertNew key value).keys.Nodup := by
  unfold insertNew
  split
  · exact distinct
  · exact nodup_keys_insert distinct key value

end OrderedMap

end CallWeight
