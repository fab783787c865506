import BlockScript.Table

/-!
# Reading tables

What a table holds after an entry has been added, removed or changed, and where the entries of a
table made from a list come from.
-/

namespace BlockScript.Table

variable {κ α β : Type} [DecidableEq κ]
  {key : κ} {entries : List (κ × α)} {t : Table κ α} {value : α}

private theorem findEntry_map (key other : κ) (f : α → α) (entries : List (κ × α)) :
    findEntry other (entries.map fun e => if e.1 = key then (e.1, f e.2) else e) =
      if key = other then (findEntry other entries).map f else findEntry other entries := by
  induction entries with
  | nil => simp [findEntry]
  | cons entry rest ih =>
    rw [List.map_cons, findEntry, findEntry, ih]
    by_cases hkey : entry.1 = key
    · subst hkey
      by_cases hother : entry.1 = other <;> simp [hother]
    · by_cases hother : entry.1 = other
      · subst hother
        simp [hkey, Ne.symm hkey]
      · simp [hkey, hother]

/-- A changed entry is found. -/
theorem get?_modify (t : Table κ α) (key other : κ) (f : α → α) :
    (t.modify key f).get? other = if key = other then (t.get? other).map f else t.get? other :=
  findEntry_map key other f t.entries

private theorem findEntry_filter (key other : κ) (entries : List (κ × α)) :
    findEntry other (entries.filter fun e => e.1 ≠ key) =
      if key = other then none else findEntry other entries := by
  induction entries with
  | nil => simp [findEntry]
  | cons entry rest ih =>
    by_cases hkey : entry.1 = key
    · subst hkey
      rw [List.filter_cons_of_neg (by simp), ih, findEntry]
      by_cases hother : entry.1 = other <;> simp [hother]
    · rw [List.filter_cons_of_pos (by simpa using hkey), findEntry, ih, findEntry]
      by_cases hother : entry.1 = other
      · subst hother
        simp [Ne.symm hkey]
      · simp [hother]

/-- A removed entry is not found. -/
theorem get?_erase (t : Table κ α) (key other : κ) :
    (t.erase key).get? other = if key = other then none else t.get? other :=
  findEntry_filter key other t.entries

private theorem findEntry_eq_none_iff :
    findEntry key entries = none ↔ key ∉ entries.map Prod.fst := by
  induction entries with
  | nil => simp [findEntry]
  | cons entry rest ih =>
    by_cases hkey : entry.1 = key
    · simp [findEntry, hkey]
    · simp [findEntry, hkey, ih, Ne.symm hkey]

/-- What is not found has no key. -/
theorem get?_eq_none_iff : t.get? key = none ↔ key ∉ t.keys :=
  findEntry_eq_none_iff

/-- Missing is not found. -/
theorem contains_eq_false_iff : t.contains key = false ↔ t.get? key = none := by
  unfold contains
  cases t.get? key <;> simp

private theorem mem_of_findEntry (h : findEntry key entries = some value) :
    (key, value) ∈ entries := by
  induction entries with
  | nil => cases h
  | cons entry rest ih =>
    rw [findEntry] at h
    split at h
    · rename_i hkey
      rw [← hkey, ← Option.some.inj h]
      exact List.mem_cons_self
    · exact List.mem_cons_of_mem _ (ih h)

/-- What is found is an entry. -/
theorem mem_entries_of_get? (h : t.get? key = some value) : (key, value) ∈ t.entries :=
  mem_of_findEntry h

/-- What is found is a value. -/
theorem mem_values_of_get? (h : t.get? key = some value) : value ∈ t.values :=
  List.mem_map.mpr ⟨(key, value), mem_entries_of_get? h, rfl⟩

private theorem insertEntry_of_not_mem (hkey : key ∉ entries.map Prod.fst) (value : α) :
    insertEntry key value entries = entries ++ [(key, value)] := by
  induction entries with
  | nil => rfl
  | cons entry rest ih =>
    simp only [List.map_cons, List.mem_cons, not_or] at hkey
    rw [insertEntry, if_neg (Ne.symm hkey.1), ih hkey.2, List.cons_append]

/-- A new key comes last. -/
theorem insert_of_not_mem (hkey : key ∉ t.keys) (value : α) :
    t.insert key value = ⟨t.entries ++ [(key, value)]⟩ :=
  congrArg Table.mk (insertEntry_of_not_mem hkey value)

/-- Reading a part of what a table holds after an insertion. -/
theorem map_get?_insert (t : Table κ α) (key other : κ) (value : α) (f : α → β) :
    ((t.insert key value).get? other).map f = if key = other then some (f value)
    else (t.get? other).map f := by
  rw [get?_insert]
  split <;> rfl

/-- A change of one entry and a new value of another one go in any order. -/
theorem insert_modify {other : κ} (hne : key ≠ other) (t : Table κ α) (f : α → α) (value : α) :
    (t.modify key f).insert other value = (t.insert other value).modify key f := by
  obtain ⟨entries⟩ := t
  unfold modify insert
  dsimp only
  congr 1
  induction entries with
  | nil => simp [insertEntry, Ne.symm hne]
  | cons entry rest ih =>
    rw [List.map_cons, insertEntry, insertEntry]
    by_cases hother : entry.1 = other
    · have hkey : entry.1 ≠ key := fun h => hne (h.symm.trans hother)
      simp [hother, Ne.symm hne]
    · by_cases hkey : entry.1 = key <;> simp_all

/-- Changes of two entries. -/
theorem modify_modify (t : Table κ α) (key other : κ) (f : α → α) :
    (t.modify key f).modify other f = (t.modify other f).modify key f := by
  unfold modify
  dsimp only
  rw [List.map_map, List.map_map]
  congr 1
  refine List.map_congr_left fun entry _ => ?_
  obtain ⟨name, value⟩ := entry
  by_cases hkey : name = key
  · subst hkey
    by_cases hother : name = other <;> simp [hother]
  · by_cases hother : name = other
    · subst hother
      simp [hkey]
    · simp [hkey, hother]

/-- The entries after an insertion are the new one and those before. -/
theorem mem_entries_insert {entry : κ × α}
    (h : entry ∈ (t.insert key value).entries) : entry = (key, value) ∨ entry ∈ t.entries := by
  obtain ⟨entries⟩ := t
  change entry ∈ insertEntry key value entries at h
  induction entries with
  | nil => exact .inl (List.mem_singleton.mp h)
  | cons first rest ih =>
    rw [insertEntry] at h
    split at h
    · exact (List.mem_cons.mp h).imp_right (List.mem_cons_of_mem _)
    · rcases List.mem_cons.mp h with rfl | h
      · exact .inr List.mem_cons_self
      · exact (ih h).imp_right (List.mem_cons_of_mem _)

private theorem entries_foldl_insert (h : (t.keys ++ entries.map Prod.fst).Nodup) :
    (entries.foldl (fun t e => t.insert e.1 e.2) t).entries = t.entries ++ entries := by
  induction entries generalizing t with
  | nil => exact (List.append_nil _).symm
  | cons entry rest ih =>
    have hnew : entry.1 ∉ t.keys := by
      rw [List.map_cons, List.nodup_append] at h
      exact fun hmem => h.2.2 _ hmem _ List.mem_cons_self rfl
    have hkeys : (⟨t.entries ++ [entry]⟩ : Table κ α).keys = t.keys ++ [entry.1] := by simp [keys]
    rw [List.foldl_cons, insert_of_not_mem hnew, ih, List.append_assoc, List.singleton_append]
    rwa [hkeys, List.append_assoc]

/-- A table made from a list with keys that are apart has the list as its entries. -/
theorem entries_ofList (h : (entries.map Prod.fst).Nodup) : (ofList entries).entries = entries :=
  entries_foldl_insert h

end BlockScript.Table
