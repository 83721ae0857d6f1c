import Yini.Table

/-!
Look-ups and entries of tables.  A name has a value exactly if it stands among the entries
(`mem_entries_iff`), two tables with the same entries are the same, and inserting entries whose names
are new and distinct puts them at the end as they are (`insertAll_of_nodup`).
-/

namespace Yini

variable {α β : Type}

/-! ## Entries -/

namespace Entries

/-- Exactly the names that do not occur have no value. -/
theorem get?_eq_none_iff {es : Entries α} {k : String} : es.get? k = none ↔ k ∉ es.keys := by
  induction es with
  | nil => simp [get?]
  | cons e es ih =>
    obtain ⟨l, v⟩ := e
    by_cases h : l = k
    · simp [get?, h]
    · have hne : k ≠ l := fun heq => h heq.symm
      simp [get?, h, hne, ih]

/-- What is found stands among the entries. -/
theorem mem_of_get? {es : Entries α} {k : String} {v : α} (h : es.get? k = some v) :
    (k, v) ∈ es := by
  induction es with
  | nil => cases h
  | cons e es ih =>
    obtain ⟨l, w⟩ := e
    by_cases hl : l = k
    · simp only [get?, hl, if_true, Option.some.injEq] at h
      subst hl; subst h
      exact List.mem_cons_self
    · rw [get?, if_neg hl] at h
      exact List.mem_cons_of_mem _ (ih h)

/-- If the names are distinct, every entry is found. -/
theorem get?_of_mem {es : Entries α} (hnodup : es.keys.Nodup) {k : String} {v : α}
    (h : (k, v) ∈ es) : es.get? k = some v := by
  induction es with
  | nil => exact absurd h List.not_mem_nil
  | cons e es ih =>
    obtain ⟨l, w⟩ := e
    obtain ⟨hl, hrest⟩ := List.nodup_cons.mp hnodup
    rcases List.mem_cons.mp h with heq | hmem
    · cases heq
      simp [get?]
    · have hne : l ≠ k := by
        rintro rfl
        exact hl (List.mem_map.mpr ⟨_, hmem, rfl⟩)
      rw [get?, if_neg hne]
      exact ih hrest hmem

theorem keys_append (es fs : Entries α) : keys (es ++ fs) = es.keys ++ fs.keys := List.map_append

/-- New entries with distinct names come to stand behind the old ones as they are. -/
theorem insertAll_of_nodup {es new : Entries α} (h : (keys (es ++ new)).Nodup) :
    es.insertAll new = es ++ new := by
  induction new generalizing es with
  | nil => simp [insertAll]
  | cons e new ih =>
    obtain ⟨k, v⟩ := e
    have hk : k ∉ es.keys := by
      intro hmem
      rw [keys_append] at h
      exact (List.nodup_append.mp h).2.2 k hmem k List.mem_cons_self rfl
    have hstep : es.insert k v ++ new = es ++ (k, v) :: new := by
      rw [insert_of_not_mem hk, List.append_assoc, List.singleton_append]
    show insertAll (es.insert k v) new = _
    rw [ih (by rwa [hstep]), hstep]

/-- Entries with distinct names come in as they are. -/
theorem ofList_of_nodup {new : Entries α} (h : new.keys.Nodup) : ofList new = new := by
  rw [← List.nil_append new] at h
  exact insertAll_of_nodup h

/-- Of the values for a name, an inserted one counts before one that was there. -/
theorem get?_insertAll {new : Entries α} (h : new.keys.Nodup) (es : Entries α) (k : String) :
    (es.insertAll new).get? k = (new.get? k).or (es.get? k) := by
  induction new generalizing es with
  | nil => rfl
  | cons e new ih =>
    obtain ⟨l, v⟩ := e
    obtain ⟨hl, hnodup⟩ := List.nodup_cons.mp h
    show (insertAll (es.insert l v) new).get? k = _
    rw [ih hnodup]
    by_cases hk : l = k
    · subst hk
      rw [get?_eq_none_iff.mpr hl, get?_insert_self, get?, if_pos rfl]
      rfl
    · rw [get?_insert_of_ne es hk, get?, if_neg hk]

/-- Giving a name the value that it has changes nothing. -/
theorem insert_of_get? {es : Entries α} {k : String} {v : α} (h : es.get? k = some v) :
    es.insert k v = es := by
  induction es with
  | nil => cases h
  | cons e es ih =>
    obtain ⟨l, w⟩ := e
    by_cases hl : l = k
    · subst hl
      rw [get?, if_pos rfl] at h
      rw [insert, if_pos rfl, Option.some.inj h]
    · rw [get?, if_neg hl] at h
      rw [insert, if_neg hl, ih h]

/-- Of two values for one name, the second stays. -/
theorem insert_insert (es : Entries α) (k : String) (v w : α) :
    (es.insert k v).insert k w = es.insert k w := by
  induction es with
  | nil => simp [insert]
  | cons e es ih =>
    obtain ⟨l, u⟩ := e
    by_cases hl : l = k
    · simp [insert, hl]
    · simp [insert, hl, ih]

/-- Values can be mapped before or after one of them is inserted. -/
theorem map_insert (f : α → β) (es : Entries α) (k : String) (v : α) :
    (es.insert k v).map (fun e => (e.1, f e.2)) = insert (es.map fun e => (e.1, f e.2)) k (f v) := by
  induction es with
  | nil => rfl
  | cons e es ih =>
    obtain ⟨l, w⟩ := e
    by_cases hl : l = k
    · rw [insert, if_pos hl, List.map_cons, List.map_cons, insert, if_pos hl]
    · rw [insert, if_neg hl, List.map_cons, List.map_cons, insert, if_neg hl, ih]

/-- Inserting brings in no other entry than its own. -/
theorem mem_insert {es : Entries α} {k : String} {v : α} {e : String × α} (h : e ∈ es.insert k v) :
    e ∈ es ∨ e = (k, v) := by
  induction es with
  | nil => exact .inr (List.mem_singleton.mp h)
  | cons f es ih =>
    obtain ⟨k', v'⟩ := f
    by_cases hk : k' = k
    · rw [insert, if_pos hk] at h
      rcases List.mem_cons.mp h with rfl | h
      · exact .inr rfl
      · exact .inl (List.mem_cons_of_mem _ h)
    · rw [insert, if_neg hk] at h
      rcases List.mem_cons.mp h with rfl | h
      · exact .inl List.mem_cons_self
      · exact (ih h).imp_left (List.mem_cons_of_mem _)

/-- What holds of all new entries holds of those that are inserted. -/
theorem forall_mem_insertAll {P : String × α → Prop} {new : Entries α} (hnew : ∀ e ∈ new, P e)
    {es : Entries α} (hes : ∀ e ∈ es, P e) : ∀ e ∈ es.insertAll new, P e := by
  induction new generalizing es with
  | nil => exact hes
  | cons e new ih =>
    refine ih (fun f hf => hnew f (List.mem_cons_of_mem _ hf)) fun f hf => ?_
    rcases mem_insert hf with hf | rfl
    · exact hes f hf
    · exact hnew _ List.mem_cons_self

/-- Entries that are there already change nothing. -/
theorem insertAll_of_get? {es new : Entries α} (h : ∀ e ∈ new, es.get? e.1 = some e.2) :
    es.insertAll new = es := by
  induction new with
  | nil => rfl
  | cons e new ih =>
    show insertAll (es.insert e.1 e.2) new = es
    rw [insert_of_get? (h e List.mem_cons_self)]
    exact ih fun f hf => h f (List.mem_cons_of_mem _ hf)

theorem keys_map (f : α → β) (es : Entries α) :
    keys (es.map fun e => (e.1, f e.2)) = es.keys := by
  simp [keys]

/-- Looking a name up among mapped values is mapping the value that is found. -/
theorem get?_map (f : α → β) (es : Entries α) (k : String) :
    get? (es.map fun e => (e.1, f e.2)) k = (es.get? k).map f := by
  induction es with
  | nil => rfl
  | cons e es ih =>
    obtain ⟨l, v⟩ := e
    by_cases h : l = k
    · simp [get?, h]
    · simp only [List.map_cons, get?, if_neg h, ih]

end Entries

/-! ## Tables -/

namespace Table

/-- Exactly the names that do not occur have no value. -/
theorem get?_eq_none_iff {t : Table α} {k : String} : t.get? k = none ↔ k ∉ t.keys :=
  Entries.get?_eq_none_iff

/-- **The entries of a table are what is found in it.** -/
theorem mem_entries_iff {t : Table α} {k : String} {v : α} :
    (k, v) ∈ t.entries ↔ t.get? k = some v :=
  ⟨Entries.get?_of_mem t.nodup_keys, Entries.mem_of_get?⟩

/-- A table contains the names that occur in it. -/
theorem contains_iff {t : Table α} {k : String} : t.contains k ↔ k ∈ t.keys := by
  rw [contains, Option.isSome_iff_ne_none, ne_eq, get?_eq_none_iff, Decidable.not_not]

/-- The values of a table are those that are found under some name. -/
theorem mem_values_iff {t : Table α} {v : α} : v ∈ t.values ↔ ∃ k, t.get? k = some v := by
  simp only [values, List.mem_map, Prod.exists, mem_entries_iff, exists_eq_right]

/-- The entries of a table make the table again. -/
theorem ofList_entries (t : Table α) : ofList t.entries = t :=
  Table.ext (Entries.ofList_of_nodup t.nodup_keys)

/-- A new name comes to stand at the end. -/
theorem entries_insert_of_not_mem {t : Table α} {k : String} {v : α} (h : k ∉ t.keys) :
    (t.insert k v).entries = t.entries ++ [(k, v)] :=
  Entries.insert_of_not_mem h

/-- In a table with another one inserted, the value of that counts where it has one. -/
theorem get?_insertAll (s t : Table α) (k : String) :
    (s.insertAll t.entries).get? k = (t.get? k).or (s.get? k) :=
  Entries.get?_insertAll t.nodup_keys s.entries k

theorem get?_modify_self (t : Table α) (k : String) (f : α → α) :
    (t.modify k f).get? k = (t.get? k).map f := by
  unfold modify
  cases h : t.get? k with
  | none => exact h
  | some v => exact get?_insert_self t k (f v)

theorem get?_modify_of_ne (t : Table α) {k l : String} (h : k ≠ l) (f : α → α) :
    (t.modify k f).get? l = t.get? l := by
  unfold modify
  cases t.get? k with
  | none => rfl
  | some v => exact get?_insert_of_ne t h (f v)

/-- Inserting what is there already changes nothing. -/
theorem insertAll_of_get? {s t : Table α} (h : ∀ k v, t.get? k = some v → s.get? k = some v) :
    s.insertAll t.entries = s :=
  Table.ext (Entries.insertAll_of_get? fun e he => h e.1 e.2 (mem_entries_iff.mp he))

/-- There is nothing to change under a name without a value. -/
theorem modify_of_get?_eq_none {t : Table α} {k : String} (h : t.get? k = none) (f : α → α) :
    t.modify k f = t := by
  rw [modify, h]

/-- Changing a value is inserting the changed one. -/
theorem modify_of_get? {t : Table α} {k : String} {v : α} (h : t.get? k = some v) (f : α → α) :
    t.modify k f = t.insert k (f v) := by
  rw [modify, h]

/-- Giving a name the value that it has changes nothing. -/
theorem insert_of_get? {t : Table α} {k : String} {v : α} (h : t.get? k = some v) : t.insert k v = t :=
  Table.ext (Entries.insert_of_get? h)

/-- Of two values for one name, the second stays. -/
theorem insert_insert (t : Table α) (k : String) (v w : α) :
    (t.insert k v).insert k w = t.insert k w :=
  Table.ext (Entries.insert_insert t.entries k v w)

/-- A change that leaves the value as it is leaves the table as it is. -/
theorem modify_eq_self {t : Table α} {k : String} {f : α → α}
    (h : ∀ v, t.get? k = some v → f v = v) : t.modify k f = t := by
  cases hv : t.get? k with
  | none => exact modify_of_get?_eq_none hv f
  | some v =>
    rw [modify_of_get? hv, h v hv, insert_of_get? hv]

theorem modify_modify (t : Table α) (k : String) (f g : α → α) :
    (t.modify k f).modify k g = t.modify k (g ∘ f) := by
  cases hv : t.get? k with
  | none => rw [modify_of_get?_eq_none hv, modify_of_get?_eq_none hv, modify_of_get?_eq_none hv]
  | some v =>
    have hget : (t.insert k (f v)).get? k = some (f v) := get?_insert_self t k (f v)
    rw [modify_of_get? hv, modify_of_get? hget, modify_of_get? hv, insert_insert]
    rfl

/-- The entries of a list with distinct names are the entries of its table. -/
theorem entries_ofList {es : Entries α} (h : es.keys.Nodup) : (ofList es).entries = es :=
  Entries.ofList_of_nodup h

/-- The table with every value changed. -/
def mapValues (f : α → β) (t : Table α) : Table β where
  entries := t.entries.map fun e => (e.1, f e.2)
  nodup_keys := by rw [Entries.keys_map]; exact t.nodup_keys

/-- A table stays as it is if all its values do. -/
theorem mapValues_eq_self {f : α → α} {t : Table α} (h : ∀ k v, t.get? k = some v → f v = v) :
    t.mapValues f = t :=
  Table.ext ((List.map_congr_left fun e he => by rw [h e.1 e.2 (mem_entries_iff.mp he)]).trans
    (List.map_id' _))

/-- Values can be mapped before or after one of them is inserted. -/
theorem mapValues_insert (f : α → β) (t : Table α) (k : String) (v : α) :
    (t.insert k v).mapValues f = (t.mapValues f).insert k (f v) :=
  Table.ext (Entries.map_insert f t.entries k v)

/-- Values can be mapped before or after entries are inserted. -/
theorem mapValues_insertAll (f : α → β) (t : Table α) (new : Entries α) :
    (t.insertAll new).mapValues f = (t.mapValues f).insertAll (new.map fun e => (e.1, f e.2)) := by
  induction new generalizing t with
  | nil => rfl
  | cons e new ih =>
    show ((t.insert e.1 e.2).insertAll new).mapValues f = _
    rw [ih, mapValues_insert]
    rfl

/-- A change that the function does not see. -/
theorem mapValues_modify {f : α → β} {g : α → α} (h : ∀ v, f (g v) = f v) (t : Table α) (k : String) :
    (t.modify k g).mapValues f = t.mapValues f := by
  unfold modify
  split
  next v hv =>
    have hget : (t.mapValues f).get? k = some (f v) := by
      show Entries.get? _ k = _
      rw [mapValues, Entries.get?_map]
      exact congrArg (Option.map f) hv
    rw [mapValues_insert, h, insert_of_get? hget]
  next => rfl

/-- Looking a name up in a mapped table is mapping the value that is found. -/
theorem get?_mapValues (f : α → β) (t : Table α) (k : String) :
    (t.mapValues f).get? k = (t.get? k).map f :=
  Entries.get?_map f t.entries k

end Table

end Yini
