/-!
Tables from names to values that keep the order in which the names first arrived.  Printing,
encoding and validation walk a table in that order, so it is part of the data.

`Entries` are plain lists of pairs, for places where a table occurs inside the type of its own
values; a `Table` carries the proof that no name occurs twice.  The laws of `insert` say what it
does to the names (`keys_insert_of_mem`, `keys_insert_of_not_mem`) and to look-ups
(`get?_insert_self`, `get?_insert_of_ne`).
-/

namespace Yini

variable {α β : Type}

/-! ## Entries -/

/-- Pairs of a name and a value, in order of arrival. -/
abbrev Entries (α : Type) : Type := List (String × α)

namespace Entries

/-- The names, in order. -/
def keys (es : Entries α) : List String := es.map Prod.fst

/-- The value of a name. -/
def get? : Entries α → String → Option α
  | [], _ => none
  | (k', v) :: es, k => if k' = k then some v else get? es k

/-- Gives a name a value: in place if the name is there, at the end otherwise. -/
def insert : Entries α → String → α → Entries α
  | [], k, v => [(k, v)]
  | (k', v') :: es, k, v => if k' = k then (k, v) :: es else (k', v') :: insert es k v

/-- Inserts the entries of the second list one after the other. -/
def insertAll (es new : Entries α) : Entries α := new.foldl (fun es e => es.insert e.1 e.2) es

/-- The entries inserted into an empty table: of several values for one name the last stays, at the
    place of the first. -/
def ofList (new : List (String × α)) : Entries α := insertAll [] new

@[simp] theorem keys_nil : keys ([] : Entries α) = [] := rfl

@[simp] theorem keys_cons (e : String × α) (es : Entries α) : keys (e :: es) = e.1 :: keys es := rfl

/-- A new value for a name that is there leaves all names where they are. -/
theorem keys_insert_of_mem {es : Entries α} {k : String} {v : α} (h : k ∈ es.keys) :
    (es.insert k v).keys = es.keys := by
  induction es with
  | nil => simp at h
  | cons e es ih =>
    obtain ⟨k', v'⟩ := e
    by_cases hk : k' = k
    · simp [insert, hk]
    · have hmem : k ∈ keys es := by
        rcases List.mem_cons.mp h with h | h
        · exact absurd h.symm hk
        · exact h
      simp [insert, hk, ih hmem]

/-- A new name comes in at the end. -/
theorem insert_of_not_mem {es : Entries α} {k : String} {v : α} (h : k ∉ es.keys) :
    es.insert k v = es ++ [(k, v)] := by
  induction es with
  | nil => rfl
  | cons e es ih =>
    obtain ⟨k', v'⟩ := e
    simp only [keys_cons, List.mem_cons, not_or] at h
    have hk : ¬k' = k := fun heq => h.1 heq.symm
    simp [insert, hk, ih h.2]

theorem keys_insert_of_not_mem {es : Entries α} {k : String} {v : α} (h : k ∉ es.keys) :
    (es.insert k v).keys = es.keys ++ [k] := by
  simp [insert_of_not_mem h, keys]

/-- Inserting keeps the names distinct: a name that is there is not added again. -/
theorem nodup_keys_insert {es : Entries α} (h : es.keys.Nodup) (k : String) (v : α) :
    (es.insert k v).keys.Nodup := by
  by_cases hk : k ∈ es.keys
  · rwa [keys_insert_of_mem hk]
  · rw [keys_insert_of_not_mem hk]
    refine List.nodup_append.mpr ⟨h, by simp, ?_⟩
    intro a ha b hb
    rw [List.mem_singleton.mp hb]
    exact fun heq => hk (heq ▸ ha)

/-- Inserting one entry after the other keeps the names distinct. -/
theorem nodup_keys_insertAll {es : Entries α} (h : es.keys.Nodup) (new : Entries α) :
    (es.insertAll new).keys.Nodup := by
  induction new generalizing es with
  | nil => exact h
  | cons e new ih => exact ih (nodup_keys_insert h e.1 e.2)

/-- The value that was inserted last is found. -/
theorem get?_insert_self (es : Entries α) (k : String) (v : α) :
    (es.insert k v).get? k = some v := by
  induction es with
  | nil => simp [insert, get?]
  | cons e es ih =>
    obtain ⟨k', v'⟩ := e
    by_cases hk : k' = k <;> simp [insert, get?, hk, ih]

/-- Inserting changes nothing about other names. -/
theorem get?_insert_of_ne (es : Entries α) {k k' : String} (h : k ≠ k') (v : α) :
    (es.insert k v).get? k' = es.get? k' := by
  induction es with
  | nil => simp [insert, get?, h]
  | cons e es ih =>
    obtain ⟨l, w⟩ := e
    by_cases hk : l = k
    · subst hk; simp [insert, get?, h]
    · simp [insert, get?, hk, ih]

end Entries

/-! ## Tables -/

/-- Entries in which no name occurs twice. -/
structure Table (α : Type) where
  entries : Entries α
  nodup_keys : entries.keys.Nodup

namespace Table

instance : EmptyCollection (Table α) := ⟨⟨[], by simp⟩⟩

instance : Inhabited (Table α) := ⟨∅⟩

@[ext] theorem ext {s t : Table α} (h : s.entries = t.entries) : s = t := by
  cases s; cases t; cases h; rfl

/-- The names, in order. -/
def keys (t : Table α) : List String := t.entries.keys

/-- The values, in the order of their names. -/
def values (t : Table α) : List α := t.entries.map Prod.snd

/-- The number of entries. -/
def size (t : Table α) : Nat := t.entries.length

/-- Whether there is no entry. -/
def isEmpty (t : Table α) : Bool := t.entries.isEmpty

/-- The value of a name. -/
def get? (t : Table α) (k : String) : Option α := t.entries.get? k

/-- Whether a name has a value. -/
def contains (t : Table α) (k : String) : Bool := (t.get? k).isSome

/-- Gives a name a value: in place if the name is there, at the end otherwise. -/
def insert (t : Table α) (k : String) (v : α) : Table α :=
  ⟨t.entries.insert k v, Entries.nodup_keys_insert t.nodup_keys k v⟩

/-- Inserts all entries, one after the other. -/
def insertAll (t : Table α) (new : Entries α) : Table α :=
  ⟨t.entries.insertAll new, Entries.nodup_keys_insertAll t.nodup_keys new⟩

/-- The entries inserted into an empty table. -/
def ofList (new : Entries α) : Table α := insertAll ∅ new

/-- Changes the value of a name, if it has one. -/
def modify (t : Table α) (k : String) (f : α → α) : Table α :=
  match t.get? k with
  | some v => t.insert k (f v)
  | none => t

/-- The value that was inserted last is found. -/
theorem get?_insert_self (t : Table α) (k : String) (v : α) : (t.insert k v).get? k = some v :=
  Entries.get?_insert_self t.entries k v

/-- Inserting changes nothing about other names. -/
theorem get?_insert_of_ne (t : Table α) {k k' : String} (h : k ≠ k') (v : α) :
    (t.insert k v).get? k' = t.get? k' :=
  Entries.get?_insert_of_ne t.entries h v

/-- A new value for a name that is there leaves all names where they are. -/
theorem keys_insert_of_mem {t : Table α} {k : String} {v : α} (h : k ∈ t.keys) :
    (t.insert k v).keys = t.keys :=
  Entries.keys_insert_of_mem h

theorem keys_insert_of_not_mem {t : Table α} {k : String} {v : α} (h : k ∉ t.keys) :
    (t.insert k v).keys = t.keys ++ [k] :=
  Entries.keys_insert_of_not_mem h

example : ((((∅ : Table Nat).insert "b" 1).insert "a" 2).insert "b" 3).entries =
    [("b", 3), ("a", 2)] := by decide

end Table

end Yini
