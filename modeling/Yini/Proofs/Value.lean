import Yini.Document.Basic

/-!
Facts about the tree of a value that hold for every kind of node.

* `Value.induction` — induction over values: a node may use what holds of all its parts.  The lists of
  parts are plain lists here, so no proof needs a second induction for them.
* `Value.wellFormed` — no record holds two fields of one name.  Reading source text, decoding and
  resolving build records only by inserting fields one after the other, so all values that the library
  makes are well-formed; a value that is written down by hand need not be.
* `Value.isFinite` — no float in the value is infinite or no number.
* `Value.bare` — the value without its places, for statements about contents alone.
-/

namespace Yini

namespace Value

/-! ## Induction -/

/-- Induction over the tree of a value. -/
@[elab_as_elim]
theorem induction {motive : Value → Prop}
    (atom : ∀ a span, motive (.atom a span))
    (sequence : ∀ kind items span, (∀ v ∈ items, motive v) → motive (.sequence kind items span))
    (record : ∀ kind fields span, (∀ e ∈ fields, motive e.2) → motive (.record kind fields span))
    (binary : ∀ l op r span, motive l → motive r → motive (.binary l op r span))
    (neg : ∀ v span, motive v → motive (.neg v span))
    (rule : ∀ marks fallback lower upper span, (∀ v ∈ fallback, motive v) →
      (∀ v ∈ lower, motive v) → (∀ v ∈ upper, motive v) →
      motive (.rule marks fallback lower upper span))
    (v : Value) : motive v := by
  -- the parts of a node are a list of values, a list of fields or an optional value
  refine @Value.rec motive (fun vs => ∀ v ∈ vs, motive v) (fun fs => ∀ e ∈ fs, motive e.2)
    (fun o => ∀ v ∈ o, motive v) (fun e => motive e.2) atom sequence record
    (fun l op r span hl hr => binary l op r span hl hr) (fun v span hv => neg v span hv) rule
    ?_ ?_ ?_ ?_ ?_ ?_ ?_ v
  · exact fun _ h => absurd h List.not_mem_nil
  · intro v vs hv hvs w hw
    rcases List.mem_cons.mp hw with rfl | hw
    · exact hv
    · exact hvs w hw
  · exact fun _ h => absurd h List.not_mem_nil
  · intro e fs he hfs w hw
    rcases List.mem_cons.mp hw with rfl | hw
    · exact he
    · exact hfs w hw
  · exact fun _ h => by cases h
  · intro v hv w hw
    cases hw
    exact hv
  · exact fun _ _ hv => hv

/-! ## Resolved values -/

/-- A list is resolved exactly if all its values are. -/
theorem allResolved_iff {vs : List Value} : allResolved vs ↔ ∀ v ∈ vs, v.isResolved := by
  induction vs with
  | nil => simp [allResolved]
  | cons v vs ih => simp [allResolved, ih]

/-- Fields are resolved exactly if all their values are. -/
theorem allFieldsResolved_iff {fs : Entries Value} :
    allFieldsResolved fs ↔ ∀ e ∈ fs, e.2.isResolved := by
  induction fs with
  | nil => simp [allFieldsResolved]
  | cons e fs ih => obtain ⟨k, v⟩ := e; simp [allFieldsResolved, ih]

/-! ## Well-formed values -/

mutual

/-- Whether no record in the value, at any depth, holds two fields of one name. -/
def wellFormed : Value → Bool
  | atom _ _ => true
  | sequence _ items _ => allWellFormed items
  | record _ fields _ => decide (Entries.keys fields).Nodup && allFieldsWellFormed fields
  | binary l _ r _ => wellFormed l && wellFormed r
  | neg v _ => wellFormed v
  | rule _ d lo hi _ => optionWellFormed d && optionWellFormed lo && optionWellFormed hi
termination_by structural v => v

/-- Whether every value of a list is well-formed. -/
def allWellFormed : List Value → Bool
  | [] => true
  | v :: vs => wellFormed v && allWellFormed vs
termination_by structural vs => vs

/-- Whether the value of every field is well-formed. -/
def allFieldsWellFormed : List (String × Value) → Bool
  | [] => true
  | (_, v) :: fs => wellFormed v && allFieldsWellFormed fs
termination_by structural fs => fs

/-- Whether a value that may be absent is well-formed. -/
def optionWellFormed : Option Value → Bool
  | none => true
  | some v => wellFormed v
termination_by structural o => o

end

/-- A list is well-formed exactly if all its values are. -/
theorem allWellFormed_iff {vs : List Value} : allWellFormed vs ↔ ∀ v ∈ vs, v.wellFormed := by
  induction vs with
  | nil => simp [allWellFormed]
  | cons v vs ih => simp [allWellFormed, ih]

/-- Fields have well-formed values exactly if each of them has one. -/
theorem allFieldsWellFormed_iff {fs : Entries Value} :
    allFieldsWellFormed fs ↔ ∀ e ∈ fs, e.2.wellFormed := by
  induction fs with
  | nil => simp [allFieldsWellFormed]
  | cons e fs ih => obtain ⟨k, v⟩ := e; simp [allFieldsWellFormed, ih]

theorem optionWellFormed_iff {o : Option Value} : optionWellFormed o ↔ ∀ v ∈ o, v.wellFormed := by
  cases o <;> simp [optionWellFormed]

/-- The names of a well-formed record are distinct. -/
theorem nodup_of_wellFormed {k : RecordKind} {fields : Entries Value} {s : Span}
    (h : (record k fields s).wellFormed) : fields.keys.Nodup := by
  simp only [wellFormed, Bool.and_eq_true, decide_eq_true_eq] at h
  exact h.1

/-- The fields of a well-formed record are well-formed. -/
theorem fields_of_wellFormed {k : RecordKind} {fields : Entries Value} {s : Span}
    (h : (record k fields s).wellFormed) : ∀ e ∈ fields, e.2.wellFormed := by
  simp only [wellFormed, Bool.and_eq_true, decide_eq_true_eq] at h
  exact allFieldsWellFormed_iff.mp h.2

/-! ## Finite values -/

end Value

/-- Whether the numbers in an atom are finite. -/
def Atom.isFinite : Atom → Bool
  | .float x => x.isFinite
  | .coord c => c.x.isFinite && c.y.isFinite && c.z.isFinite
  | _ => true

namespace Value

mutual

/-- Whether every float in the value, at any depth, is finite, and every coordinate of a point. -/
def isFinite : Value → Bool
  | atom a _ => a.isFinite
  | sequence _ items _ => allFinite items
  | record _ fields _ => allFieldsFinite fields
  | binary l _ r _ => isFinite l && isFinite r
  | neg v _ => isFinite v
  | rule _ d lo hi _ => optionFinite d && optionFinite lo && optionFinite hi
termination_by structural v => v

/-- Whether every value of a list is finite. -/
def allFinite : List Value → Bool
  | [] => true
  | v :: vs => isFinite v && allFinite vs
termination_by structural vs => vs

/-- Whether the value of every field is finite. -/
def allFieldsFinite : List (String × Value) → Bool
  | [] => true
  | (_, v) :: fs => isFinite v && allFieldsFinite fs
termination_by structural fs => fs

/-- Whether a value that may be absent is finite. -/
def optionFinite : Option Value → Bool
  | none => true
  | some v => isFinite v
termination_by structural o => o

end

/-- A list is finite exactly if all its values are. -/
theorem allFinite_iff {vs : List Value} : allFinite vs ↔ ∀ v ∈ vs, v.isFinite := by
  induction vs with
  | nil => simp [allFinite]
  | cons v vs ih => simp [allFinite, ih]

/-- Fields are finite exactly if all their values are. -/
theorem allFieldsFinite_iff {fs : Entries Value} :
    allFieldsFinite fs ↔ ∀ e ∈ fs, e.2.isFinite := by
  induction fs with
  | nil => simp [allFieldsFinite]
  | cons e fs ih => obtain ⟨k, v⟩ := e; simp [allFieldsFinite, ih]

theorem optionFinite_iff {o : Option Value} : optionFinite o ↔ ∀ v ∈ o, v.isFinite := by
  cases o <;> simp [optionFinite]

/-! ## Values without places -/

mutual

/-- The value with no place at any of its nodes. -/
def bare : Value → Value
  | atom a _ => atom a .none
  | sequence k items _ => sequence k (bareItems items) .none
  | record k fields _ => record k (bareFields fields) .none
  | binary l op r _ => binary (bare l) op (bare r) .none
  | neg v _ => neg (bare v) .none
  | rule m d lo hi _ => rule m (bareOption d) (bareOption lo) (bareOption hi) .none
termination_by structural v => v

/-- The values of a list without places. -/
def bareItems : List Value → List Value
  | [] => []
  | v :: vs => bare v :: bareItems vs
termination_by structural vs => vs

/-- Fields without places. -/
def bareFields : List (String × Value) → List (String × Value)
  | [] => []
  | (k, v) :: fs => (k, bare v) :: bareFields fs
termination_by structural fs => fs

/-- A value that may be absent, without places. -/
def bareOption : Option Value → Option Value
  | none => none
  | some v => some (bare v)
termination_by structural o => o

end

/-- The places are taken from the items of a list one by one. -/
theorem bareItems_eq_map (vs : List Value) : bareItems vs = vs.map bare := by
  induction vs with
  | nil => rfl
  | cons v vs ih => rw [bareItems, ih, List.map_cons]

/-- The places are taken from the values of fields one by one, and the names stay. -/
theorem bareFields_eq_map (fs : Entries Value) : bareFields fs = fs.map fun e => (e.1, e.2.bare) := by
  induction fs with
  | nil => rfl
  | cons e fs ih => rw [bareFields, ih, List.map_cons]

end Value

end Yini
