import Yini.Proofs.Table
import Yini.Proofs.Value
import Yini.Ybin.Layout

/-!
The form of an encoded document, as a function from documents to bytes that knows nothing of writing
or reading.  Both sides of the codec are compared with it: the writer produces these bytes
(`Yini.Proofs.Ybin.Writing`), and the reader turns them back (`Yini.Proofs.Ybin.Reading`).

Three questions decide what becomes of a document: whether all its values have a form at all
(`Value.encodable`), whether its counts and lengths fit their four bytes (`Value.fits`), and how
deeply its containers nest (`Value.levels`).
-/

namespace Yini

namespace Value

/-! ## Values that have a form -/

mutual

/-- Whether no operation and no rule stands in the value, at any depth. -/
def encodable : Value → Bool
  | atom _ _ => true
  | sequence _ items _ => allEncodable items
  | record _ fields _ => allFieldsEncodable fields
  | binary .. => false
  | neg .. => false
  | rule .. => false
termination_by structural v => v

/-- Whether every value of a list is encodable. -/
def allEncodable : List Value → Bool
  | [] => true
  | v :: vs => encodable v && allEncodable vs
termination_by structural vs => vs

/-- Whether the value of every field is encodable. -/
def allFieldsEncodable : List (String × Value) → Bool
  | [] => true
  | (_, v) :: fs => encodable v && allFieldsEncodable fs
termination_by structural fs => fs

end

/-- A list has a form exactly if all its values have one. -/
theorem allEncodable_iff {vs : List Value} : allEncodable vs ↔ ∀ v ∈ vs, v.encodable := by
  induction vs with
  | nil => simp [allEncodable]
  | cons v vs ih => simp [allEncodable, ih]

/-- Fields have a form exactly if all their values have one. -/
theorem allFieldsEncodable_iff {fs : Entries Value} :
    allFieldsEncodable fs ↔ ∀ e ∈ fs, e.2.encodable := by
  induction fs with
  | nil => simp [allFieldsEncodable]
  | cons e fs ih => obtain ⟨k, v⟩ := e; simp [allFieldsEncodable, ih]

/-- A list has no form exactly if one of its values has none. -/
theorem allEncodable_eq_false_iff {vs : List Value} :
    allEncodable vs = false ↔ ∃ v ∈ vs, v.encodable = false := by
  induction vs with
  | nil => simp [allEncodable]
  | cons v vs ih =>
    rw [allEncodable, Bool.and_eq_false_iff, ih]
    simp only [List.mem_cons, exists_eq_or_imp]

/-- Fields have no form exactly if one of their values has none. -/
theorem allFieldsEncodable_eq_false_iff {fs : Entries Value} :
    allFieldsEncodable fs = false ↔ ∃ e ∈ fs, e.2.encodable = false := by
  induction fs with
  | nil => simp [allFieldsEncodable]
  | cons e fs ih =>
    obtain ⟨k, v⟩ := e
    rw [allFieldsEncodable, Bool.and_eq_false_iff, ih]
    simp only [List.mem_cons, exists_eq_or_imp]

/-! ## Nesting -/

mutual

/-- How deeply containers nest in the value.  An empty container is a level as well. -/
def levels : Value → Nat
  | atom _ _ => 0
  | sequence _ items _ => maxLevels items + 1
  | record _ fields _ => maxFieldLevels fields + 1
  -- what has no form is never nested in one
  | binary .. => 0
  | neg .. => 0
  | rule .. => 0
termination_by structural v => v

/-- The deepest nesting in a list of values. -/
def maxLevels : List Value → Nat
  | [] => 0
  | v :: vs => max (levels v) (maxLevels vs)
termination_by structural vs => vs

/-- The deepest nesting in the values of fields. -/
def maxFieldLevels : List (String × Value) → Nat
  | [] => 0
  | (_, v) :: fs => max (levels v) (maxFieldLevels fs)
termination_by structural fs => fs

end

/-- A list nests as deeply as its deepest value. -/
theorem maxLevels_le_iff {vs : List Value} {n : Nat} :
    maxLevels vs ≤ n ↔ ∀ v ∈ vs, v.levels ≤ n := by
  induction vs with
  | nil => simp [maxLevels]
  | cons v vs ih => simp only [maxLevels, Nat.max_le, ih, List.forall_mem_cons]

/-- Fields nest as deeply as the deepest of their values. -/
theorem maxFieldLevels_le_iff {fs : Entries Value} {n : Nat} :
    maxFieldLevels fs ≤ n ↔ ∀ e ∈ fs, e.2.levels ≤ n := by
  induction fs with
  | nil => simp [maxFieldLevels]
  | cons e fs ih =>
    obtain ⟨k, v⟩ := e
    simp only [maxFieldLevels, Nat.max_le, ih, List.forall_mem_cons]

end Value

namespace Ybin

/-! ## Numbers that fit -/

/-- Whether a count fits its four bytes. -/
def fits (n : Nat) : Bool := n < Nat.pow 2 32

/-- Whether the length of a text in bytes fits. -/
def textFits (s : String) : Bool := fits s.utf8ByteSize

/-- Whether the text of an atom fits, if it has one. -/
def atomFits : Atom → Bool
  | .string s => textFits s
  | .path p => textFits p
  | .reference r => textFits r.target
  | .dyna e => textFits e
  | _ => true

mutual

/-- Whether all texts and counts of a value fit. -/
def valueFits : Value → Bool
  | .atom a _ => atomFits a
  | .sequence _ items _ => fits items.length && allFit items
  | .record _ fields _ => fits fields.length && allFieldsFit fields
  | .binary .. => true
  | .neg .. => true
  | .rule .. => true
termination_by structural v => v

/-- Whether every value of a list fits. -/
def allFit : List Value → Bool
  | [] => true
  | v :: vs => valueFits v && allFit vs
termination_by structural vs => vs

/-- Whether the name and the value of every field fit. -/
def allFieldsFit : List (String × Value) → Bool
  | [] => true
  | (k, v) :: fs => textFits k && valueFits v && allFieldsFit fs
termination_by structural fs => fs

end

/-- A list fits exactly if all its values do; its own count is another question. -/
theorem allFit_iff {vs : List Value} : allFit vs ↔ ∀ v ∈ vs, valueFits v := by
  induction vs with
  | nil => simp [allFit]
  | cons v vs ih => simp [allFit, ih]

/-- Fields fit exactly if all their names and values do. -/
theorem allFieldsFit_iff {fs : Entries Value} :
    allFieldsFit fs ↔ ∀ e ∈ fs, textFits e.1 ∧ valueFits e.2 := by
  induction fs with
  | nil => simp [allFieldsFit]
  | cons e fs ih => obtain ⟨k, v⟩ := e; simp [allFieldsFit, ih]

/-! ## The form -/

/-- A count. -/
def countForm (n : Nat) : List UInt8 := bytes32 n.toUInt32

/-- A text: its length in bytes, and its UTF-8. -/
def textForm (s : String) : List UInt8 := countForm s.utf8ByteSize ++ s.toUTF8.data.toList

/-- A truth value. -/
def boolForm (b : Bool) : List UInt8 := [if b then 1 else 0]

/-- The tag of an atom. -/
def atomTag : Atom → Tag
  | .int _ => .int
  | .float _ => .float
  | .bool _ => .bool
  | .string _ => .string
  | .color _ => .color
  | .coord _ => .coord
  | .path _ => .path
  | .reference _ => .reference
  | .dyna _ => .dyna

/-- What follows the tag of an atom. -/
def atomForm : Atom → List UInt8
  | .int n => bytes32 n.toUInt32
  | .float x => bytes32 x.bits
  | .bool b => boolForm b
  | .string s => textForm s
  | .color c => [c.red, c.green, c.blue, c.alpha]
  | .coord c => boolForm c.spatial ++ bytes32 c.x.bits ++ bytes32 c.y.bits ++ bytes32 c.z.bits
  | .path p => textForm p
  | .reference r => referenceByte r.kind :: textForm r.target
  | .dyna e => textForm e

mutual

/-- The form of a value: its tag, and what follows it.  Operations and rules have none. -/
def valueForm : Value → List UInt8
  | .atom a _ => (atomTag a).byte :: atomForm a
  | .sequence k items _ => (Tag.sequence k).byte :: (countForm items.length ++ itemsForm items)
  | .record k fields _ => (Tag.record k).byte :: (countForm fields.length ++ fieldsForm fields)
  | .binary .. => []
  | .neg .. => []
  | .rule .. => []
termination_by structural v => v

/-- The forms of the values of a list, one after the other. -/
def itemsForm : List Value → List UInt8
  | [] => []
  | v :: vs => valueForm v ++ itemsForm vs
termination_by structural vs => vs

/-- The forms of fields, one after the other. -/
def fieldsForm : List (String × Value) → List UInt8
  | [] => []
  | (k, v) :: fs => textForm k ++ valueForm v ++ fieldsForm fs
termination_by structural fs => fs

end

/-- The form of one field. -/
def fieldForm (e : String × Value) : List UInt8 := textForm e.1 ++ valueForm e.2

/-- The form of a list is that of its values, one after the other. -/
theorem itemsForm_eq (vs : List Value) : itemsForm vs = vs.flatMap valueForm := by
  induction vs with
  | nil => rfl
  | cons v vs ih => rw [itemsForm, ih, List.flatMap_cons]

/-- The form of fields is that of each field, one after the other. -/
theorem fieldsForm_eq (fs : Entries Value) : fieldsForm fs = fs.flatMap fieldForm := by
  induction fs with
  | nil => rfl
  | cons e fs ih => rw [fieldsForm, ih, List.flatMap_cons, fieldForm]

/-- A count, and the forms of as many items. -/
def countedForm {α : Type} (form : α → List UInt8) (as : List α) : List UInt8 :=
  countForm as.length ++ as.flatMap form

/-- The form of a section. -/
def sectionForm (s : Section) : List UInt8 :=
  textForm s.name ++ (countedForm textForm s.parents ++
    (countedForm fieldForm s.properties.entries ++ countedForm valueForm s.registry))

/-- The form of a document: the mark, the version, and the sections. -/
def documentForm (d : Document) : List UInt8 :=
  bytes32 magic.toUInt32 ++ ([version] ++ countedForm sectionForm d.sections.values)

end Ybin

end Yini
