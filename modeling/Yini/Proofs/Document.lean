import Yini.Proofs.Table
import Yini.Proofs.Value
import Yini.Resolve.Document

/-!
Documents without their places, and look-ups after the steps that change a document: adopting the
properties of a parent, gathering the macros, and noting the value of a macro.
-/

namespace Yini

/-- The values of a section: its properties, and its registry. -/
def Section.contents (s : Section) : List Value := s.properties.values ++ s.registry

/-- The values of properties belong to the contents. -/
theorem Section.mem_contents_of_property {s : Section} {e : String × Value}
    (h : e ∈ s.properties.entries) : e.2 ∈ s.contents :=
  List.mem_append_left _ (List.mem_map.mpr ⟨e, h, rfl⟩)

/-- What stands in the registry belongs to the contents. -/
theorem Section.mem_contents_of_entry {s : Section} {v : Value} (h : v ∈ s.registry) :
    v ∈ s.contents :=
  List.mem_append_right _ h

/-- What a section is headed by: its name and its parents. -/
def Section.heading (s : Section) : String × List String := (s.name, s.parents)

/-- All values of a document: those of its sections, of its schemas and of its macros. -/
def Document.values (d : Document) : List Value :=
  (d.sections.values ++ d.schemas.values).flatMap Section.contents ++ d.macros.values

/-- **The values of a document** are the contents of its sections and schemas, and its macros. -/
theorem Document.mem_values {d : Document} {v : Value} :
    v ∈ d.values ↔ ((∃ s ∈ d.sections.values, v ∈ s.contents) ∨
      ∃ s ∈ d.schemas.values, v ∈ s.contents) ∨ v ∈ d.macros.values := by
  simp only [values, List.flatMap_append, List.mem_append, List.mem_flatMap]

/-- The contents of a section are values of the document. -/
theorem Document.mem_values_of_section {d : Document} {n : String} {s : Section}
    (h : d.sections.get? n = some s) {v : Value} (hv : v ∈ s.contents) : v ∈ d.values :=
  mem_values.mpr (.inl (.inl ⟨s, Table.mem_values_iff.mpr ⟨n, h⟩, hv⟩))

/-- The contents of a schema are values of the document. -/
theorem Document.mem_values_of_schema {d : Document} {n : String} {s : Section}
    (h : d.schemas.get? n = some s) {v : Value} (hv : v ∈ s.contents) : v ∈ d.values :=
  mem_values.mpr (.inl (.inr ⟨s, Table.mem_values_iff.mpr ⟨n, h⟩, hv⟩))

theorem Document.mem_values_of_macros {d : Document} {k : String} {v : Value} (h : d.macros.get? k = some v) :
    v ∈ d.values :=
  mem_values.mpr (.inr (Table.mem_values_iff.mpr ⟨k, h⟩))

/-! ## Places -/

/-- The section without places. -/
def Section.bare (s : Section) : Section where
  name := s.name
  parents := s.parents
  properties := s.properties.mapValues Value.bare
  registry := s.registry.map Value.bare

/-- Sections are merged whatever their places are. -/
theorem Section.bare_merge (s t : Section) : (s.merge t).bare = s.bare.merge t.bare := by
  unfold bare merge
  rw [Table.mapValues_insertAll, List.map_append]
  rfl

namespace Document

/-- The document without places. -/
def bare (d : Document) : Document where
  sections := d.sections.mapValues Section.bare
  macros := d.macros.mapValues Value.bare
  schemas := d.schemas.mapValues Section.bare

/-- A change of sections that keeps their names and respects merging may be made before or after a
    section is declared. -/
theorem mapValues_declare (g : Section → Section) (hname : ∀ s, (g s).name = s.name)
    (hmerge : ∀ s t, g (s.merge t) = (g s).merge (g t)) (t : Table Section) (s : Section) :
    (declare t s).mapValues g = declare (t.mapValues g) (g s) := by
  unfold declare
  rw [hname, Table.get?_mapValues]
  cases t.get? s.name with
  | none => exact Table.mapValues_insert _ _ _ _
  | some first =>
    show (t.insert s.name (first.merge s)).mapValues g = (t.mapValues g).insert s.name ((g first).merge (g s))
    rw [Table.mapValues_insert, hmerge]

/-- Places can be taken away before or after a section is inserted. -/
theorem bare_insertSection (d : Document) (s : Section) :
    (d.insertSection s).bare = d.bare.insertSection s.bare :=
  congrArg (fun sections => { d.bare with sections })
    (mapValues_declare Section.bare (fun _ => rfl) Section.bare_merge d.sections s)

/-- Places can be taken away before or after a schema is inserted. -/
theorem bare_insertSchema (d : Document) (s : Section) :
    (d.insertSchema s).bare = d.bare.insertSchema s.bare :=
  congrArg (fun schemas => { d.bare with schemas })
    (mapValues_declare Section.bare (fun _ => rfl) Section.bare_merge d.schemas s)

end Document

/-! ## Adopting properties -/

/-- The section with the properties of a table that it does not have. -/
def Section.adopt (s : Section) (t : Table Value) : Section where
  name := s.name
  parents := s.parents
  properties := t.entries.foldl (fun t (k, v) => if t.contains k then t else t.insert k v) s.properties
  registry := s.registry
  span := s.span
  keySpans := s.keySpans

/-- A property that is there counts before one that is adopted. -/
theorem Section.get?_adopt (s : Section) (t : Table Value) (k : String) :
    (s.adopt t).properties.get? k = (s.properties.get? k).or (t.get? k) := by
  show (List.foldl _ s.properties t.entries).get? k = (s.properties.get? k).or (t.entries.get? k)
  generalize s.properties = u
  induction t.entries generalizing u with
  | nil => exact Option.or_none.symm
  | cons e es ih =>
    obtain ⟨l, v⟩ := e
    rw [List.foldl_cons, ih, Entries.get?]
    by_cases hl : l = k
    · subst hl
      cases hu : u.get? l with
      | none => simp [Table.contains, hu, Table.get?_insert_self]
      | some w => simp [Table.contains, hu]
    · by_cases hc : u.contains l
      · simp [hc, hl]
      · simp [hc, hl, Table.get?_insert_of_ne u hl]

/-- A section that has all the names of a table adopts nothing. -/
theorem Section.adopt_eq_self {s : Section} {t : Table Value}
    (h : ∀ k ∈ t.keys, s.properties.contains k) : s.adopt t = s := by
  have hentries : ∀ es : Entries Value, (∀ e ∈ es, s.properties.contains e.1) →
      es.foldl (fun t (e : String × Value) => if t.contains e.1 then t else t.insert e.1 e.2)
        s.properties = s.properties := by
    intro es hes
    induction es with
    | nil => rfl
    | cons e es ih =>
      rw [List.foldl_cons, if_pos (hes e List.mem_cons_self)]
      exact ih fun f hf => hes f (List.mem_cons_of_mem _ hf)
  have hproperties := hentries t.entries fun e he => h e.1 (List.mem_map.mpr ⟨e, he, rfl⟩)
  exact congrArg (fun properties => { s with properties }) hproperties

/-- Inheriting from a section that is there is adopting its properties. -/
theorem Document.inherit_eq {d : Document} {child parent : String} {s : Section}
    (h : d.sections.get? parent = some s) :
    d.inherit child parent =
      { d with sections := d.sections.modify child (·.adopt s.properties) } := by
  rw [inherit, h]
  rfl

/-! ## Gathering macros -/

theorem Document.sections_gatherMacros (d : Document) : d.gatherMacros.sections = d.sections := by
  unfold gatherMacros
  cases d.sections.get? defineName <;> rfl

theorem Document.schemas_gatherMacros (d : Document) : d.gatherMacros.schemas = d.schemas := by
  unfold gatherMacros
  split <;> rfl

/-- A macro that `[#define]` declares counts before any other of its name. -/
theorem Document.get?_macros_gatherMacros (d : Document) (k : String) :
    d.gatherMacros.macros.get? k = (d.get? defineName k).or (d.macros.get? k) := by
  unfold gatherMacros get?
  cases d.sections.get? defineName with
  | none => rfl
  | some s => exact Table.get?_insertAll d.macros s.properties k

/-! ## Noting the value of a macro -/

/-- The section with the value of a macro noted in it, if it has a property of that name. -/
def Section.note (name : String) (v : Value) (s : Section) : Section :=
  if s.properties.contains name then { s with properties := s.properties.insert name v } else s

namespace Section

@[simp] theorem parents_note (name : String) (v : Value) (s : Section) :
    (s.note name v).parents = s.parents := by
  unfold note
  split <;> rfl

@[simp] theorem heading_note (name : String) (v : Value) (s : Section) :
    (s.note name v).heading = s.heading := by
  unfold note
  split <;> rfl

@[simp] theorem registry_note (name : String) (v : Value) (s : Section) :
    (s.note name v).registry = s.registry := by
  unfold note
  split <;> rfl

/-- The value of a macro is noted where the property is there. -/
theorem get?_note_self (name : String) (v : Value) (s : Section) :
    (s.note name v).properties.get? name = (s.properties.get? name).map fun _ => v := by
  unfold note
  cases h : s.properties.get? name with
  | none => simp [Table.contains, h]
  | some w => simp [Table.contains, h, Table.get?_insert_self]

theorem get?_note_of_ne {name k : String} (h : name ≠ k) (v : Value) (s : Section) :
    (s.note name v).properties.get? k = s.properties.get? k := by
  unfold note
  split
  · exact Table.get?_insert_of_ne s.properties h v
  · rfl

/-- Noting a value that is there changes nothing. -/
theorem note_eq_self {name : String} {v : Value} {s : Section}
    (h : ∀ w, s.properties.get? name = some w → w = v) : s.note name v = s := by
  unfold note
  split
  · next hcontains =>
    obtain ⟨w, hw⟩ := Option.isSome_iff_exists.mp hcontains
    have hsame : s.properties.insert name v = s.properties := by
      rw [← h w hw]
      exact Table.ext (Entries.insert_of_get? hw)
    rw [hsame]
  · rfl

end Section

end Yini
