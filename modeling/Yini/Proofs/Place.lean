import Yini.Proofs.Document
import Yini.Proofs.Merge

/-!
Changing the places in a document.

`Value.mapPlaces`, `Section.mapPlaces` and `Document.mapPlaces` put a function of the place in the place
of every position, and change nothing else.  Declaring sections and merging do not look at places, so a
document may be changed before or after its sections are inserted.
-/

namespace Yini

/-- The position so many lines further down. -/
def Span.down (lines : Nat) (s : Span) : Span := { s with line := s.line + lines }

/-! ## Values -/

namespace Value

variable {f : Span → Span}

mutual

/-- The value with another place at each of its nodes. -/
def mapPlaces (f : Span → Span) : Value → Value
  | atom a s => atom a (f s)
  | sequence k items s => sequence k (mapItemPlaces f items) (f s)
  | record k fields s => record k (mapFieldPlaces f fields) (f s)
  | binary l op r s => binary (mapPlaces f l) op (mapPlaces f r) (f s)
  | neg v s => neg (mapPlaces f v) (f s)
  | rule m d lo hi s => rule m (mapOptionPlaces f d) (mapOptionPlaces f lo) (mapOptionPlaces f hi) (f s)
termination_by structural v => v

/-- The values of a list with other places. -/
def mapItemPlaces (f : Span → Span) : List Value → List Value
  | [] => []
  | v :: vs => mapPlaces f v :: mapItemPlaces f vs
termination_by structural vs => vs

/-- Fields with other places. -/
def mapFieldPlaces (f : Span → Span) : List (String × Value) → List (String × Value)
  | [] => []
  | (k, v) :: fs => (k, mapPlaces f v) :: mapFieldPlaces f fs
termination_by structural fs => fs

/-- A value that may be absent, with other places. -/
def mapOptionPlaces (f : Span → Span) : Option Value → Option Value
  | none => none
  | some v => some (mapPlaces f v)
termination_by structural o => o

end

/-- Places in a list are changed item by item. -/
theorem mapItemPlaces_eq_map (vs : List Value) : mapItemPlaces f vs = vs.map (mapPlaces f) := by
  induction vs with
  | nil => rfl
  | cons v vs ih => rw [mapItemPlaces, ih, List.map_cons]

/-- Places in fields are changed value by value, and the names stay. -/
theorem mapFieldPlaces_eq_map (fs : Entries Value) :
    mapFieldPlaces f fs = fs.map fun e => (e.1, e.2.mapPlaces f) := by
  induction fs with
  | nil => rfl
  | cons e fs ih => rw [mapFieldPlaces, ih, List.map_cons]

theorem mapOptionPlaces_eq_map (o : Option Value) : mapOptionPlaces f o = o.map (mapPlaces f) := by
  cases o <;> rfl

/-- The place of the value itself is changed like all others. -/
theorem span_mapPlaces (v : Value) : (v.mapPlaces f).span = f v.span := by
  cases v <;> rfl

/-- Without its places the value is the same. -/
theorem bare_mapPlaces (v : Value) : (v.mapPlaces f).bare = v.bare := by
  have hoption : ∀ o : Option Value, (∀ v ∈ o, (v.mapPlaces f).bare = v.bare) →
      bareOption (mapOptionPlaces f o) = bareOption o := by
    intro o h
    cases o with
    | none => rfl
    | some v => rw [mapOptionPlaces, bareOption, bareOption, h v rfl]
  induction v using Value.induction with
  | atom => rfl
  | sequence kind items span ih =>
    have hitems : items.map (bare ∘ mapPlaces f) = items.map bare := List.map_congr_left ih
    rw [mapPlaces, bare, bare, bareItems_eq_map, bareItems_eq_map, mapItemPlaces_eq_map, List.map_map,
      hitems]
  | record kind fields span ih =>
    have hfields : fields.map ((fun e => (e.1, e.2.bare)) ∘ fun e => (e.1, e.2.mapPlaces f)) =
        fields.map fun e => (e.1, e.2.bare) :=
      List.map_congr_left fun e he => congrArg (Prod.mk e.1) (ih e he)
    rw [mapPlaces, bare, bare, bareFields_eq_map, bareFields_eq_map, mapFieldPlaces_eq_map, List.map_map,
      hfields]
  | binary l op r span hl hr => rw [mapPlaces, bare, bare, hl, hr]
  | neg v span ih => rw [mapPlaces, bare, bare, ih]
  | rule marks fallback lower upper span hd hlo hhi =>
    rw [mapPlaces, bare, bare, hoption fallback hd, hoption lower hlo, hoption upper hhi]

/-- A change of places that changes none changes no value. -/
theorem mapPlaces_id (h : ∀ s, f s = s) (v : Value) : v.mapPlaces f = v := by
  have hoption : ∀ o : Option Value, (∀ v ∈ o, v.mapPlaces f = v) → mapOptionPlaces f o = o := by
    intro o h
    cases o with
    | none => rfl
    | some v => rw [mapOptionPlaces, h v rfl]
  induction v using Value.induction with
  | atom a span => rw [mapPlaces, h]
  | sequence kind items span ih =>
    have hitems : items.map (mapPlaces f) = items := (List.map_congr_left ih).trans items.map_id
    rw [mapPlaces, mapItemPlaces_eq_map, h, hitems]
  | record kind fields span ih =>
    have hfields : fields.map (fun e => (e.1, e.2.mapPlaces f)) = fields :=
      (List.map_congr_left fun e he => congrArg (Prod.mk e.1) (ih e he)).trans fields.map_id
    rw [mapPlaces, mapFieldPlaces_eq_map, h, hfields]
  | binary l op r span hl hr => rw [mapPlaces, hl, hr, h]
  | neg v span ih => rw [mapPlaces, ih, h]
  | rule marks fallback lower upper span hd hlo hhi =>
    rw [mapPlaces, hoption fallback hd, hoption lower hlo, hoption upper hhi, h]

end Value

/-! ## Sections and documents -/

variable {f : Span → Span}

/-- Values of a table that do not change. -/
theorem Table.mapValues_id {α : Type} {g : α → α} (h : ∀ a, g a = a) (t : Table α) :
    t.mapValues g = t := by
  apply Table.ext
  have hentries : ∀ e ∈ t.entries, (e.1, g e.2) = e := fun e _ => congrArg (Prod.mk e.1) (h e.2)
  exact (List.map_congr_left hentries).trans t.entries.map_id

namespace Section

/-- The section with other places. -/
def mapPlaces (f : Span → Span) (s : Section) : Section where
  name := s.name
  parents := s.parents
  properties := s.properties.mapValues (Value.mapPlaces f)
  registry := s.registry.map (Value.mapPlaces f)
  span := f s.span
  keySpans := s.keySpans.mapValues f

/-- Sections are merged whatever their places are. -/
theorem mapPlaces_merge (s t : Section) :
    (s.merge t).mapPlaces f = (s.mapPlaces f).merge (t.mapPlaces f) := by
  unfold mapPlaces merge
  rw [Table.mapValues_insertAll, Table.mapValues_insertAll, List.map_append]
  rfl

theorem mapPlaces_id (h : ∀ s, f s = s) (s : Section) : s.mapPlaces f = s := by
  have hregistry : s.registry.map (Value.mapPlaces f) = s.registry :=
    (List.map_congr_left fun v _ => Value.mapPlaces_id h v).trans s.registry.map_id
  rw [mapPlaces, Table.mapValues_id (Value.mapPlaces_id h), Table.mapValues_id h, hregistry, h]

end Section

namespace Document

/-- The document with other places. -/
def mapPlaces (f : Span → Span) (d : Document) : Document where
  sections := d.sections.mapValues (Section.mapPlaces f)
  macros := d.macros.mapValues (Value.mapPlaces f)
  schemas := d.schemas.mapValues (Section.mapPlaces f)

/-- Places can be changed before or after a section is inserted. -/
theorem mapPlaces_insertSection (d : Document) (s : Section) :
    (d.insertSection s).mapPlaces f = (d.mapPlaces f).insertSection (s.mapPlaces f) :=
  congrArg (fun sections => { d.mapPlaces f with sections })
    (mapValues_declare (Section.mapPlaces f) (fun _ => rfl) Section.mapPlaces_merge d.sections s)

/-- Places can be changed before or after a schema is inserted. -/
theorem mapPlaces_insertSchema (d : Document) (s : Section) :
    (d.insertSchema s).mapPlaces f = (d.mapPlaces f).insertSchema (s.mapPlaces f) :=
  congrArg (fun schemas => { d.mapPlaces f with schemas })
    (mapValues_declare (Section.mapPlaces f) (fun _ => rfl) Section.mapPlaces_merge d.schemas s)

/-- A change that keeps every place keeps the document. -/
theorem mapPlaces_id (h : ∀ s, f s = s) (d : Document) : d.mapPlaces f = d := by
  rw [mapPlaces, Table.mapValues_id (Section.mapPlaces_id h), Table.mapValues_id (Section.mapPlaces_id h),
    Table.mapValues_id (Value.mapPlaces_id h)]

/-- Sections stay under their names. -/
theorem IsNamed.mapPlaces {d : Document} (h : d.IsNamed) (f : Span → Span) :
    (d.mapPlaces f).IsNamed := by
  have hnamed : ∀ {t : Table Section}, Named t → Named (t.mapValues (Section.mapPlaces f)) := by
    intro t ht k s hs
    rw [Table.get?_mapValues] at hs
    obtain ⟨u, hu, rfl⟩ := Option.map_eq_some_iff.mp hs
    exact ht k u hu
  exact ⟨hnamed h.sections, hnamed h.schemas⟩

end Document

end Yini
