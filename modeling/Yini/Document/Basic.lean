import Yini.Value.Equality

/-!
Documents: named sections, a table of macros, and the sections that hold schema rules.

A section that is declared again is merged into the first declaration (`Section.merge`): later
properties win, registries are joined, and parents accumulate.  Merging documents is merging their
sections one after the other (`Document.merge`).
-/

namespace Yini

/-- The name of the section whose properties are macros. -/
def defineName : String := "#define"

/-- The name of the section whose registry lists the files to include. -/
def includeName : String := "#include"

/-! ## Sections -/

/-- A named group of properties.  The registry holds the values that were appended with `+=`. -/
structure Section where
  name : String
  parents : List String := []
  properties : Table Value := ∅
  registry : List Value := []
  span : Span := .none
  keySpans : Table Span := ∅

namespace Section

instance : Inhabited Section := ⟨⟨"", [], ∅, [], .none, ∅⟩⟩

/-- Whether the name marks a section with a meaning of its own, such as the one for macros. -/
def isSpecialName (name : String) : Bool :=
  match name.toList with
  | '#' :: _ => true
  | _ => false

/-- Whether the section has a meaning of its own. -/
def isSpecial (s : Section) : Bool := isSpecialName s.name

/-- The names of both lists, each name of the second once and only if it is new. -/
def joinParents (old new : List String) : List String :=
  new.foldl (fun ps p => if p ∈ ps then ps else ps ++ [p]) old

/-- The section with another declaration of it merged in.  Name and position stay those of the first
    declaration. -/
def merge (s other : Section) : Section where
  name := s.name
  parents := joinParents s.parents other.parents
  properties := s.properties.insertAll other.properties.entries
  registry := s.registry ++ other.registry
  span := s.span
  keySpans := s.keySpans.insertAll other.keySpans.entries

/-- Whether every property and every entry of the registry is resolved. -/
def isResolved (s : Section) : Bool :=
  s.properties.values.all Value.isResolved && s.registry.all Value.isResolved

/-- Whether two tables hold the same names with the same values, in whatever order. -/
def sameTable {α : Type} (same : α → α → Bool) (s t : Table α) : Bool :=
  s.size == t.size && s.entries.all fun (k, v) =>
    match t.get? k with
    | some w => same v w
    | none => false

/-- Whether two sections have the same contents; positions do not count. -/
def same (s t : Section) : Bool :=
  s.name == t.name && s.parents == t.parents && sameTable Value.same s.properties t.properties &&
    Value.sameItems s.registry t.registry

end Section

/-! ## Documents -/

/-- Sections, macros and schema sections. -/
structure Document where
  sections : Table Section := ∅
  macros : Table Value := ∅
  schemas : Table Section := ∅

namespace Document

instance : Inhabited Document := ⟨⟨∅, ∅, ∅⟩⟩

/-- The empty document. -/
def empty : Document := ⟨∅, ∅, ∅⟩

/-- The value of a property. -/
def get? (d : Document) (sectionName key : String) : Option Value :=
  (d.sections.get? sectionName).bind (·.properties.get? key)

/-- A table of sections with one more declaration: merged if the name is there, new otherwise. -/
def declare (table : Table Section) (s : Section) : Table Section :=
  match table.get? s.name with
  | some first => table.insert s.name (first.merge s)
  | none => table.insert s.name s

/-- Adds a declaration of a section. -/
def insertSection (d : Document) (s : Section) : Document :=
  { d with sections := declare d.sections s }

/-- Adds a declaration of a schema section. -/
def insertSchema (d : Document) (s : Section) : Document :=
  { d with schemas := declare d.schemas s }

/-- The document with all declarations of another one added; its macros win. -/
def merge (d other : Document) : Document where
  sections := other.sections.values.foldl declare d.sections
  macros := d.macros.insertAll other.macros.entries
  schemas := other.schemas.values.foldl declare d.schemas

/-- The document with a patch applied.  A section that is new comes in whole; of one that is there,
    the properties of the patch win and its registry is appended, and all else stays. -/
def patch (d changes : Document) : Document where
  sections := changes.sections.entries.foldl (fun table (name, s) =>
    match table.get? name with
    | some old =>
      table.insert name
        { old with
          properties := old.properties.insertAll s.properties.entries
          registry := old.registry ++ s.registry }
    | none => table.insert name s) d.sections
  macros := d.macros
  schemas := d.schemas

/-- Whether no reference and no operation is left in any section. -/
def isResolved (d : Document) : Bool := d.sections.values.all Section.isResolved

/-- Whether two documents have the same contents; positions and order do not count. -/
def same (d e : Document) : Bool :=
  Section.sameTable Section.same d.sections e.sections &&
    Section.sameTable Value.same d.macros e.macros &&
    Section.sameTable Section.same d.schemas e.schemas

end Document

end Yini
