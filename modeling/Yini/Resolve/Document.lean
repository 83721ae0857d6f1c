import Yini.Arithmetic
import Yini.Document.Basic
import Yini.Resolve.Providers

/-!
Resolving a document: macros and properties get their values.  References are replaced by what they
point at, operations are carried out, and sections take the properties of their parents that they do
not have themselves.

Every section and every macro is resolved once, on first use.  Those that are being resolved are the
ones that are no longer idle, and coming upon one of them again is a cycle.  So the check for cycles
is at the same time the reason why resolving ends: each step deeper leaves fewer names idle.
-/

namespace Yini

/-! ## The state -/

/-- How far resolving has come. -/
structure Progress where
  document : Document
  doneSections : List String := []
  doneMacros : List String := []

/-- A step of resolving.  A fault leaves the document as far as it has come. -/
abbrev Resolve (α : Type) : Type := EStateM Fault Progress α

/-- The names of sections and macros that are not being resolved. -/
structure Idle where
  sections : List String
  macros : List String

namespace Idle

/-- How many names are idle. -/
def size (i : Idle) : Nat := i.sections.length + i.macros.length

/-- All names of a document. -/
def all (d : Document) : Idle := ⟨d.sections.keys, d.macros.keys⟩

/-- The idle names once a section is being resolved. -/
def openSection (i : Idle) (name : String) : Idle := { i with sections := i.sections.erase name }

/-- The idle names once a macro is being resolved. -/
def openMacro (i : Idle) (name : String) : Idle := { i with macros := i.macros.erase name }

/-- Opening a section leaves fewer names idle. -/
theorem size_openSection_lt {i : Idle} {name : String} (h : name ∈ i.sections) :
    (i.openSection name).size < i.size := by
  have := List.length_pos_of_mem h
  simp only [openSection, size, List.length_erase_of_mem h]
  omega

theorem size_openMacro_lt {i : Idle} {name : String} (h : name ∈ i.macros) :
    (i.openMacro name).size < i.size := by
  have := List.length_pos_of_mem h
  simp only [openMacro, size, List.length_erase_of_mem h]
  omega

end Idle

/-! ## Values -/

namespace Value

mutual

/-- A value with its references replaced, by what `lookup` gives for each, and its operations carried
    out.  Deferred expressions stay as they are. -/
def resolve (lookup : Reference → Span → Resolve Value) : Value → Resolve Value
  | atom (.reference r) span => lookup r span
  | atom a span => return .atom a span
  | sequence k items span => return .sequence k (← resolveItems lookup items) span
  | record k fields span => return .record k (← resolveFields lookup fields) span
  | binary l op r span => do
    let l ← resolve lookup l
    let r ← resolve lookup r
    match l.combine op r span with
    | .ok v => return v
    | .error fault => throw fault
  | neg v span => do
    let v ← resolve lookup v
    match v.opposite span with
    | .ok v => return v
    | .error fault => throw fault
  | rule m d lo hi span => do
    let d ← resolveOption lookup d
    let lo ← resolveOption lookup lo
    let hi ← resolveOption lookup hi
    return .rule m d lo hi span
termination_by structural v => v

/-- The values of a list, resolved one after the other. -/
def resolveItems (lookup : Reference → Span → Resolve Value) : List Value → Resolve (List Value)
  | [] => return []
  | v :: vs => do
    let v ← resolve lookup v
    let vs ← resolveItems lookup vs
    return v :: vs
termination_by structural vs => vs

/-- The values of fields, resolved one after the other. -/
def resolveFields (lookup : Reference → Span → Resolve Value) :
    List (String × Value) → Resolve (List (String × Value))
  | [] => return []
  | (k, v) :: fs => do
    let v ← resolve lookup v
    let fs ← resolveFields lookup fs
    return (k, v) :: fs
termination_by structural fs => fs

/-- A value that may be absent, resolved. -/
def resolveOption (lookup : Reference → Span → Resolve Value) :
    Option Value → Resolve (Option Value)
  | none => return none
  | some v => return some (← resolve lookup v)
termination_by structural o => o

end

end Value

/-- The values of a table, resolved one after the other. -/
def resolveTable (lookup : Reference → Span → Resolve Value) (t : Table Value) :
    Resolve (Table Value) := do
  return .ofList (← Value.resolveFields lookup t.entries)

/-! ## Sections and macros -/

/-- Gives a section the properties of its parent that it does not have. -/
def Document.inherit (d : Document) (child parent : String) : Document :=
  match d.sections.get? parent with
  | none => d
  | some p =>
    let adopt (s : Section) : Section :=
      { s with
        properties := p.properties.entries.foldl
          (fun t (k, v) => if t.contains k then t else t.insert k v) s.properties }
    { d with sections := d.sections.modify child adopt }

/-- Changes the document of the state. -/
def changeDocument (f : Document → Document) : Resolve Unit :=
  modify fun p => { p with document := f p.document }

/-- Takes the properties and the registry out of a section while they are being resolved. -/
def takeContents (name : String) : Resolve (Table Value × List Value) := do
  match (← get).document.sections.get? name with
  | none => return (∅, [])
  | some s =>
    changeDocument fun d =>
      { d with sections := d.sections.modify name ({ · with properties := ∅, registry := [] }) }
    return (s.properties, s.registry)

/-- Puts resolved properties and registry into a section. -/
def putContents (name : String) (properties : Table Value) (registry : List Value) :
    Resolve Unit :=
  changeDocument fun d =>
    { d with sections := d.sections.modify name ({ · with properties, registry }) }

/-- Notes the value of a macro, in the table of macros and, if it is defined there, in the section
    that defines macros. -/
def Document.putMacro (d : Document) (name : String) (v : Value) : Document :=
  let update (s : Section) : Section :=
    if s.properties.contains name then { s with properties := s.properties.insert name v } else s
  { d with macros := d.macros.insert name v, sections := d.sections.modify defineName update }

mutual

/-- The value that a reference stands for, with the position of the reference. -/
def resolveReference (p : Providers) (i : Idle) (r : Reference) (span : Span) : Resolve Value := do
  let refuse (cause : CompileCause) : Resolve Value := throw (.compile cause (some span))
  match r.kind with
  | .macroName => resolveMacro p i r.target span
  | .environment =>
    match p.environment r.target span with
    | .ok v => return v
    | .error fault => throw fault
  | .localization => return p.localized r.target span
  | .crossSection =>
    match r.sectionKey? with
    | none => refuse (.badTarget r.target)
    | some (name, key) =>
      if !(← get).document.sections.contains name then refuse (.targetMissing r.target)
      else if name ∉ i.sections then refuse (.referenceCycle name)
      else
        resolveSection p i name
        match (← get).document.get? name key with
        | some v => return v.withSpan span
        | none => refuse (.targetMissing r.target)
termination_by 2 * i.size + 1

/-- Resolves a section: its parents first, earlier ones before later ones, and then its own
    properties and registry. -/
def resolveSection (p : Providers) (i : Idle) (name : String) : Resolve Unit := do
  if name ∈ (← get).doneSections then return ()
  match (← get).document.sections.get? name with
  | none => throw (.compile (.sectionMissing name) none)
  | some s =>
    if _idle : name ∈ i.sections then
      s.parents.forM fun parent => do
        if !(← get).document.sections.contains parent then
          throw (.compile (.parentMissing parent name) (some s.span))
        resolveSection p (i.openSection name) parent
        changeDocument (·.inherit name parent)
      let (properties, registry) ← takeContents name
      let lookup := resolveReference p (i.openSection name)
      let properties ← resolveTable lookup properties
      let registry ← Value.resolveItems lookup registry
      putContents name properties registry
      modify fun q => { q with doneSections := name :: q.doneSections }
    else throw (.compile (.inheritanceCycle name) (some s.span))
termination_by 2 * i.size
decreasing_by
  all_goals
    have := Idle.size_openSection_lt _idle
    omega

/-- The value of a macro, with the position of its use. -/
def resolveMacro (p : Providers) (i : Idle) (name : String) (span : Span) : Resolve Value := do
  match (← get).document.macros.get? name with
  | none => throw (.compile (.macroMissing name) (some span))
  | some v =>
    if name ∈ (← get).doneMacros then return v.withSpan span
    if _idle : name ∈ i.macros then
      let v ← v.resolve (resolveReference p (i.openMacro name))
      modify fun q =>
        { q with document := q.document.putMacro name v, doneMacros := name :: q.doneMacros }
      return v.withSpan span
    else throw (.compile (.macroCycle name) (some span))
termination_by 2 * i.size
decreasing_by
  all_goals
    have := Idle.size_openMacro_lt _idle
    omega

end

/-! ## Documents -/

/-- Adds the properties of the section that defines macros to the table of macros. -/
def Document.gatherMacros (d : Document) : Document :=
  match d.sections.get? defineName with
  | some s => { d with macros := d.macros.insertAll s.properties.entries }
  | none => d

/-- A schema section with the values in its rules resolved. -/
def resolveSchema (lookup : Reference → Span → Resolve Value) (s : Section) : Resolve Section := do
  return { s with properties := ← resolveTable lookup s.properties }

/-- The schema sections, resolved one after the other. -/
def resolveSchemas (lookup : Reference → Span → Resolve Value) :
    List (String × Section) → Resolve (List (String × Section))
  | [] => return []
  | (k, s) :: rest => do
    let s ← resolveSchema lookup s
    let rest ← resolveSchemas lookup rest
    return (k, s) :: rest

/-- Resolves everything in the document of the state: the macros, the sections that have no special
    meaning, and then the schema sections, which are out of the document meanwhile. -/
def resolveAll (p : Providers) : Resolve Unit := do
  changeDocument Document.gatherMacros
  let d := (← get).document
  let i := Idle.all d
  d.macros.keys.forM fun name => do
    let _ ← resolveMacro p i name .none
  (d.sections.keys.filter (!Section.isSpecialName ·)).forM (resolveSection p i)
  let schemas := (← get).document.schemas
  changeDocument ({ · with schemas := ∅ })
  let schemas ← resolveSchemas (resolveReference p i) schemas.entries
  changeDocument ({ · with schemas := .ofList schemas })

namespace Document

/-- The document resolved, or the fault with the document as the fault left it. -/
def resolveOrStop (p : Providers) (d : Document) : Except (Fault × Document) Document :=
  match resolveAll p ⟨d, [], []⟩ with
  | .ok _ q => .ok q.document
  | .error fault q => .error (fault, q.document)

/-- The document resolved. -/
def resolve (p : Providers) (d : Document) : Except Fault Document :=
  match d.resolveOrStop p with
  | .ok d => .ok d
  | .error (fault, _) => .error fault

end Document

end Yini
