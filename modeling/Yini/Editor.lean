import Yini.Document.Basic
import Yini.Value.Text

/-!
What an editor asks about a document: the section around a line, what stands at a position, and what
could be written there.  Positions belong to a file, so sections that come from an included file are
found only in that file.
-/

namespace Yini.Editor

/-! ## Sections -/

/-- The last of the sections whose header is on the greatest line. -/
def lowest : List Section → Option Section
  | [] => none
  | s :: ss =>
    match lowest ss with
    | some t => if s.span.line ≤ t.span.line then some t else some s
    | none => some s

/-- The section of a file whose header is the closest one at or above a line. -/
def sectionAt (d : Document) (file : Option String) (line : Nat) : Option Section :=
  lowest <| d.sections.values.filter fun s =>
    s.span.file == file && 0 < s.span.line && s.span.line ≤ line

/-! ## What stands at a position -/

/-- What an editor shows about a position. -/
structure Hover where
  sectionName : String
  /-- The property, unless the position is in a header. -/
  key : Option String
  typeName : Option String
  /-- The header of the section, or the text of the value. -/
  detail : String
  /-- The text of the rule for the property. -/
  rule : Option String
  span : Span
deriving DecidableEq

/-- Whether a text that begins at a span covers a position. -/
def covers (span : Span) (text : String) (line column : Nat) : Bool :=
  span.line == line && span.column ≤ column && column < span.column + text.toList.length

/-- The header of a section, with its parents. -/
def headerText (s : Section) : String :=
  "[" ++ s.name ++ "]" ++
    if s.parents.isEmpty then "" else " : " ++ String.intercalate ", " s.parents

/-- The property whose name stands at a position. -/
def keyAt (s : Section) (file : Option String) (line column : Nat) : Option (String × Span) :=
  s.keySpans.entries.find? fun (key, span) => span.file == file && covers span key line column

/-- What stands at a position of a file: the name of a section or of a property. -/
def hover (d : Document) (file : Option String) (line column : Nat) : Option Hover := do
  let s ← sectionAt d file line
  if covers s.span s.name line column then
    return ⟨s.name, none, none, headerText s, none, s.span⟩
  let (key, span) ← keyAt s file line column
  let v ← s.properties.get? key
  let rule := (d.schemas.get? s.name).bind (·.properties.get? key)
  return ⟨s.name, some key, some v.typeName, v.text, rule.map Value.text, span⟩

/-! ## What could be written -/

/-- What a completion names. -/
inductive CompletionKind where
  | section
  | property
  | macroName
deriving DecidableEq

/-- A text that could be written. -/
structure Completion where
  label : String
  kind : CompletionKind
  detail : String
deriving DecidableEq

/-- Whether a text begins with another one. -/
def startsWith (text start : String) : Bool := start.toList.isPrefixOf text.toList

/-- The section in the beginning of a reference to a property. -/
def referredSection? (start : String) : Option String :=
  match start.toList with
  | '@' :: '{' :: rest => (splitAtPoint (String.ofList rest)).map Prod.fst
  | _ => none

/-- References to the properties of a section. -/
def references (s : Section) (name : String) : List Completion :=
  s.properties.entries.map fun (key, v) =>
    ⟨(Reference.mk .crossSection (name ++ "." ++ key)).text, .property, v.typeName⟩

/-- What a rule says about its property, in short. -/
def ruleDetail (v : Value) : String :=
  match v with
  | .rule m .. => m.typeName.getD v.text
  | v => v.text

/-- The properties that the schema of a section names and the section does not have. -/
def missingProperties (d : Document) (s : Section) : List Completion :=
  match d.schemas.get? s.name with
  | none => []
  | some schema =>
    (schema.properties.entries.filter fun e => !s.properties.contains e.1).map fun (key, v) =>
      ⟨key, .property, ruleDetail v⟩

/-- Macros, sections without a special meaning, and properties that the section around a line could
    have. -/
def anything (d : Document) (file : Option String) (line : Nat) : List Completion :=
  (d.macros.entries.map fun (name, v) => ⟨"@" ++ name, .macroName, v.text⟩) ++
  ((d.sections.values.filter (!·.isSpecial)).map fun s =>
    ⟨s.name, .section, toString s.properties.size ++ " properties"⟩) ++
  match sectionAt d file line with
  | some s => missingProperties d s
  | none => []

/-- The texts that could be written on a line of a file and begin as given.  After the name of a
    section in a reference these are its properties. -/
def completions (d : Document) (file : Option String) (line : Nat) (start : String) :
    List Completion :=
  let candidates :=
    match referredSection? start with
    | some name =>
      match d.sections.get? name with
      | some s => references s name
      | none => []
    | none => anything d file line
  candidates.filter (startsWith ·.label start)

end Yini.Editor
