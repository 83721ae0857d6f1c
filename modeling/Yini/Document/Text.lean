import Yini.Document.Basic
import Yini.Text.CharClass
import Yini.Value.Text

/-!
Documents as source text.  `Document.text` writes the sections in order, each with its header, its
properties and its registry, and the schema sections between their markers at the end.  Macros are
written as the section that defines them, unless the document has that section already.
-/

namespace Yini

/-- A property on a line of its own. -/
def propertyLine (entry : String × Value) : String := entry.1 ++ " = " ++ entry.2.text ++ "\n"

/-- A value of the registry on a line of its own. -/
def registryLine (v : Value) : String := "+= " ++ v.text ++ "\n"

namespace Section

/-- The header of a section. -/
def header (s : Section) : String :=
  "[" ++ s.name ++ "]" ++
    (if s.parents.isEmpty then "" else " : " ++ String.intercalate ", " s.parents) ++ "\n"

/-- A section as source text. -/
def text (s : Section) : String :=
  s.header ++ String.join (s.properties.entries.map propertyLine) ++
    String.join (s.registry.map registryLine)

end Section

namespace Document

/-- The macros as a section of their own, if no section defines them. -/
def macrosText (d : Document) : String :=
  if d.macros.isEmpty || d.sections.contains defineName then ""
  else "[" ++ defineName ++ "]\n" ++ String.join (d.macros.entries.map propertyLine) ++ "\n"

/-- The schema sections between their markers. -/
def schemasText (d : Document) : String :=
  if d.schemas.isEmpty then ""
  else "[#schema]\n" ++ String.join (d.schemas.values.map Section.text) ++ "[#end_schema]\n"

/-- The document as source text, without white space at the end. -/
def text (d : Document) : String :=
  let body := d.macrosText ++ String.join (d.sections.values.map (·.text ++ "\n")) ++ d.schemasText
  String.ofList (Text.trimEnd body.toList)

end Document

end Yini
