import Yini.Document.Basic
import Yini.Json.Basic
import Yini.Value.Text

/-!
Documents as JSON.  Numbers, truth values, strings, sequences and records become what JSON has for
them; everything else becomes an object with one member, which tells what it is.
-/

namespace Yini

/-- A float.  Its value is written in double precision; infinities and missing numbers are null. -/
def Binary32.toJson (x : Binary32) : Json :=
  match x.toExtended.jsonText? .double with
  | some text => .number text
  | none => .null

/-- A whole number. -/
def Json.ofInt (n : Int) : Json := .number (toString n)

/-- An object with one member. -/
def Json.tagged (name : String) (j : Json) : Json := .ofMembers [(name, j)]

/-- An atom. -/
def Atom.toJson : Atom → Json
  | .int n => .ofInt n.toInt
  | .float x => x.toJson
  | .bool b => .bool b
  | .string s => .string s
  | .color c =>
    .tagged "color" (.array ([c.red, c.green, c.blue, c.alpha].map fun b => .ofInt b.toNat))
  | .coord c =>
    let axes := if c.spatial then [c.x, c.y, c.z] else [c.x, c.y]
    .tagged "coord" (.array (axes.map Binary32.toJson))
  | .path p => .tagged "path" (.string p)
  | .reference r => .tagged "unresolved" (.string r.text)
  | .dyna e => .tagged "dyna" (.string e)

/-- What becomes of a missing property, in a word. -/
def WhenEmpty.text : WhenEmpty → String
  | ignore => "ignore"
  | refuse => "error"
  | fill => "default"

namespace Value

mutual

/-- A value as JSON. -/
def toJson : Value → Json
  | atom a _ => a.toJson
  | sequence _ items _ => .array (itemsToJson items)
  | record _ fields _ => .ofMembers (fieldsToJson fields)
  | binary l op r span => .tagged "unresolved" (.string (binary l op r span).text)
  | neg v span => .tagged "unresolved" (.string (neg v span).text)
  | rule m d lo hi _ =>
    .tagged "schema" <| .ofMembers
      [("required", .bool (m.requirement == .required)),
       ("type", .ofOption m.typeName),
       ("default", optionToJson d),
       ("on_empty", .string m.whenEmpty.text),
       ("min", optionToJson lo),
       ("max", optionToJson hi)]
termination_by structural v => v

/-- The values of a list. -/
def itemsToJson : List Value → List Json
  | [] => []
  | v :: vs => v.toJson :: itemsToJson vs
termination_by structural vs => vs

/-- The values of fields, with their names. -/
def fieldsToJson : List (String × Value) → List (String × Json)
  | [] => []
  | (k, v) :: fs => (k, v.toJson) :: fieldsToJson fs
termination_by structural fs => fs

/-- A value that may be absent. -/
def optionToJson : Option Value → Json
  | none => .null
  | some v => v.toJson
termination_by structural o => o

end

end Value

/-- The properties of a section. -/
def Table.toJson (t : Table Value) : Json := .ofMembers (Value.fieldsToJson t.entries)

namespace Section

/-- A section.  Parents and registry are left out if there are none. -/
def toJson (s : Section) : Json :=
  .ofMembers <|
    (if s.parents.isEmpty then [] else [("parents", .array (s.parents.map .string))]) ++
    [("properties", s.properties.toJson)] ++
    (if s.registry.isEmpty then [] else [("registry", .array (Value.itemsToJson s.registry))])

end Section

namespace Document

/-- A document.  Macros and schemas are left out if there are none. -/
def toJson (d : Document) : Json :=
  .ofMembers <|
    (if d.macros.isEmpty then [] else [("macros", d.macros.toJson)]) ++
    [("sections", .ofMembers (d.sections.values.map fun s => (s.name, s.toJson)))] ++
    (if d.schemas.isEmpty then []
      else [("schemas", .ofMembers (d.schemas.values.map fun s => (s.name, s.properties.toJson)))])

/-- The document as the text of a JSON file. -/
def exportJson (d : Document) : String := d.toJson.pretty

end Document

end Yini
