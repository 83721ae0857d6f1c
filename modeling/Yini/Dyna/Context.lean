import Yini.Document.Basic
import Yini.Fault.Basic

/-!
Contexts: what a deferred expression can see.  A name stands for its value, or for itself if the
context has none; a reference stands for its value, or is a fault.
-/

namespace Yini

/-- The values that an expression can see. -/
structure Context where
  value? : String → Option Value
  reference : Reference → Except Fault Value

namespace Context

/-- The fault of a reference that leads nowhere. -/
def unresolved (r : Reference) : Fault := .evaluation (.unresolved r) none

/-- Variables of a table, and no references. -/
def ofTable (t : Table Value) : Context where
  value? := t.get?
  reference r := .error (unresolved r)

/-- What a document shows: macros by their names, and properties by the names of their section and
    their key. -/
def ofDocument (d : Document) : Context where
  value? name :=
    match d.macros.get? name with
    | some v => some v
    | none => (splitAtPoint name).bind fun (sectionName, key) => d.get? sectionName key
  reference r :=
    let found : Option Value :=
      match r.kind with
      | .macroName => d.macros.get? r.target
      | .crossSection => r.sectionKey?.bind fun (sectionName, key) => d.get? sectionName key
      | .environment => none
      | .localization => none
    match found with
    | some v => .ok v
    | none => .error (unresolved r)

end Context

end Yini
