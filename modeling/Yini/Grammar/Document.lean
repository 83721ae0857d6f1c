import Yini.Document.Basic
import Yini.Grammar.Rule

/-!
Documents: sections one after the other.  A section has a header with its name and its parents, and
a body of properties and of values added to its registry.  The markers `[#schema]` and `[#end_schema]`
say whether the sections after them hold rules or values; `[#define]` and `[#include]` always hold
values.
-/

namespace Yini

namespace Grammar

/-- The names after a colon, with commas between them. -/
def parentsFrom : Nat → List String → Grammar (List String)
  | 0, before => return before.reverse
  | n + 1, before => do
    let (name, _) ← expectName .parentName
    if ← eat .comma then parentsFrom n (name :: before) else return (name :: before).reverse

/-- The parents in a header. -/
def parents : Grammar (List String) := do
  if ← eat .colon then parentsFrom ((← remaining) + 1) [] else return []

/-- What a body adds to a section.  The registry is kept in reverse. -/
structure Body where
  properties : Table Value := ∅
  keySpans : Table Span := ∅
  registry : List Value := []

/-- The entries of a body, up to the next header or the end.  `value` reads what a property holds,
    and `n` bounds the number of entries. -/
def bodyFrom (value : Grammar Value) : Nat → Body → Grammar Body
  | 0, b => return b
  | n + 1, b => do
    match ← peek with
    | .mark .openBracket => return b
    | .finish => return b
    | .mark .append =>
      bump
      let v ← expression
      bodyFrom value n { b with registry := v :: b.registry }
    | .ident key =>
      let span ← here
      bump
      expect .assign .assignment
      let v ← value
      bodyFrom value n
        { b with properties := b.properties.insert key v, keySpans := b.keySpans.insert key span }
    | _ => fail .badEntry

/-- The section of a header and the body that follows. -/
def sectionWith (value : Grammar Value) (name : String) (parents : List String) (span : Span) :
    Grammar Section := do
  let b ← bodyFrom value ((← remaining) + 1) {}
  return ⟨name, parents, b.properties, b.registry.reverse, span, b.keySpans⟩

/-- A section with a name of its own, from the name on. -/
def namedSection (d : Document) : Grammar Document := do
  let (name, span) ← expectName .sectionName
  expect .closeBracket .headerClose
  let ps ← parents
  if (← get).schemaMode then
    return d.insertSchema (← sectionWith rule name ps span)
  else
    return d.insertSection (← sectionWith expression name ps span)

/-- A section with a special meaning, from its `#` on. -/
def specialSection (d : Document) : Grammar Document := do
  let span ← here
  bump
  let (name, _) ← expectName .specialName
  expect .closeBracket .specialHeaderClose
  if name = "schema" ∨ name = "end_schema" then
    match ← peek with
    | .mark .openBracket => modify ({ · with schemaMode := name = "schema" })
    | .finish => modify ({ · with schemaMode := name = "schema" })
    | _ => fail (.markerBody name)
    return d
  else if name = "define" ∨ name = "include" then
    return d.insertSection (← sectionWith expression ("#" ++ name) [] span)
  else throw (.parse (.unknownSpecial name) ("identifier '" ++ name ++ "'") span)

/-- The sections that follow, added to a document.  `n` bounds their number. -/
def sectionsFrom : Nat → Document → Grammar Document
  | 0, d => return d
  | n + 1, d => do
    match ← peek with
    | .finish => return d
    | .mark .openBracket =>
      bump
      let d ← if ← sees .hash then specialSection d else namedSection d
      sectionsFrom n d
    | _ => fail .outsideSections

/-- A whole document, up to the end of the source. -/
def document : Grammar Document := do sectionsFrom ((← remaining) + 1) .empty

end Grammar

/-! ## Reading sources -/

/-- Reads a document.  `file` is the name that its positions carry. -/
def Document.ofSource (file : Option String) (source : String) : Except Fault Document :=
  match Parser.ofSource file source with
  | .error fault => .error fault
  | .ok p =>
    match Grammar.document p with
    | .ok d _ => .ok d
    | .error fault _ => .error fault

/-- An expression that is all there is. -/
def Grammar.loneExpression : Grammar Value := do
  let v ← expression
  match ← peek with
  | .finish => return v
  | _ => fail .trailingInput

/-- Reads an expression that stands alone. -/
def Value.ofSource (source : String) : Except Fault Value :=
  match Parser.ofSource none source with
  | .error fault => .error fault
  | .ok p =>
    match Grammar.loneExpression p with
    | .ok v _ => .ok v
    | .error fault _ => .error fault

end Yini
