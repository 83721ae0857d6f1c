import Yini.Fault.Basic
import Yini.Ybin.Layout

/-!
Reading YBIN.  A `Reader` is what is left of the bytes; every read says how many bytes it wants, and
data that end too early are a fault with the offset where more was wanted.  Values nest as deeply as
in source text, and a section counts as the first level of the properties in it.
-/

namespace Yini.Ybin

/-- Bytes that are being read. -/
structure Reader where
  rest : List UInt8
  position : Nat

namespace Reader

/-- The bytes from the start. -/
def start (bytes : ByteArray) : Reader := ⟨bytes.data.toList, 0⟩

end Reader

/-- A computation that reads bytes from the front.  After a fault the reader stands behind the last
    bytes that were there. -/
abbrev Read (α : Type) : Type := EStateM Fault Reader α

namespace Read

/-- Fails at an offset. -/
def failAt {α : Type} (offset : Nat) (cause : FormatCause) : Read α := throw (.format cause offset)

/-- The offset of the next byte. -/
def position : Read Nat := do return (← get).position

/-- Takes `n` bytes. -/
def take (n : Nat) : Read (List UInt8) := do
  let r ← get
  let front := r.rest.take n
  if front.length = n then
    set (Reader.mk (r.rest.drop n) (r.position + n))
    return front
  else failAt r.position (.unexpectedEnd n r.rest.length)

/-- Takes one byte. -/
def byte : Read UInt8 := do
  match ← take 1 with
  | [b] => return b
  | _ => return 0

/-- Takes a number of four bytes. -/
def word : Read UInt32 := do
  match ← take 4 with
  | [a, b, c, d] => return ofBytes32 a b c d
  | _ => return 0

/-- Takes a count. -/
def count : Read Nat := do return (← word).toNat

/-- Takes a truth value.  Every byte but zero is true. -/
def bool : Read Bool := do return (← byte) != 0

/-- Takes a float. -/
def float : Read Binary32 := do return ⟨← word⟩

/-- Takes a text. -/
def text : Read String := do
  let n ← count
  let start ← position
  let bytes ← take n
  match String.fromUTF8? bytes.toByteArray with
  | some s => return s
  | none => failAt start (.badText ((Utf8.fault? bytes).getD (.incomplete 0)))

/-- As many items as a count says; those read before are kept in reverse. -/
def repeatFrom {α : Type} (item : Read α) : Nat → List α → Read (List α)
  | 0, before => return before.reverse
  | n + 1, before => do
    let a ← item
    repeatFrom item n (a :: before)

/-- A count, and as many items. -/
def counted {α : Type} (item : Read α) : Read (List α) := do
  let n ← count
  repeatFrom item n []

/-- A name and a value. -/
def field (value : Read Value) : Read (String × Value) := do
  let k ← text
  let v ← value
  return (k, v)

/-- Takes an atom, from behind its tag. -/
def atom : Tag → Read (Option Atom)
  | .int => do return some (.int (← word).toInt32)
  | .float => do return some (.float (← float))
  | .bool => do return some (.bool (← bool))
  | .string => do return some (.string (← text))
  | .color => do
    match ← take 4 with
    | [r, g, b, a] => return some (.color ⟨r, g, b, a⟩)
    | _ => return none
  | .coord => do
    let spatial ← bool
    let x ← float
    let y ← float
    let z ← float
    return some (.coord ⟨x, y, z, spatial⟩)
  | .path => do return some (.path (← text))
  | .reference => do
    let start ← position
    let b ← byte
    match referenceKind? b with
    | some kind => return some (.reference ⟨kind, ← text⟩)
    | none => failAt start (.unknownReferenceKind b.toNat)
  | .dyna => do return some (.dyna (← text))
  | .sequence _ => return none
  | .record _ => return none

/-- Takes a value whose parts are read by `items` and `fields`. -/
def valueWith (items : Read (List Value)) (fields : Read (List (String × Value))) : Read Value := do
  let start ← position
  let b ← byte
  match Tag.ofByte? b with
  | none => failAt start (.unknownTag b.toNat)
  | some (.sequence k) => return .sequence k (← items) .none
  | some (.record k) => return .record k (Entries.ofList (← fields)) .none
  | some t =>
    match ← atom t with
    | some a => return .atom a .none
    | none => failAt start (.unknownTag b.toNat)

/-- The fault of values that are nested too deeply. -/
def tooDeep {α : Type} : Read α := do failAt (← position) .tooDeep

/-- Takes a value.  The number counts the levels that may still be opened. -/
def value : Nat → Read Value
  | 0 => valueWith tooDeep tooDeep
  | n + 1 => valueWith (counted (value n)) (counted (field (value n)))

/-- Takes a value that stands alone. -/
def loneValue : Read Value := value (maxNesting + 1)

/-- Takes a section. -/
def «section» : Read Section := do
  let name ← text
  let parents ← counted text
  let properties ← counted (field (value maxNesting))
  let registry ← counted loneValue
  return ⟨name, parents, .ofList properties, registry, .none, ∅⟩

/-- Sections added to a document. -/
def sections : Nat → Document → Read Document
  | 0, d => return d
  | n + 1, d => do
    let s ← «section»
    sections n (d.insertSection s)

/-- Takes a document, up to the end of the data. -/
def document : Read Document := do
  let mark ← word
  if mark.toNat ≠ magic then failAt 0 (.badMagic mark.toNat)
  let v ← byte
  if version < v then failAt 4 (.newerVersion v.toNat)
  let d ← sections (← count) .empty
  let r ← get
  if !r.rest.isEmpty then failAt r.position .trailingBytes
  match d.sections.get? defineName with
  | some s => return { d with macros := s.properties }
  | none => return d

end Read

/-- The document of bytes. -/
def decode (bytes : ByteArray) : Except Fault Document :=
  match Read.document (.start bytes) with
  | .ok d _ => .ok d
  | .error fault _ => .error fault

end Yini.Ybin
