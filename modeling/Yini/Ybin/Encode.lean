import Yini.Fault.Basic
import Yini.Ybin.Layout

/-!
Writing YBIN.  Every value that is resolved has an encoding; operations and rules of schemas have
none.  What has been written before a fault stays written.
-/

namespace Yini.Ybin

/-- A computation that writes bytes. -/
abbrev Write : Type := EStateM Fault ByteArray Unit

namespace Write

/-- Fails at the end of what has been written. -/
def fail (cause : FormatCause) : Write := do
  throw (.format cause (← get).size)

/-- Writes one byte. -/
def byte (b : UInt8) : Write := modify (·.push b)

/-- Writes bytes. -/
def bytes (bs : List UInt8) : Write := bs.forM byte

/-- Writes a number of four bytes. -/
def word (n : UInt32) : Write := bytes (bytes32 n)

/-- Writes a count. -/
def count (n : Nat) : Write := if n < Nat.pow 2 32 then word n.toUInt32 else fail .countTooLarge

/-- Writes a text. -/
def text (s : String) : Write := do
  count s.utf8ByteSize
  modify (· ++ s.toUTF8)

/-- Writes a truth value. -/
def bool (b : Bool) : Write := byte (if b then 1 else 0)

/-- Writes an atom. -/
def atom : Atom → Write
  | .int n => do byte Tag.int.byte; word n.toUInt32
  | .float x => do byte Tag.float.byte; word x.bits
  | .bool b => do byte Tag.bool.byte; bool b
  | .string s => do byte Tag.string.byte; text s
  | .color c => do byte Tag.color.byte; bytes [c.red, c.green, c.blue, c.alpha]
  | .coord c => do
    byte Tag.coord.byte
    bool c.spatial
    word c.x.bits
    word c.y.bits
    word c.z.bits
  | .path p => do byte Tag.path.byte; text p
  | .reference r => do
    byte Tag.reference.byte
    byte (referenceByte r.kind)
    text r.target
  | .dyna e => do byte Tag.dyna.byte; text e

mutual

/-- Writes a value. -/
def value : Value → Write
  | .atom a _ => atom a
  | .sequence k vs _ => do
    byte (Tag.sequence k).byte
    count vs.length
    values vs
  | .record k fs _ => do
    byte (Tag.record k).byte
    count fs.length
    fields fs
  | .binary .. => fail (.notEncodable "binary expression")
  | .neg .. => fail (.notEncodable "unary expression")
  | .rule .. => fail (.notEncodable "schema")
termination_by structural v => v

/-- Writes the values of a list. -/
def values : List Value → Write
  | [] => return ()
  | v :: vs => do
    value v
    values vs
termination_by structural vs => vs

/-- Writes fields. -/
def fields : List (String × Value) → Write
  | [] => return ()
  | (k, v) :: fs => do
    text k
    value v
    fields fs
termination_by structural fs => fs

end

/-- Writes a section. -/
def «section» (s : Section) : Write := do
  text s.name
  count s.parents.length
  s.parents.forM text
  count s.properties.size
  fields s.properties.entries
  count s.registry.length
  values s.registry

/-- Writes a document.  Its macros are written as the section that defines them, and its schema
    sections not at all. -/
def document (d : Document) : Write := do
  word magic.toUInt32
  byte version
  count d.sections.size
  d.sections.values.forM «section»

end Write

/-- The bytes of a document. -/
def encode (d : Document) : Except Fault ByteArray :=
  match Write.document d .empty with
  | .ok _ bytes => .ok bytes
  | .error fault _ => .error fault

end Yini.Ybin
