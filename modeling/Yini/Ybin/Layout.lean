import Yini.Document.Basic

/-!
The binary format YBIN.  It starts with four bytes that mark it and a version, and holds the sections
of a document: name, parents, properties and registry.  Numbers are stored with the lowest byte
first, a text is its length in bytes and its UTF-8, and every value starts with a tag.
-/

namespace Yini.Ybin

/-! ## Marks -/

/-- The mark of the format. -/
def magic : Nat := 0x59494E49

/-- The version that is written.  It is also the newest one that can be read. -/
def version : UInt8 := 1

/-- What a value is, as its tag tells. -/
inductive Tag where
  | int
  | float
  | bool
  | string
  | color
  | coord
  | path
  | sequence (kind : SequenceKind)
  | record (kind : RecordKind)
  | reference
  | dyna
deriving DecidableEq

namespace Tag

/-- The byte of a tag. -/
def byte : Tag → UInt8
  | int => 1
  | float => 2
  | bool => 3
  | string => 4
  | color => 5
  | coord => 6
  | path => 7
  | sequence .array => 8
  | sequence .list => 9
  | sequence .set => 10
  | record .map => 11
  | reference => 12
  | dyna => 13
  | record .struct => 14

/-- All tags. -/
def all : List Tag :=
  [int, float, bool, string, color, coord, path, sequence .array, sequence .list, sequence .set,
   record .map, reference, dyna, record .struct]

/-- The tag of a byte. -/
def ofByte? (b : UInt8) : Option Tag := all.find? (·.byte == b)

theorem ofByte?_byte (t : Tag) : ofByte? t.byte = some t := by
  cases t with
  | sequence k => cases k <;> decide
  | record k => cases k <;> decide
  | _ => decide

end Tag

/-- The byte of a kind of reference. -/
def referenceByte : ReferenceKind → UInt8
  | .environment => 0
  | .crossSection => 1
  | .macroName => 2
  | .localization => 3

/-- The kind of reference of a byte. -/
def referenceKind? (b : UInt8) : Option ReferenceKind :=
  [.environment, .crossSection, .macroName, .localization].find? (referenceByte · == b)

/-- Different kinds of references have different bytes. -/
theorem referenceKind?_referenceByte (k : ReferenceKind) :
    referenceKind? (referenceByte k) = some k := by
  cases k <;> decide

/-! ## Numbers -/

/-- The four bytes of a number, the lowest first. -/
def bytes32 (n : UInt32) : List UInt8 :=
  [n.toUInt8, (n >>> 8).toUInt8, (n >>> 16).toUInt8, (n >>> 24).toUInt8]

/-- The number of four bytes, the lowest first. -/
def ofBytes32 (a b c d : UInt8) : UInt32 :=
  a.toUInt32 ||| b.toUInt32 <<< 8 ||| c.toUInt32 <<< 16 ||| d.toUInt32 <<< 24

example : bytes32 0x12345678 = [0x78, 0x56, 0x34, 0x12] := by decide
example : ofBytes32 0x78 0x56 0x34 0x12 = 0x12345678 := by decide

end Yini.Ybin
