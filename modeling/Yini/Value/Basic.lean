import Yini.Number.Binary32
import Yini.Table

/-!
Values: what a property holds.  A value is an atom without parts, a sequence, a record, an operation
that has not been carried out yet, or a rule of a schema.  Every value knows where it was written.

Resolution replaces references and carries out operations; `Value.isResolved` says whether any are
left.  Texts of deferred expressions (`Atom.dyna`) count as resolved: they wait for a context.
-/

namespace Yini

/-! ## Positions -/

/-- A position in a source: the file, if it has a name, and line and column, counted from one.  Line
    zero is the position of values that no source holds. -/
structure Span where
  file : Option String
  line : Nat
  column : Nat
deriving DecidableEq

namespace Span

/-- The position of values that no source holds. -/
def none : Span := ⟨.none, 0, 0⟩

instance : Inhabited Span := ⟨none⟩

/-- The position as it stands in messages. -/
def text (s : Span) : String :=
  let place := toString s.line ++ ":" ++ toString s.column
  match s.file with
  | some file => file ++ ":" ++ place
  | .none => place

end Span

/-! ## Atoms -/

/-- What a reference points at. -/
inductive ReferenceKind where
  /-- An environment variable, written `${NAME}`. -/
  | environment
  /-- A property of a section, written `@{Section.Key}`. -/
  | crossSection
  /-- A macro, written `@name`. -/
  | macroName
  /-- A localized text, written `%{key}`. -/
  | localization
deriving DecidableEq

namespace ReferenceKind

/-- The name of the kind in messages. -/
def name : ReferenceKind → String
  | environment => "Environment"
  | crossSection => "CrossSection"
  | macroName => "Macro"
  | localization => "Localization"

end ReferenceKind

/-- A reference to a value that is defined elsewhere. -/
structure Reference where
  kind : ReferenceKind
  target : String
deriving DecidableEq

/-- A text split at its first point. -/
def splitAtPoint (s : String) : Option (String × String) :=
  match s.toList.dropWhile (· != '.') with
  | [] => none
  | _ :: rest => some (String.ofList (s.toList.takeWhile (· != '.')), String.ofList rest)

/-- The section and the key that a target names. -/
def Reference.sectionKey? (r : Reference) : Option (String × String) := splitAtPoint r.target

/-- A color with four channels. -/
structure Color where
  red : UInt8
  green : UInt8
  blue : UInt8
  alpha : UInt8
deriving DecidableEq

/-- A point.  A point of the plane has a third coordinate too, which its text leaves out. -/
structure Coord where
  x : Binary32
  y : Binary32
  z : Binary32
  spatial : Bool
deriving DecidableEq

/-- A value without parts. -/
inductive Atom where
  | int (n : Int32)
  | float (x : Binary32)
  | bool (b : Bool)
  | string (s : String)
  | color (c : Color)
  | coord (c : Coord)
  | path (p : String)
  | reference (r : Reference)
  /-- The text of an expression that is evaluated later, against a context. -/
  | dyna (expression : String)
deriving DecidableEq

/-! ## Values -/

/-- The kinds of sequences. -/
inductive SequenceKind where
  | array
  | list
  | set
deriving DecidableEq

/-- The kinds of records.  A map is open, a struct has fixed names; they stay apart throughout. -/
inductive RecordKind where
  | map
  | struct
deriving DecidableEq

/-- The arithmetic operators. -/
inductive BinaryOp where
  | add
  | sub
  | mul
  | div
  | mod
deriving DecidableEq

namespace BinaryOp

/-- The sign of the operator. -/
def symbol : BinaryOp → String
  | add => "+"
  | sub => "-"
  | mul => "*"
  | div => "/"
  | mod => "%"

/-- How tightly the operator binds. -/
def precedence : BinaryOp → Nat
  | add => 1
  | sub => 1
  | mul => 2
  | div => 2
  | mod => 2

end BinaryOp

/-- Whether a property must be there. -/
inductive Requirement where
  | required
  | optional
deriving DecidableEq

/-- What becomes of an optional property that is not there. -/
inductive WhenEmpty where
  /-- Nothing. -/
  | ignore
  /-- It is an error. -/
  | refuse
  /-- It gets the default value. -/
  | fill
deriving DecidableEq

/-- The marks of a schema rule: everything but the values in it. -/
structure RuleMarks where
  requirement : Requirement
  typeName : Option String
  whenEmpty : WhenEmpty
deriving DecidableEq

/-- The deepest nesting of values, in source text and in encoded documents alike. -/
def maxNesting : Nat := 128

/-- A value and where it was written. -/
inductive Value where
  | atom (a : Atom) (span : Span)
  | sequence (kind : SequenceKind) (items : List Value) (span : Span)
  | record (kind : RecordKind) (fields : List (String × Value)) (span : Span)
  | binary (left : Value) (op : BinaryOp) (right : Value) (span : Span)
  | neg (operand : Value) (span : Span)
  /-- A rule of a schema, with its default value and its bounds. -/
  | rule (marks : RuleMarks) (fallback lower upper : Option Value) (span : Span)

namespace Value

instance : Inhabited Value := ⟨.atom (.bool false) .none⟩

/-- Where the value was written. -/
def span : Value → Span
  | atom _ s => s
  | sequence _ _ s => s
  | record _ _ s => s
  | binary _ _ _ s => s
  | neg _ s => s
  | rule _ _ _ _ s => s

/-- The same value at another position.  The parts keep theirs. -/
def withSpan (v : Value) (s : Span) : Value :=
  match v with
  | atom a _ => atom a s
  | sequence k items _ => sequence k items s
  | record k fields _ => record k fields s
  | binary l op r _ => binary l op r s
  | neg v _ => neg v s
  | rule m d lo hi _ => rule m d lo hi s

/-! ### Kinds and contents -/

/-- The name of an atom's type in messages. -/
def atomTypeName : Atom → String
  | .int _ => "int"
  | .float _ => "float"
  | .bool _ => "bool"
  | .string _ => "string"
  | .color _ => "color"
  | .coord _ => "coord"
  | .path _ => "path"
  | .reference _ => "reference"
  | .dyna _ => "dyna"

/-- The name of the value's type in messages. -/
def typeName : Value → String
  | atom a _ => atomTypeName a
  | sequence .array _ _ => "array"
  | sequence .list _ _ => "list"
  | sequence .set _ _ => "set"
  | record .map _ _ => "map"
  | record .struct _ _ => "struct"
  | binary .. => "binary expression"
  | neg .. => "unary expression"
  | rule .. => "schema"

/-- The integer that the value is. -/
def int? : Value → Option Int32
  | atom (.int n) _ => some n
  | _ => none

/-- The number that the value is, if it is an integer or a float. -/
def number? : Value → Option Extended
  | atom (.int n) _ => some (.ofInt n.toInt)
  | atom (.float x) _ => some x.toExtended
  | _ => none

/-- The text that the value is. -/
def string? : Value → Option String
  | atom (.string s) _ => some s
  | _ => none

/-- The truth value that the value is. -/
def bool? : Value → Option Bool
  | atom (.bool b) _ => some b
  | _ => none

mutual

/-- Whether no reference and no operation is left in the value.  The values inside a rule are not
    looked at. -/
def isResolved : Value → Bool
  | atom (.reference _) _ => false
  | atom _ _ => true
  | sequence _ items _ => allResolved items
  | record _ fields _ => allFieldsResolved fields
  | binary .. => false
  | neg .. => false
  | rule .. => true
termination_by structural v => v

/-- Whether every value of the list is resolved. -/
def allResolved : List Value → Bool
  | [] => true
  | v :: vs => v.isResolved && allResolved vs
termination_by structural vs => vs

/-- Whether the value of every field is resolved. -/
def allFieldsResolved : List (String × Value) → Bool
  | [] => true
  | (_, v) :: fs => v.isResolved && allFieldsResolved fs
termination_by structural fs => fs

end

end Value

end Yini
