import Yini.Text.Utf8
import Yini.Value.Basic

/-!
Faults: why reading, resolving, checking, evaluating or decoding failed.  There is one type of
causes for each stage, and a fault joins a cause with the place where it arose.  How a fault is
worded, and the number it is known by, is in `Yini.Fault.Report`.
-/

namespace Yini

/-! ## Causes by stage -/

/-- Why the source could not be cut into tokens. -/
inductive LexCause where
  /-- A block comment is not closed. -/
  | openComment
  /-- A string is not closed. -/
  | openString
  /-- No token starts with this character. -/
  | unexpected (c : Char)
deriving DecidableEq

/-- What a place of the grammar asks for: a mark, or a name for some purpose. -/
inductive Wanted where
  | headerClose
  | specialHeaderClose
  | assignment
  | arrayClose
  | fieldColon
  | recordClose
  | groupClose
  | setClose
  | callClose
  | dynaClose
  | targetPoint
  | targetClose
  | environmentOpen
  | environmentClose
  | localizationOpen
  | localizationClose
  | elementClose
  | sectionName
  | parentName
  | specialName
  | fieldName
  | targetSection
  | targetKey
  | macroName
  | environmentName
  | localizationName
  | localizationPart
  | elementType
deriving DecidableEq

namespace Wanted

/-- Whether a name is asked for, and not a mark. -/
def isName : Wanted → Bool
  | sectionName => true
  | parentName => true
  | specialName => true
  | fieldName => true
  | targetSection => true
  | targetKey => true
  | macroName => true
  | environmentName => true
  | localizationName => true
  | localizationPart => true
  | elementType => true
  | _ => false

end Wanted

/-- Why the tokens form no document or expression. -/
inductive ParseCause where
  /-- Something else stands where this is asked for. -/
  | wanted (w : Wanted)
  /-- The expression is over, and the input is not. -/
  | trailingInput
  /-- A token stands before the first section. -/
  | outsideSections
  /-- A marker section has a body. -/
  | markerBody (name : String)
  /-- There is no special section of this name. -/
  | unknownSpecial (name : String)
  /-- An entry of a section is neither a property nor an addition to the registry. -/
  | badEntry
  /-- No value starts with this token. -/
  | noValue
  /-- The number does not fit. -/
  | numberRange (text : String)
  /-- The digits after `#` are not those of a color. -/
  | badColor (digits : String)
  /-- A dotted name is called. -/
  | notConstructor (name : String)
  /-- There is no constructor of this name. -/
  | unknownConstructor (name : String)
  /-- A deferred expression is empty. -/
  | emptyDyna
  /-- A constructor has the wrong number of arguments. -/
  | argumentCount (name allowed : String) (count : Nat)
  /-- A constructor has an argument of the wrong kind. -/
  | argumentKind (name allowed : String)
  /-- Values are nested too deeply. -/
  | tooDeep
  /-- The token is no part of a rule. -/
  | badRule
deriving DecidableEq

/-- Why a document could not be put together or resolved. -/
inductive CompileCause where
  /-- An entry of the include list is no path. -/
  | includeEntry (typeName : String)
  /-- A section inherits from itself. -/
  | inheritanceCycle (name : String)
  /-- A parent is not declared. -/
  | parentMissing (parent child : String)
  /-- A section is not declared. -/
  | sectionMissing (name : String)
  /-- A reference leads back to a section that is being resolved. -/
  | referenceCycle (sectionName : String)
  /-- A macro is defined through itself. -/
  | macroCycle (name : String)
  /-- An environment variable is not set. -/
  | environmentMissing (name : String)
  /-- A reference to a property names no section and key. -/
  | badTarget (target : String)
  /-- A reference leads nowhere. -/
  | targetMissing (target : String)
  /-- A macro is not defined. -/
  | macroMissing (name : String)
deriving DecidableEq

/-- How a program can be damaged. -/
inductive Damage where
  /-- The code ends without a halt. -/
  | noHalt
  /-- No instruction has this number. -/
  | unknownOpcode (byte : Nat)
  /-- The code ends inside an instruction. -/
  | cutOperand
  /-- There is no constant at this index. -/
  | noConstant (index : Nat)
  /-- An instruction takes more values than there are. -/
  | underflow
  /-- The constant of a reference instruction is none. -/
  | notReference
  /-- The name of a field is no string. -/
  | notName
  /-- More than one value is left at the end. -/
  | leftover
deriving DecidableEq

/-- Why an operation or an evaluation has no value. -/
inductive EvaluationCause where
  /-- The operator does not apply to these types. -/
  | mismatch (op : BinaryOp) (left right : String)
  /-- Division or remainder by zero. -/
  | zeroDivisor
  /-- The result is no 32-bit integer. -/
  | overflow (left : Int32) (op : BinaryOp) (right : Int32)
  /-- The negated integer is no 32-bit integer. -/
  | negationOverflow (n : Int32)
  /-- Values of this type have no opposite. -/
  | notNegatable (typeName : String)
  /-- A rule of a schema is no expression. -/
  | ruleInExpression
  /-- The context has no value for the reference. -/
  | unresolved (r : Reference)
  /-- An index or a count of the program does not fit its operand. -/
  | tooLarge
  /-- The program is damaged. -/
  | corrupt (offset : Nat) (damage : Damage)
deriving DecidableEq

/-- The kinds of violations of a schema. -/
inductive ViolationKind where
  | missingSection
  | missingProperty
  | typeMismatch
  | rangeError
deriving DecidableEq

/-- Which rule of a schema a document violates. -/
inductive Violation where
  /-- A section with required properties is not there. -/
  | missingSection
  /-- A required property is not there. -/
  | missingProperty (key : String)
  /-- A property that may not be left empty is not there. -/
  | emptyProperty (key : String)
  /-- A property has a value of another type. -/
  | typeMismatch (key expected actual : String)
  /-- A number is below its bound. -/
  | belowMinimum (key : String) (actual bound : Extended)
  /-- A number is above its bound. -/
  | aboveMaximum (key : String) (actual bound : Extended)
deriving DecidableEq

/-- Why bytes are no document, or a document has no bytes. -/
inductive FormatCause where
  /-- The first four bytes are not the mark of the format. -/
  | badMagic (found : Nat)
  /-- The version is newer than the known ones. -/
  | newerVersion (found : Nat)
  /-- No value starts with this byte. -/
  | unknownTag (found : Nat)
  /-- The data end too early. -/
  | unexpectedEnd (wanted left : Nat)
  /-- A string is not UTF-8. -/
  | badText (fault : Utf8.Fault)
  /-- Values of this type have no encoding. -/
  | notEncodable (typeName : String)
  /-- A count does not fit its field. -/
  | countTooLarge
  /-- The document is over, and the data are not. -/
  | trailingBytes
  /-- There is no reference kind with this number. -/
  | unknownReferenceKind (found : Nat)
  /-- Values are nested too deeply. -/
  | tooDeep
deriving DecidableEq

/-- Why a file could not be opened. -/
inductive ReadFailure where
  | notFound
  | notADirectory
  | isADirectory
  | notText
deriving DecidableEq

/-- Why a file has no document. -/
inductive FileCause where
  /-- The file to compile does not exist. -/
  | rootMissing
  /-- A file to include does not exist. -/
  | includeMissing
  /-- No file is known under this path. -/
  | unknownPath
  /-- Reading failed. -/
  | unreadable (failure : ReadFailure)
deriving DecidableEq

/-! ## Faults -/

/-- A cause and the place where it arose. -/
inductive Fault where
  | lex (cause : LexCause) (span : Span)
  /-- With the token, or whatever else, that was found instead. -/
  | parse (cause : ParseCause) (found : String) (span : Span)
  | compile (cause : CompileCause) (span : Option Span)
  | evaluation (cause : EvaluationCause) (span : Option Span)
  | validation (violation : Violation) (sectionName : String)
  | format (cause : FormatCause) (offset : Nat)
  | file (cause : FileCause) (path : String)
deriving DecidableEq

end Yini
