import Yini.Fault.Basic

/-!
Reports: how a fault is told.  A report has a subject, a message, perhaps a hint and perhaps a code;
`Report.text` writes it on one line, and `Fault.report` words each cause.  Reports can also be made
without a fault, for errors that a program around the library wants to tell in the same form.
-/

namespace Yini

/-! ## Reports -/

/-- The stage that a report comes from, with the place it is about. -/
inductive Subject where
  | lex (character : Char) (span : Span)
  | parse (found : String) (span : Span)
  | compile (span : Option Span)
  | evaluation (span : Option Span)
  | validation (kind : ViolationKind) (sectionName : String) (property : Option String)
  | format (offset : Nat)
  | file (path : String)
deriving DecidableEq

/-- An error as it is told. -/
structure Report where
  subject : Subject
  message : String
  hint : Option String
  code : Option Nat
deriving DecidableEq

/-- The name of a kind of violation in messages. -/
def ViolationKind.text : ViolationKind → String
  | missingSection => "missing section"
  | missingProperty => "missing property"
  | typeMismatch => "type mismatch"
  | rangeError => "range violation"

namespace Report

/-- The position that the report is about. -/
def span? (r : Report) : Option Span :=
  match r.subject with
  | .lex _ s => some s
  | .parse _ s => some s
  | .compile s => s
  | .evaluation s => s
  | _ => none

/-- The whole report on one line. -/
def text (r : Report) : String :=
  let hint := match r.hint with
    | some h => " Hint: " ++ h
    | none => ""
  let code := match r.code with
    | some c => " Code: " ++ toString c
    | none => ""
  let place : Option Span → String
    | some s => " at " ++ s.text
    | none => ""
  match r.subject with
  | .lex c s => "[YINI] Lex Error at " ++ s.text ++ ": " ++ r.message ++ " '" ++ c.toString ++ "'" ++
      hint ++ code
  | .parse found s => "[YINI] Parse Error at " ++ s.text ++ ": " ++ r.message ++ ", found " ++
      found ++ hint ++ code
  | .compile s => "[YINI] Compile Error" ++ place s ++ ": " ++ r.message ++ hint ++ code
  | .evaluation s => "[YINI] Evaluation Error" ++ place s ++ ": " ++ r.message ++ hint ++ code
  | .validation kind name _ => "[YINI] Validation Error (" ++ kind.text ++ ") in [" ++ name ++
      "]: " ++ r.message ++ code
  | .format offset => "[YINI] Format Error at byte " ++ toString offset ++ ": " ++ r.message ++ code
  | .file path => "[YINI] File Error '" ++ path ++ "': " ++ r.message ++ hint ++ code

end Report

/-! ## Wordings -/

namespace LexCause

/-- The character that the report shows. -/
def character : LexCause → Char
  | openComment => '/'
  | openString => '"'
  | unexpected c => c

/-- The wording of a cause. -/
def message : LexCause → String
  | openComment => "Unterminated block comment"
  | openString => "Unterminated string literal"
  | unexpected _ => "Unexpected character"

/-- The advice for a cause. -/
def hint : LexCause → Option String
  | openComment => some "Close the comment with */"
  | openString => some "Close the string with a matching quote"
  | unexpected _ => none

/-- The code of a cause. -/
def code : LexCause → Nat
  | openComment => 102
  | openString => 103
  | unexpected _ => 104

end LexCause

namespace Wanted

/-- What a place of the grammar asks for, in words. -/
def message : Wanted → String
  | headerClose => "Expected ']' after section name"
  | specialHeaderClose => "Expected ']' after special section name"
  | assignment => "Expected '=' after property key"
  | arrayClose => "Expected ']' to close array"
  | fieldColon => "Expected ':' after map key"
  | recordClose => "Expected '\x7d' to close map"
  | groupClose => "Expected ')' to close group"
  | setClose => "Expected ')' to close set"
  | callClose => "Expected ')' to close constructor"
  | dynaClose => "Expected ')' to close Dyna"
  | targetPoint => "Expected '.' between section and key"
  | targetClose => "Expected '\x7d' to close reference"
  | environmentOpen => "Expected '\x7b' after '$'"
  | environmentClose => "Expected '\x7d' to close environment reference"
  | localizationOpen => "Expected '\x7b' after '%'"
  | localizationClose => "Expected '\x7d' to close localization reference"
  | elementClose => "Expected ']' after element type"
  | sectionName => "Expected section name"
  | parentName => "Expected parent section name"
  | specialName => "Expected identifier after '#'"
  | fieldName => "Expected key in map"
  | targetSection => "Expected section name in @\x7bSection.Key\x7d"
  | targetKey => "Expected key name in @\x7bSection.Key\x7d"
  | macroName => "Expected macro name after '@'"
  | environmentName => "Expected environment variable name"
  | localizationName => "Expected localization key"
  | localizationPart => "Expected identifier after '.'"
  | elementType => "Expected element type"

end Wanted

/-- The constructors, as hints name them. -/
def constructorsHint : String := "Constructors are Color, Coord, Path, List, Array, Set and Dyna"

namespace ParseCause

/-- The wording of a cause. -/
def message : ParseCause → String
  | wanted w => w.message
  | trailingInput => "Unexpected trailing input after expression"
  | outsideSections => "Unexpected token at top level"
  | markerBody name => "[#" ++ name ++ "] is a marker and takes no body"
  | unknownSpecial name => "Unknown special section '#" ++ name ++ "'"
  | badEntry => "Expected a property key or '+='"
  | noValue => "Unexpected token in value position"
  | numberRange text => "Number literal '" ++ text ++ "' is out of range"
  | badColor digits => "Invalid hex color '#" ++ digits ++ "'"
  | notConstructor name => "'" ++ name ++ "' is not a constructor"
  | unknownConstructor name => "Unknown type constructor '" ++ name ++ "'"
  | emptyDyna => "Dyna() needs an expression"
  | argumentCount name allowed count =>
    name ++ "() takes " ++ allowed ++ " arguments, got " ++ toString count
  | argumentKind name allowed => name ++ "() expects " ++ allowed
  | tooDeep => "Value nested deeper than " ++ toString maxNesting ++ " levels"
  | badRule => "Expected a schema modifier"

/-- The advice for a cause. -/
def hint : ParseCause → Option String
  | outsideSections => some "All properties must belong to a [Section]"
  | unknownSpecial _ => some "Use [#define], [#include], [#schema] or [#end_schema]"
  | numberRange _ => some "Integers are 32-bit signed"
  | badColor _ => some "Use #RGB or #RRGGBB"
  | notConstructor _ => some constructorsHint
  | unknownConstructor _ => some constructorsHint
  | tooDeep => some "Flatten the value or split it over several keys"
  | badRule => some "Use !, ?, ~, e, min=, max=, a type name or =default"
  | _ => none

/-- The code of a cause. -/
def code : ParseCause → Nat
  | wanted w => if w.isName then 203 else 202
  | trailingInput => 204
  | outsideSections => 205
  | markerBody _ => 206
  | unknownSpecial _ => 206
  | badEntry => 207
  | noValue => 210
  | numberRange _ => 211
  | badColor _ => 212
  | notConstructor _ => 213
  | unknownConstructor _ => 213
  | emptyDyna => 214
  | argumentCount .. => 215
  | argumentKind .. => 216
  | tooDeep => 217
  | badRule => 220

end ParseCause

namespace CompileCause

/-- The wording of a cause. -/
def message : CompileCause → String
  | includeEntry typeName => "Include entries must be paths, found " ++ typeName
  | inheritanceCycle name => "Circular inheritance detected: " ++ name
  | parentMissing parent child => "Parent section '" ++ parent ++ "' of '" ++ child ++ "' not found"
  | sectionMissing name => "Section '" ++ name ++ "' not found"
  | referenceCycle name => "Circular reference through section '" ++ name ++ "'"
  | macroCycle name => "Circular macro definition: @" ++ name
  | environmentMissing name => "Environment variable '" ++ name ++ "' is not set"
  | badTarget target => "Invalid section reference '" ++ target ++ "'"
  | targetMissing target => "Reference not found: " ++ target
  | macroMissing name => "Undefined macro: @" ++ name

/-- The advice for a cause. -/
def hint : CompileCause → Option String
  | includeEntry _ => some "Write += \"file.yini\" or += Path(\"file.yini\")"
  | inheritanceCycle _ =>
    some "A section cannot inherit from itself, directly or through its parents"
  | parentMissing .. => some "Declare the parent section or fix its name"
  | sectionMissing _ => none
  | referenceCycle _ =>
    some "Section references must not loop back to a section that is still being resolved"
  | macroCycle _ => none
  | environmentMissing _ => some "Set the variable or use MissingEnvPolicy::EmptyString"
  | badTarget _ => some "Use @\x7bSection.Key\x7d"
  | targetMissing _ => none
  | macroMissing _ => some "Define it in a [#define] section"

/-- The code of a cause. -/
def code : CompileCause → Nat
  | inheritanceCycle _ => 302
  | parentMissing .. => 303
  | sectionMissing _ => 303
  | referenceCycle _ => 304
  | macroCycle _ => 304
  | environmentMissing _ => 305
  | includeEntry _ => 306
  | badTarget _ => 307
  | targetMissing _ => 307
  | macroMissing _ => 308

end CompileCause

/-- The wording of a damage. -/
def Damage.message : Damage → String
  | noHalt => "ran past the end of the program"
  | unknownOpcode byte => "unknown opcode " ++ toString byte
  | cutOperand => "truncated operand"
  | noConstant index => "constant " ++ toString index ++ " out of range"
  | underflow => "stack underflow"
  | notReference => "PushRef operand is not a reference"
  | notName => "map key is not a string"
  | leftover => "values left on the stack"

namespace EvaluationCause

/-- The wording of a cause. -/
def message : EvaluationCause → String
  | mismatch op left right => "Cannot apply '" ++ op.symbol ++ "' to " ++ left ++ " and " ++ right
  | zeroDivisor => "Division by zero"
  | overflow left op right => "Integer overflow in " ++ toString left.toInt ++ " " ++ op.symbol ++
      " " ++ toString right.toInt
  | negationOverflow n => "Integer overflow negating " ++ toString n.toInt
  | notNegatable typeName => "Cannot negate a value of type " ++ typeName
  | ruleInExpression => "Schema definitions cannot be evaluated"
  | unresolved r => "Cannot resolve " ++ r.kind.name ++ " reference '" ++ r.target ++ "'"
  | tooLarge => "Expression is too large to compile"
  | corrupt offset damage =>
    "Invalid bytecode at offset " ++ toString offset ++ ": " ++ damage.message

/-- The advice for a cause. -/
def hint : EvaluationCause → Option String
  | zeroDivisor => some "Check the divisor of '/' and '%'"
  | unresolved _ => some "Provide the value through the evaluation context"
  | _ => none

/-- The code of a cause. -/
def code : EvaluationCause → Nat
  | mismatch .. => 501
  | zeroDivisor => 502
  | overflow .. => 503
  | negationOverflow _ => 503
  | notNegatable _ => 504
  | ruleInExpression => 505
  | unresolved _ => 506
  | tooLarge => 507
  | corrupt .. => 508

end EvaluationCause

namespace Violation

/-- The kind of a violation. -/
def kind : Violation → ViolationKind
  | missingSection => .missingSection
  | missingProperty _ => .missingProperty
  | emptyProperty _ => .missingProperty
  | typeMismatch .. => .typeMismatch
  | belowMinimum .. => .rangeError
  | aboveMaximum .. => .rangeError

/-- The property that a violation is about. -/
def property : Violation → Option String
  | missingSection => none
  | missingProperty key => some key
  | emptyProperty key => some key
  | typeMismatch key _ _ => some key
  | belowMinimum key _ _ => some key
  | aboveMaximum key _ _ => some key

/-- The wording of a violation in a section. -/
def message (name : String) : Violation → String
  | missingSection => "Missing required section: [" ++ name ++ "]"
  | missingProperty key => "Missing required property: " ++ key ++ " in [" ++ name ++ "]"
  | emptyProperty key => "Property " ++ key ++ " in [" ++ name ++ "] is missing and may not be empty"
  | typeMismatch key expected actual =>
    "Property " ++ key ++ " expected type " ++ expected ++ ", got " ++ actual
  | belowMinimum key actual bound => "Property " ++ key ++ " value " ++ actual.text .double ++
      " is less than min " ++ bound.text .double
  | aboveMaximum key actual bound => "Property " ++ key ++ " value " ++ actual.text .double ++
      " is greater than max " ++ bound.text .double

/-- The code of a violation. -/
def code (v : Violation) : Nat :=
  match v.kind with
  | .missingSection => 401
  | .missingProperty => 402
  | .typeMismatch => 403
  | .rangeError => 404

end Violation

/-- The wording of a fault in a text. -/
def Utf8.Fault.message : Utf8.Fault → String
  | .invalid index length => "invalid utf-8 sequence of " ++ toString length ++
      " bytes from index " ++ toString index
  | .incomplete index => "incomplete utf-8 byte sequence from index " ++ toString index

namespace FormatCause

/-- The newest version of the format. -/
def newestVersion : Nat := 1

/-- A number in eight hexadecimal digits. -/
def hex8 (n : Nat) : String :=
  let ds := (Nat.toDigits 16 n).map Char.toUpper
  String.ofList (List.replicate (8 - ds.length) '0' ++ ds)

/-- The wording of a cause. -/
def message : FormatCause → String
  | badMagic found => "Bad magic 0x" ++ hex8 found ++ ", not a YBIN buffer"
  | newerVersion found => "Unsupported YBIN version " ++ toString found ++
      " (newest known is " ++ toString newestVersion ++ ")"
  | unknownTag found => "Unknown value tag " ++ toString found
  | unexpectedEnd wanted left => "Unexpected end of data: wanted " ++ toString wanted ++
      " bytes, " ++ toString left ++ " left"
  | badText fault => "Invalid UTF-8 in string: " ++ fault.message
  | notEncodable typeName => "A " ++ typeName ++ " cannot be encoded; compile the document first"
  | countTooLarge => "Collection too large for YBIN"
  | trailingBytes => "Trailing bytes after document"
  | unknownReferenceKind found => "Unknown reference kind " ++ toString found
  | tooDeep => "Values nested deeper than " ++ toString maxNesting ++ " levels"

/-- The code of a cause. -/
def code : FormatCause → Nat
  | badMagic _ => 601
  | newerVersion _ => 602
  | unknownTag _ => 603
  | unexpectedEnd .. => 604
  | badText _ => 605
  | notEncodable _ => 606
  | countTooLarge => 607
  | trailingBytes => 608
  | unknownReferenceKind _ => 609
  | tooDeep => 611

end FormatCause

/-- The wording of a failed read. -/
def ReadFailure.message : ReadFailure → String
  | notFound => "No such file or directory (os error 2)"
  | notADirectory => "Not a directory (os error 20)"
  | isADirectory => "Is a directory (os error 21)"
  | notText => "stream did not contain valid UTF-8"

namespace FileCause

/-- The wording of a cause. -/
def message : FileCause → String
  | rootMissing => "File not found"
  | includeMissing => "Include file not found"
  | unknownPath => "No such file"
  | unreadable failure => "Failed to read file: " ++ failure.message

/-- The advice for a cause. -/
def hint : FileCause → Option String
  | rootMissing => some "Check the path passed to compile_file"
  | includeMissing => some "Include paths are relative to the including file"
  | unknownPath => none
  | unreadable _ => some "Check that the file exists and is readable"

/-- The code of all file faults. -/
def code : Nat := 301

end FileCause

namespace Fault

/-- The report of a fault. -/
def report : Fault → Report
  | lex c s => ⟨.lex c.character s, c.message, c.hint, some c.code⟩
  | parse c found s => ⟨.parse found s, c.message, c.hint, some c.code⟩
  | compile c s => ⟨.compile s, c.message, c.hint, some c.code⟩
  | evaluation c s => ⟨.evaluation s, c.message, c.hint, some c.code⟩
  | validation v name => ⟨.validation v.kind name v.property, v.message name, none, some v.code⟩
  | format c offset => ⟨.format offset, c.message, none, some c.code⟩
  | file c path => ⟨.file path, c.message, c.hint, some FileCause.code⟩

/-- The code of a fault. -/
def code : Fault → Nat
  | lex c _ => c.code
  | parse c _ _ => c.code
  | compile c _ => c.code
  | evaluation c _ => c.code
  | validation v _ => v.code
  | format c _ => c.code
  | file _ _ => FileCause.code

theorem code_report (f : Fault) : f.report.code = some f.code := by cases f <;> rfl

end Fault

end Yini
