import Yini.Value.Basic

/-!
Values as source text.  `Value.text` writes a value so that reading it gives the value back: floats
keep a point, strings are quoted, and an operand is put in parentheses exactly where it would
otherwise be grouped in another way (`Value.needsGroup`).

Three kinds of values have no text of their own: a struct without fields is read back as a map, and
infinities and missing numbers are read back as names.
-/

namespace Yini

/-! ## Atoms -/

/-- The characters that stand for `c` in a quoted string. -/
def escape : Char → List Char
  | '"' => ['\\', '"']
  | '\\' => ['\\', '\\']
  | '\n' => ['\\', 'n']
  | '\t' => ['\\', 't']
  | '\r' => ['\\', 'r']
  | c => [c]

/-- A string in quotes. -/
def quote (s : String) : String := String.ofList ('"' :: s.toList.flatMap escape ++ ['"'])

/-- A float as a literal.  Whole numbers get `.0`, so that they are read back as floats. -/
def Binary32.literal (x : Binary32) : String :=
  let text := x.text
  if text.toList.contains '.' || !x.isFinite then text else text ++ ".0"

/-- A byte in two hexadecimal digits. -/
def hex2 (b : UInt8) : String :=
  let ds := (Nat.toDigits 16 b.toNat).map Char.toUpper
  String.ofList (List.replicate (2 - ds.length) '0' ++ ds)

/-- A color.  The short form has no place for a transparent one. -/
def Color.text (c : Color) : String :=
  if c.alpha = 255 then "#" ++ hex2 c.red ++ hex2 c.green ++ hex2 c.blue
  else
    let channels := [c.red, c.green, c.blue, c.alpha].map fun b => toString b.toNat
    "Color(" ++ String.intercalate ", " channels ++ ")"

/-- A point, with its third coordinate if it is a point of space. -/
def Coord.text (c : Coord) : String :=
  let axes := if c.spatial then [c.x, c.y, c.z] else [c.x, c.y]
  "Coord(" ++ String.intercalate ", " (axes.map Binary32.literal) ++ ")"

/-- A reference. -/
def Reference.text (r : Reference) : String :=
  match r.kind with
  | .environment => "$\x7b" ++ r.target ++ "\x7d"
  | .crossSection => "@\x7b" ++ r.target ++ "\x7d"
  | .macroName => "@" ++ r.target
  | .localization => "%\x7b" ++ r.target ++ "\x7d"

/-- An atom. -/
def Atom.text : Atom → String
  | .int n => toString n.toInt
  | .float x => x.literal
  | .bool true => "true"
  | .bool false => "false"
  | .string s => quote s
  | .color c => c.text
  | .coord c => c.text
  | .path p => "Path(" ++ quote p ++ ")"
  | .reference r => r.text
  | .dyna e => "Dyna(" ++ e ++ ")"

/-! ## Values -/

/-- Where an operand stands: on one side of an operator, or behind a minus sign. -/
inductive Place where
  | left (op : BinaryOp)
  | right (op : BinaryOp)
  | negated
deriving DecidableEq

/-- Texts inside marks, with commas between them. -/
def enclose (opening closing : String) (texts : List String) : String :=
  opening ++ String.intercalate ", " texts ++ closing

/-- A text in parentheses, if they are needed. -/
def group (needed : Bool) (text : String) : String := if needed then "(" ++ text ++ ")" else text

/-- The mark that opens a sequence. -/
def SequenceKind.opening : SequenceKind → String
  | array => "["
  | list => "List("
  | set => "Set("

/-- The mark that closes a sequence. -/
def SequenceKind.closing : SequenceKind → String
  | array => "]"
  | list => ")"
  | set => ")"

/-- The marks of a rule in their order.  A default value says by itself that it is filled in, so
    what happens otherwise is only told where it differs. -/
def RuleMarks.texts (m : RuleMarks) (fallback lower upper : Option String) : List String :=
  [match m.requirement with
    | .required => "!"
    | .optional => "?"] ++
  m.typeName.toList ++
  (fallback.map ("=" ++ ·)).toList ++
  (match m.whenEmpty with
    | .ignore => if fallback.isSome then ["~"] else []
    | .refuse => ["e"]
    | .fill => []) ++
  (lower.map ("min=" ++ ·)).toList ++
  (upper.map ("max=" ++ ·)).toList

namespace Value

/-- Whether an operand would be grouped in another way without parentheses. -/
def needsGroup : Value → Place → Bool
  | binary _ op _ _, .left parent => op.precedence < parent.precedence
  | binary _ op _ _, .right parent => op.precedence ≤ parent.precedence
  | binary .., .negated => true
  | _, _ => false

mutual

/-- The value as source text. -/
def text : Value → String
  | atom a _ => a.text
  | sequence k items _ => enclose k.opening k.closing (itemTexts items)
  | record .map fields _ =>
    "\x7b" ++ String.join ((fieldTexts fields).map (· ++ ", ")) ++ "\x7d"
  | record .struct fields _ => enclose "\x7b" "\x7d" (fieldTexts fields)
  | binary l op r _ =>
    group (l.needsGroup (.left op)) l.text ++ " " ++ op.symbol ++ " " ++
      group (r.needsGroup (.right op)) r.text
  | neg v _ => "-" ++ group (v.needsGroup .negated) v.text
  | rule m d lo hi _ =>
    String.intercalate ", " (m.texts (optionText d) (optionText lo) (optionText hi))
termination_by structural v => v

/-- The texts of the values of a list. -/
def itemTexts : List Value → List String
  | [] => []
  | v :: vs => v.text :: itemTexts vs
termination_by structural vs => vs

/-- The texts of fields, each with its name. -/
def fieldTexts : List (String × Value) → List String
  | [] => []
  | (k, v) :: fs => (k ++ ": " ++ v.text) :: fieldTexts fs
termination_by structural fs => fs

/-- The text of a value that may be absent. -/
def optionText : Option Value → Option String
  | none => none
  | some v => some v.text
termination_by structural o => o

end

end Value

end Yini
