import Yini.Grammar.Parser

/-!
Expressions.  Operators bind as usual: `*`, `/` and `%` before `+` and `-`, each from the left.  A
factor is a negated factor or a primary value, and a primary value may hold expressions again.

The rules for everything inside a factor take the rule for factors as an argument, so nesting is
recursion on the one number that `Grammar.factor` counts down: the levels that may still be opened.
-/

namespace Yini.Grammar

/-! ## Operator chains -/

/-- Continues a chain of operands that `op?` joins, from the left.  `n` bounds the number of
    operators. -/
def chainFrom (op? : Token → Option BinaryOp) (operand : Grammar Value) :
    Nat → Value → Grammar Value
  | 0, left => return left
  | n + 1, left => do
    match op? (← peek) with
    | none => return left
    | some op =>
      bump
      let right ← operand
      chainFrom op? operand n (.binary left op right left.span)

/-- Operands joined by operators, from the left. -/
def chain (op? : Token → Option BinaryOp) (operand : Grammar Value) : Grammar Value := do
  let left ← operand
  chainFrom op? operand (← remaining) left

/-- The operators between factors. -/
def factorOp? : Token → Option BinaryOp
  | .mark .star => some .mul
  | .mark .slash => some .div
  | .mark .percent => some .mod
  | _ => none

/-- The operators between terms. -/
def termOp? : Token → Option BinaryOp
  | .mark .plus => some .add
  | .mark .minus => some .sub
  | _ => none

/-- An expression whose factors are read by `factor`. -/
def expressionOf (factor : Grammar Value) : Grammar Value := chain termOp? (chain factorOp? factor)

/-! ## Literals -/

/-- The greatest integer. -/
def maxInt : Nat := 2147483647

/-- The number that a numeral denotes: a float if it has a point, else an integer if it fits. -/
def numberOf? (digits : String) : Option Atom :=
  let cs := digits.toList
  if cs.contains '.' then some (.float (.ofDecimal false (.ofNumeral cs)))
  else
    let n := Nat.ofDigitChars 10 cs 0
    if n ≤ maxInt then some (.int (Int32.ofNat n)) else none

/-- Whether a numeral denotes the number whose negation is the least integer. -/
def isLeastNegated (digits : String) : Bool :=
  !digits.toList.contains '.' && Nat.ofDigitChars 10 digits.toList 0 == maxInt + 1

/-- A number. -/
def number (digits : String) : Grammar Value := do
  match numberOf? digits with
  | some a =>
    let span ← here
    bump
    return .atom a span
  | none => fail (.numberRange digits)

/-- Takes the token of an atom. -/
def literal (a : Atom) : Grammar Value := do
  let span ← here
  bump
  return .atom a span

/-! ## Sequences and records -/

/-- Expressions with commas between them, up to the mark that closes them; a comma may stand before
    it.  Those read before are kept in reverse. -/
def itemsFrom (expression : Grammar Value) (close : Mark) :
    Nat → List Value → Grammar (List Value)
  | 0, before => return before.reverse
  | n + 1, before => do
    if ← sees close then return before.reverse
    let v ← expression
    if ← eat .comma then itemsFrom expression close n (v :: before)
    else return (v :: before).reverse

/-- Expressions with commas between them, up to the mark that closes them. -/
def items (expression : Grammar Value) (close : Mark) : Grammar (List Value) := do
  itemsFrom expression close ((← remaining) + 1) []

/-- An array in brackets. -/
def array (expression : Grammar Value) : Grammar Value := do
  let span ← here
  bump
  let vs ← items expression .closeBracket
  expect .closeBracket .arrayClose
  return .sequence .array vs span

/-- Fields with commas between them, up to the closing brace, and whether a comma stands before it.
    A name that comes again replaces the value and keeps its place. -/
def fieldsFrom (expression : Grammar Value) :
    Nat → Entries Value → Bool → Grammar (Entries Value × Bool)
  | 0, before, trailing => return (before, trailing)
  | n + 1, before, trailing => do
    if ← sees .closeBrace then return (before, trailing)
    let (key, _) ← expectName .fieldName
    expect .colon .fieldColon
    let v ← expression
    let fields := before.insert key v
    if ← eat .comma then fieldsFrom expression n fields (← sees .closeBrace)
    else return (fields, trailing)

/-- A record in braces.  It is a map if it is empty or has a comma at its end, and a struct
    otherwise. -/
def record (expression : Grammar Value) : Grammar Value := do
  let span ← here
  bump
  let (fields, trailing) ← fieldsFrom expression ((← remaining) + 1) [] false
  expect .closeBrace .recordClose
  let kind : RecordKind := if trailing || fields.isEmpty then .map else .struct
  return .record kind fields span

/-- What stands in parentheses: an empty set, an expression, or a set of expressions with a comma
    after the first. -/
def groupOrSet (expression : Grammar Value) : Grammar Value := do
  let span ← here
  bump
  if ← eat .closeParen then return .sequence .set [] span
  let first ← expression
  if ← eat .comma then
    let more ← items expression .closeParen
    expect .closeParen .setClose
    return .sequence .set (first :: more) span
  else
    expect .closeParen .groupClose
    return first

/-! ## Colors -/

/-- Joins the names and numbers that follow without a gap.  Digits and letters of a color may have
    been cut into several tokens.  Each adds a character, so six rounds are enough for six digits. -/
def hexDigits : Nat → String → Grammar String
  | 0, digits => return digits
  | n + 1, digits => do
    let p ← get
    let piece : Option String :=
      if digits.utf8ByteSize < 6 && p.isAdjacent then
        match p.current.token with
        | .number text => some text
        | .ident text => some text
        | _ => none
      else none
    match piece with
    | some text =>
      bump
      hexDigits n (digits ++ text)
    | none => return digits

/-- The value of a hexadecimal digit. -/
def hexDigit? (c : Char) : Option UInt8 :=
  if c.isDigit then some (c.toNat - 48).toUInt8
  else if 'a' ≤ c ∧ c ≤ 'f' then some (c.toNat - 87).toUInt8
  else if 'A' ≤ c ∧ c ≤ 'F' then some (c.toNat - 55).toUInt8
  else none

/-- The color of three or six hexadecimal digits.  Of three, each stands for two equal ones. -/
def colorOf? (digits : String) : Option Color :=
  match digits.toList.mapM hexDigit? with
  | some [r, g, b] => some ⟨17 * r, 17 * g, 17 * b, 255⟩
  | some [r, r', g, g', b, b'] => some ⟨16 * r + r', 16 * g + g', 16 * b + b', 255⟩
  | _ => none

/-- A color after `#`. -/
def hexColor : Grammar Value := do
  let span ← here
  bump
  let digits ← hexDigits 6 ""
  match colorOf? digits with
  | some c => return .atom (.color c) span
  | none => throw (.parse (.badColor digits) (← peek).describe span)

/-! ## References -/

/-- A macro `@name` or a property `@{Section.Key}`. -/
def atReference : Grammar Value := do
  let span ← here
  bump
  if ← eat .openBrace then
    let (sectionName, _) ← expectName .targetSection
    expect .point .targetPoint
    let (key, _) ← expectName .targetKey
    expect .closeBrace .targetClose
    return .atom (.reference ⟨.crossSection, sectionName ++ "." ++ key⟩) span
  else
    let (name, _) ← expectName .macroName
    return .atom (.reference ⟨.macroName, name⟩) span

/-- An environment variable `${NAME}`. -/
def environmentReference : Grammar Value := do
  let span ← here
  bump
  expect .openBrace .environmentOpen
  let (name, _) ← expectName .environmentName
  expect .closeBrace .environmentClose
  return .atom (.reference ⟨.environment, name⟩) span

/-- The further parts of a dotted key. -/
def keyParts : Nat → String → Grammar String
  | 0, key => return key
  | n + 1, key => do
    if ← eat .point then
      let (part, _) ← expectName .localizationPart
      keyParts n (key ++ "." ++ part)
    else return key

/-- A localized text `%{some.key}`. -/
def localizationReference : Grammar Value := do
  let span ← here
  bump
  expect .openBrace .localizationOpen
  let (first, _) ← expectName .localizationName
  let key ← keyParts (← remaining) first
  expect .closeBrace .localizationClose
  return .atom (.reference ⟨.localization, key⟩) span

/-! ## Names and constructors -/

/-- The integer that a literal denotes, with its minus signs. -/
def literalInt? : Value → Option Int
  | .atom (.int n) _ => some n.toInt
  | .neg v _ => (literalInt? v).map fun n => -n
  | _ => none

/-- The float that a numeric literal denotes, with its minus signs. -/
def literalNumber? : Value → Option Binary32
  | .atom (.int n) _ => some (.ofInt n.toInt)
  | .atom (.float x) _ => some x
  | .neg v _ => (literalNumber? v).map Binary32.neg
  | _ => none

/-- Reads every argument of a constructor, and refuses the first that does not fit. -/
def arguments {α : Type} (name allowed : String) (read? : Value → Option α) :
    List Value → Except Fault (List α)
  | [] => .ok []
  | v :: vs =>
    match read? v with
    | some a => (arguments name allowed read? vs).map (a :: ·)
    | none => .error (.parse (.argumentKind name allowed) v.typeName v.span)

/-- A channel of a color. -/
def channel? (v : Value) : Option UInt8 :=
  match literalInt? v with
  | some n => if 0 ≤ n ∧ n ≤ 255 then some n.toNat.toUInt8 else none
  | none => none

/-- The text that a path is made of. -/
def pathText? : Value → Option String := Value.string?

/-- The value that a constructor makes of its arguments.  `span` is the place of its name. -/
def construct (name : String) (vs : List Value) (span : Span) : Except Fault Value :=
  let refuseCount (allowed : String) : Except Fault Value :=
    .error (.parse (.argumentCount name allowed vs.length) (toString vs.length ++ " arguments") span)
  if name = "Color" then
    if vs.length = 3 ∨ vs.length = 4 then do
      match ← arguments name "integer channels between 0 and 255" channel? vs with
      | [r, g, b] => return .atom (.color ⟨r, g, b, 255⟩) span
      | [r, g, b, a] => return .atom (.color ⟨r, g, b, a⟩) span
      | _ => refuseCount "3 or 4"
    else refuseCount "3 or 4"
  else if name = "Coord" then
    if vs.length = 2 ∨ vs.length = 3 then do
      match ← arguments name "numeric literals" literalNumber? vs with
      | [x, y] => return .atom (.coord ⟨x, y, .zero false, false⟩) span
      | [x, y, z] => return .atom (.coord ⟨x, y, z, true⟩) span
      | _ => refuseCount "2 or 3"
    else refuseCount "2 or 3"
  else if name = "Path" then
    match vs with
    | [v] => do
      match ← arguments name "a string" pathText? [v] with
      | [p] => return .atom (.path p) span
      | _ => refuseCount "1"
    | _ => refuseCount "1"
  else if name = "List" then .ok (.sequence .list vs span)
  else if name = "Array" then .ok (.sequence .array vs span)
  else if name = "Set" then .ok (.sequence .set vs span)
  else .error (.parse (.unknownConstructor name) ("identifier '" ++ name ++ "'") span)

/-- A deferred expression, from its opening parenthesis on.  It is read for its faults only: what is
    kept is its text, without white space at the ends. -/
def dyna (expression : Grammar Value) (span : Span) : Grammar Value := do
  bump
  if ← sees .closeParen then fail .emptyDyna
  let start := (← get).current.start
  let _ ← expression
  let stop := (← get).lastStop
  expect .closeParen .dynaClose
  let text := takeBytes (stop - start) (dropBytes start (← get).source)
  return .atom (.dyna (String.ofList (Text.trim text))) span

/-- A constructor and its arguments, from the opening parenthesis on. -/
def constructor (expression : Grammar Value) (name : String) (span : Span) : Grammar Value := do
  if name = "Dyna" then dyna expression span
  else
    bump
    let vs ← items expression .closeParen
    expect .closeParen .callClose
    match construct name vs span with
    | .ok v => return v
    | .error fault => throw fault

/-- The further parts of a dotted name.  A point that no name or number follows is left alone. -/
def nameParts : Nat → String → Grammar String
  | 0, name => return name
  | n + 1, name => do
    let p ← get
    let part : Option String :=
      if p.current.token = .mark .point then
        match p.second with
        | .ident text => some text
        | .number text => some text
        | _ => none
      else none
    match part with
    | some text =>
      bump
      bump
      nameParts n (name ++ "." ++ text)
    | none => return name

/-- What begins with a name: a constructor, or an unquoted text that may hold points. -/
def named (expression : Grammar Value) (first : String) : Grammar Value := do
  let span ← here
  bump
  if ← sees .openParen then constructor expression first span
  else
    let name ← nameParts (← remaining) first
    if ← sees .openParen then fail (.notConstructor name)
    return .atom (.string name) span

/-! ## Nesting -/

/-- A value without operators, whose parts are read by `expression`. -/
def primary (expression : Grammar Value) : Grammar Value := do
  match ← peek with
  | .number digits => number digits
  | .string text => literal (.string text)
  | .bool b => literal (.bool b)
  | .mark .openBracket => array expression
  | .mark .openBrace => record expression
  | .mark .openParen => groupOrSet expression
  | .mark .hash => hexColor
  | .mark .atSign => atReference
  | .mark .dollar => environmentReference
  | .mark .percent => localizationReference
  | .ident name => named expression name
  | _ => fail .noValue

/-- A negated factor, or a primary value.  The least integer has no positive counterpart, so it is
    read together with its sign.  The number counts the levels that may still be opened. -/
def factor : Nat → Grammar Value
  | 0 => fail .tooDeep
  | n + 1 => do
    if ← sees .minus then
      let span ← here
      bump
      match ← peek with
      | .number digits =>
        if isLeastNegated digits then
          bump
          return .atom (.int Int32.minValue) span
        else return .neg (← factor n) span
      | _ => return .neg (← factor n) span
    else primary (expressionOf (factor n))

/-- An expression. -/
def expression : Grammar Value := expressionOf (factor maxNesting)

end Yini.Grammar
