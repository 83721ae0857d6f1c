import Yini.Grammar.Document

/-!
The grammar with its bounds checked.  A rule of `Grammar` takes lexemes from the front of a list, where
nothing can be out of range.  Here all lexemes stay where they are, up to the end of the source, and a
`Tape` has a position in them.  Whatever could stop the program is a `Crash`: a list that is read or a
text that is cut out of range, an arm that is meant never to be taken, and a loop or a recursion that
goes on for longer than it could need.

Nesting is a counter in the tape, which `Checked.nested` puts back, also when what it runs fails.
-/

namespace Yini

/-! ## The state -/

/-- What would stop the program. -/
inductive Crash where
  /-- A list is read where it has no item. -/
  | index
  /-- A text is cut out of range or inside a character. -/
  | slice
  /-- An arm is taken that is meant never to be. -/
  | unreachable
  /-- A loop or a recursion goes on after the rounds that it could need. -/
  | endless
deriving DecidableEq

/-- How a call ends that gives no value. -/
inductive Checked.Halt where
  | fault (f : Fault)
  | crash (c : Crash)

/-- The lexemes of a source and a position in them. -/
structure Tape where
  file : Option String
  source : List Char
  /-- All lexemes.  The last one should be the end of the source. -/
  lexemes : List Lexeme
  position : Nat
  /-- Whether the sections to come hold schema rules. -/
  schemaMode : Bool
  /-- The levels that are open. -/
  depth : Nat

/-- A tape at the beginning of a source. -/
def Tape.ofSource (file : Option String) (source : String) : Except Fault Tape :=
  match Lexeme.read file source with
  | .ok (lexemes, finish) => .ok ⟨file, source.toList, lexemes ++ [finish], 0, false, 0⟩
  | .error fault => .error fault

/-- The tape behind the next lexeme. -/
def Tape.advance (t : Tape) : Tape := { t with position := t.position + 1 }

/-- The characters of the first `n` bytes and those behind them, if no character is cut. -/
def splitBytes? : Nat → List Char → Option (List Char × List Char)
  | 0, cs => some ([], cs)
  | _ + 1, [] => none
  | n + 1, c :: cs =>
    if c.utf8Size ≤ n + 1 then (splitBytes? (n + 1 - c.utf8Size) cs).map fun (a, b) => (c :: a, b) else none

/-- The characters between two bytes, if these are in range and in order, and no character is cut. -/
def slice? (start stop : Nat) (cs : List Char) : Option (List Char) :=
  if start ≤ stop then do
    let (_, behind) ← splitBytes? start cs
    let (text, _) ← splitBytes? (stop - start) behind
    return text
  else none

/-- A rule of the grammar on a tape. -/
abbrev Checked (α : Type) : Type := EStateM Checked.Halt Tape α

namespace Checked

/-! ## Elementary rules -/

/-- Stops the program. -/
def crash {α : Type} (c : Crash) : Checked α := throw (.crash c)

/-- The item of a list at a position. -/
def item {α : Type} (xs : List α) (i : Nat) : Checked α := do
  match xs[i]? with
  | some a => return a
  | none => crash .index

/-- The characters between two bytes of a text. -/
def cut (start stop : Nat) (cs : List Char) : Checked (List Char) := do
  match slice? start stop cs with
  | some text => return text
  | none => crash .slice

/-- The position `n` lexemes on, or that of the last lexeme. -/
def ahead (n : Nat) : Checked Nat := do
  let t ← get
  if t.lexemes.isEmpty then crash .index else return min (t.position + n) (t.lexemes.length - 1)

/-- The next lexeme. -/
def current : Checked Lexeme := do item (← get).lexemes (← ahead 0)

/-- The next token. -/
def peek : Checked Token := do return (← current).token

/-- The token after the next one. -/
def second : Checked Token := do
  let l ← item (← get).lexemes (← ahead 1)
  return l.token

/-- Whether the next lexeme begins where the one before it ends. -/
def isAdjacent : Checked Bool := do
  let t ← get
  if t.position = 0 ∨ t.lexemes.length ≤ t.position then return false
  else
    let next ← item t.lexemes t.position
    let last ← item t.lexemes (t.position - 1)
    return next.start == last.stop

/-- The bytes of the source up to the end of the lexeme taken last. -/
def lastStop : Checked Nat := do
  let t ← get
  if t.position = 0 then return 0
  else
    let last ← item t.lexemes (t.position - 1)
    return last.stop

/-- The position of the next token. -/
def here : Checked Span := do
  let l ← current
  return l.span (← get).file

/-- Takes the next lexeme, unless it is the end of the source. -/
def bump : Checked Lexeme := do
  let l ← current
  unless l.token = .finish do modify Tape.advance
  return l

/-- Fails at the next token. -/
def fail {α : Type} (cause : ParseCause) : Checked α := do
  let l ← current
  throw (.fault (.parse cause l.token.describe (l.span (← get).file)))

/-- Whether a mark comes next. -/
def sees (m : Mark) : Checked Bool := do return (← peek) = .mark m

/-- Takes a mark if it comes next. -/
def eat (m : Mark) : Checked Bool := do
  if ← sees m then
    let _ ← bump
    return true
  else
    return false

/-- Takes a mark that has to come next. -/
def expect (m : Mark) (w : Wanted) : Checked Unit := do
  if ← sees m then
    let _ ← bump
  else fail (.wanted w)

/-- Takes a name that has to come next, with its position. -/
def expectName (w : Wanted) : Checked (String × Span) := do
  match ← peek with
  | .ident name =>
    let span ← here
    let _ ← bump
    return (name, span)
  | _ => fail (.wanted w)

/-- Takes the name that comes next, with its position, where a name has been seen. -/
def takeName : Checked (String × Span) := do
  match ← peek with
  | .ident name =>
    let span ← here
    let _ ← bump
    return (name, span)
  | _ => crash .unreachable

/-- Runs a rule one level deeper. -/
def nested {α : Type} (c : Checked α) : Checked α := fun t =>
  if maxNesting ≤ t.depth then fail .tooDeep t
  else
    match c { t with depth := t.depth + 1 } with
    | .ok a u => .ok a { u with depth := u.depth - 1 }
    | .error halt u => .error halt { u with depth := u.depth - 1 }

/-- More rounds than there are lexemes.  A loop that takes a lexeme in each round ends earlier. -/
def rounds : Checked Nat := do return (← get).lexemes.length + 1

/-! ## Operator chains -/

/-- Continues a chain of operands that `op?` joins, from the left. -/
def chainFrom (op? : Token → Option BinaryOp) (operand : Checked Value) : Nat → Value → Checked Value
  | 0, _ => crash .endless
  | n + 1, left => do
    match op? (← peek) with
    | none => return left
    | some op =>
      let _ ← bump
      let right ← operand
      chainFrom op? operand n (.binary left op right left.span)

/-- Operands joined by operators, from the left. -/
def chain (op? : Token → Option BinaryOp) (operand : Checked Value) : Checked Value := do
  let left ← operand
  chainFrom op? operand (← rounds) left

/-- An expression whose factors are read by `factor`. -/
def expressionOf (factor : Checked Value) : Checked Value :=
  chain Grammar.termOp? (chain Grammar.factorOp? factor)

/-! ## Literals -/

/-- A number. -/
def number : Checked Value := do
  let span ← here
  match ← peek with
  | .number digits =>
    match Grammar.numberOf? digits with
    | some a =>
      let _ ← bump
      return .atom a span
    | none => fail (.numberRange digits)
  | _ => crash .unreachable

/-- A quoted text. -/
def quoted : Checked Value := do
  let l ← bump
  match l.token with
  | .string text => return .atom (.string text) (l.span (← get).file)
  | _ => crash .unreachable

/-- A truth value. -/
def truth : Checked Value := do
  let l ← bump
  match l.token with
  | .bool b => return .atom (.bool b) (l.span (← get).file)
  | _ => crash .unreachable

/-! ## Sequences and records -/

/-- Expressions with commas between them, up to the mark that closes them.  Those read before are kept
    in reverse. -/
def itemsFrom (expression : Checked Value) (close : Mark) : Nat → List Value → Checked (List Value)
  | 0, _ => crash .endless
  | n + 1, before => do
    if ← sees close then return before.reverse
    let v ← expression
    if ← eat .comma then itemsFrom expression close n (v :: before)
    else return (v :: before).reverse

/-- Expressions with commas between them, up to the mark that closes them. -/
def items (expression : Checked Value) (close : Mark) : Checked (List Value) := do
  itemsFrom expression close (← rounds) []

/-- An array in brackets. -/
def array (expression : Checked Value) : Checked Value := do
  let span ← here
  let _ ← bump
  let vs ← items expression .closeBracket
  expect .closeBracket .arrayClose
  return .sequence .array vs span

/-- Fields with commas between them, up to the closing brace, and whether a comma stands before it. -/
def fieldsFrom (expression : Checked Value) : Nat → Entries Value → Bool → Checked (Entries Value × Bool)
  | 0, _, _ => crash .endless
  | n + 1, before, trailing => do
    if ← sees .closeBrace then return (before, trailing)
    let (key, _) ← expectName .fieldName
    expect .colon .fieldColon
    let v ← expression
    let fields := before.insert key v
    if ← eat .comma then fieldsFrom expression n fields (← sees .closeBrace)
    else return (fields, trailing)

/-- A record in braces. -/
def record (expression : Checked Value) : Checked Value := do
  let span ← here
  let _ ← bump
  let (fields, trailing) ← fieldsFrom expression (← rounds) [] false
  expect .closeBrace .recordClose
  let kind : RecordKind := if trailing || fields.isEmpty then .map else .struct
  return .record kind fields span

/-- What stands in parentheses. -/
def groupOrSet (expression : Checked Value) : Checked Value := do
  let span ← here
  let _ ← bump
  if ← eat .closeParen then return .sequence .set [] span
  let first ← expression
  if ← eat .comma then
    let more ← items expression .closeParen
    expect .closeParen .setClose
    return .sequence .set (first :: more) span
  else
    expect .closeParen .groupClose
    return first

/-! ## Colors -/

/-- The name or number that follows without a gap. -/
def piece? : Checked (Option String) := do
  match ← peek with
  | .number text => return if ← isAdjacent then some text else none
  | .ident text => return if ← isAdjacent then some text else none
  | _ => return none

/-- Joins the names and numbers that follow without a gap, up to six bytes or more. -/
def hexDigits : Nat → String → Checked String
  | 0, _ => crash .endless
  | n + 1, digits => do
    if digits.utf8ByteSize < 6 then
      match ← piece? with
      | some text =>
        let _ ← bump
        hexDigits n (digits ++ text)
      | none => return digits
    else return digits

/-- Whether the characters are three or six hexadecimal digits. -/
def isHex (cs : List Char) : Bool :=
  (cs.length == 3 || cs.length == 6) && cs.all fun c => (Grammar.hexDigit? c).isSome

/-- The channel that two hexadecimal digits stand for. -/
def channel (cs : List Char) : UInt8 :=
  match cs.mapM Grammar.hexDigit? with
  | some [a, b] => 16 * a + b
  | _ => 0

/-- The channels of three digits, each of them doubled, or of six. -/
def channels (digits : String) : Checked Color := do
  if digits.utf8ByteSize = 3 then
    let doubled := digits.toList.map fun c => [c, c]
    return ⟨channel (← item doubled 0), channel (← item doubled 1), channel (← item doubled 2), 255⟩
  else
    let r ← cut 0 2 digits.toList
    let g ← cut 2 4 digits.toList
    let b ← cut 4 6 digits.toList
    return ⟨channel r, channel g, channel b, 255⟩

/-- A color after `#`. -/
def hexColor : Checked Value := do
  let span ← here
  let _ ← bump
  let digits ← hexDigits (← rounds) ""
  if isHex digits.toList then return .atom (.color (← channels digits)) span
  else throw (.fault (.parse (.badColor digits) (← peek).describe span))

/-! ## References -/

/-- A macro or a property of a section. -/
def atReference : Checked Value := do
  let span ← here
  let _ ← bump
  if ← eat .openBrace then
    let (sectionName, _) ← expectName .targetSection
    expect .point .targetPoint
    let (key, _) ← expectName .targetKey
    expect .closeBrace .targetClose
    return .atom (.reference ⟨.crossSection, sectionName ++ "." ++ key⟩) span
  else
    let (name, _) ← expectName .macroName
    return .atom (.reference ⟨.macroName, name⟩) span

/-- An environment variable. -/
def environmentReference : Checked Value := do
  let span ← here
  let _ ← bump
  expect .openBrace .environmentOpen
  let (name, _) ← expectName .environmentName
  expect .closeBrace .environmentClose
  return .atom (.reference ⟨.environment, name⟩) span

/-- The further parts of a dotted key. -/
def keyParts : Nat → String → Checked String
  | 0, _ => crash .endless
  | n + 1, key => do
    if ← eat .point then
      let (part, _) ← expectName .localizationPart
      keyParts n (key ++ "." ++ part)
    else return key

/-- A localized text. -/
def localizationReference : Checked Value := do
  let span ← here
  let _ ← bump
  expect .openBrace .localizationOpen
  let (first, _) ← expectName .localizationName
  let key ← keyParts (← rounds) first
  expect .closeBrace .localizationClose
  return .atom (.reference ⟨.localization, key⟩) span

/-! ## Names and constructors -/

/-- A deferred expression, from its opening parenthesis on.  Its text is cut out of the source. -/
def dyna (expression : Checked Value) (span : Span) : Checked Value := do
  let _ ← bump
  if ← sees .closeParen then fail .emptyDyna
  let start := (← current).start
  let _ ← expression
  let stop ← lastStop
  expect .closeParen .dynaClose
  let text ← cut start stop (← get).source
  return .atom (.dyna (String.ofList (Text.trim text))) span

/-- A constructor and its arguments, from the opening parenthesis on. -/
def constructor (expression : Checked Value) (name : String) (span : Span) : Checked Value := do
  if name = "Dyna" then dyna expression span
  else
    let _ ← bump
    let vs ← items expression .closeParen
    expect .closeParen .callClose
    match Grammar.construct name vs span with
    | .ok v => return v
    | .error fault => throw (.fault fault)

/-- Whether a point follows and a name or number after it. -/
def seesPart : Checked Bool := do
  if ← sees .point then
    match ← second with
    | .ident _ => return true
    | .number _ => return true
    | _ => return false
  else return false

/-- The further parts of a dotted name. -/
def nameParts : Nat → String → Checked String
  | 0, _ => crash .endless
  | n + 1, name => do
    if ← seesPart then
      let _ ← bump
      let l ← bump
      match l.token with
      | .ident text => nameParts n (name ++ "." ++ text)
      | .number text => nameParts n (name ++ "." ++ text)
      | _ => crash .unreachable
    else return name

/-- What begins with a name. -/
def named (expression : Checked Value) : Checked Value := do
  let (first, span) ← takeName
  if ← sees .openParen then constructor expression first span
  else
    let name ← nameParts (← rounds) first
    if ← sees .openParen then fail (.notConstructor name)
    return .atom (.string name) span

/-! ## Nesting -/

/-- A value without operators, whose parts are read by `expression`. -/
def primary (expression : Checked Value) : Checked Value := do
  match ← peek with
  | .number _ => number
  | .string _ => quoted
  | .bool _ => truth
  | .mark .openBracket => array expression
  | .mark .openBrace => record expression
  | .mark .openParen => groupOrSet expression
  | .mark .hash => hexColor
  | .mark .atSign => atReference
  | .mark .dollar => environmentReference
  | .mark .percent => localizationReference
  | .ident _ => named expression
  | _ => fail .noValue

/-- Takes the digits of the least integer, behind its sign. -/
def leastInteger? (span : Span) : Checked (Option Value) := do
  match ← peek with
  | .number digits =>
    if Grammar.isLeastNegated digits then
      let _ ← bump
      return some (.atom (.int Int32.minValue) span)
    else return none
  | _ => return none

/-- A negated factor, or a primary value.  The number bounds the recursion only: the limit of nesting
    ends it earlier. -/
def factor : Nat → Checked Value
  | 0 => crash .endless
  | n + 1 => nested do
    if ← sees .minus then
      let span ← here
      let _ ← bump
      match ← leastInteger? span with
      | some v => return v
      | none => return .neg (← factor n) span
    else primary (expressionOf (factor n))

/-- An expression. -/
def expression : Checked Value := expressionOf (factor (maxNesting + 1))

/-! ## Rules of a schema -/

/-- The type name that begins with `name`. -/
def elementType (name : String) : Checked String := do
  if ← (do if ← sees .openBracket then isAdjacent else return false) then
    let _ ← bump
    let (element, _) ← expectName .elementType
    expect .closeBracket .elementClose
    return name ++ "[" ++ element ++ "]"
  else return name

/-- Whether a word is the name of a bound, with a value behind it. -/
def seesBound (word : String) : Checked Bool := do
  if word = "min" ∨ word = "max" then return (← second) = .mark .assign else return false

/-- One mark, added to a rule. -/
def ruleMark (r : Rule) : Checked Rule := do
  match ← peek with
  | .mark .bang =>
    let _ ← bump
    return { r with marks := { r.marks with requirement := .required } }
  | .mark .question =>
    let _ ← bump
    return { r with marks := { r.marks with requirement := .optional } }
  | .mark .tilde =>
    let _ ← bump
    return { r with marks := { r.marks with whenEmpty := .ignore } }
  | .mark .assign =>
    let _ ← bump
    let v ← expression
    return { r with fallback := some v, marks := { r.marks with whenEmpty := .fill } }
  | .ident word =>
    if word = "e" then
      let _ ← bump
      return { r with marks := { r.marks with whenEmpty := .refuse } }
    else if ← seesBound word then
      let _ ← bump
      let _ ← bump
      let v ← expression
      if word = "min" then return { r with lower := some v } else return { r with upper := some v }
    else
      let (name, _) ← takeName
      let typeName ← elementType name
      return { r with marks := { r.marks with typeName := some typeName } }
  | _ => fail .badRule

/-- The further marks of a rule. -/
def ruleMarks : Nat → Rule → Checked Rule
  | 0, _ => crash .endless
  | n + 1, r => do
    let r ← ruleMark r
    if ← eat .comma then ruleMarks n r else return r

/-- A rule of a schema. -/
def rule : Checked Value := do
  let span ← here
  let r ← ruleMarks (← rounds) {}
  return r.toValue span

/-! ## Documents -/

/-- The names after a colon, with commas between them. -/
def parentsFrom : Nat → List String → Checked (List String)
  | 0, _ => crash .endless
  | n + 1, before => do
    let (name, _) ← expectName .parentName
    if ← eat .comma then parentsFrom n (name :: before) else return (name :: before).reverse

/-- The parents in a header. -/
def parents : Checked (List String) := do
  if ← eat .colon then parentsFrom (← rounds) [] else return []

/-- The entries of a body, up to the next header or the end. -/
def bodyFrom (value : Checked Value) : Nat → Grammar.Body → Checked Grammar.Body
  | 0, _ => crash .endless
  | n + 1, b => do
    match ← peek with
    | .mark .openBracket => return b
    | .finish => return b
    | .mark .append =>
      let _ ← bump
      let v ← expression
      bodyFrom value n { b with registry := v :: b.registry }
    | .ident _ =>
      let (key, span) ← takeName
      expect .assign .assignment
      let v ← value
      bodyFrom value n
        { b with properties := b.properties.insert key v, keySpans := b.keySpans.insert key span }
    | _ => fail .badEntry

/-- The section of a header and the body that follows. -/
def sectionWith (value : Checked Value) (name : String) (parents : List String) (span : Span) :
    Checked Section := do
  let b ← bodyFrom value (← rounds) {}
  return ⟨name, parents, b.properties, b.registry.reverse, span, b.keySpans⟩

/-- A section with a name of its own, from the name on. -/
def namedSection (d : Document) : Checked Document := do
  let (name, span) ← expectName .sectionName
  expect .closeBracket .headerClose
  let ps ← parents
  if (← get).schemaMode then
    return d.insertSchema (← sectionWith rule name ps span)
  else
    return d.insertSection (← sectionWith expression name ps span)

/-- A section with a special meaning, from its `#` on. -/
def specialSection (d : Document) : Checked Document := do
  let span ← here
  let _ ← bump
  let (name, _) ← expectName .specialName
  expect .closeBracket .specialHeaderClose
  if name = "schema" ∨ name = "end_schema" then
    match ← peek with
    | .mark .openBracket => modify ({ · with schemaMode := name = "schema" })
    | .finish => modify ({ · with schemaMode := name = "schema" })
    | _ => fail (.markerBody name)
    return d
  else if name = "define" ∨ name = "include" then
    return d.insertSection (← sectionWith expression ("#" ++ name) [] span)
  else throw (.fault (.parse (.unknownSpecial name) ("identifier '" ++ name ++ "'") span))

/-- The sections that follow, added to a document. -/
def sectionsFrom : Nat → Document → Checked Document
  | 0, _ => crash .endless
  | n + 1, d => do
    match ← peek with
    | .finish => return d
    | .mark .openBracket =>
      let _ ← bump
      let d ← if ← sees .hash then specialSection d else namedSection d
      sectionsFrom n d
    | _ => fail .outsideSections

/-- A whole document, up to the end of the source. -/
def document : Checked Document := do sectionsFrom (← rounds) .empty

end Checked

/-! ## Calls on one parser -/

/-- What can be asked of a parser, again and again and also after a fault. -/
inductive ParseCall where
  | expression
  | document

namespace ParseCall

/-- What a call gives if there is no fault. -/
def Answer : ParseCall → Type
  | expression => Value
  | document => Document

/-- The call on a parser. -/
def rule : (c : ParseCall) → Grammar c.Answer
  | expression => Grammar.expression
  | document => Grammar.document

/-- The call on a tape. -/
def checked : (c : ParseCall) → Checked c.Answer
  | expression => Checked.expression
  | document => Checked.document

end ParseCall

/-- The parser after a call, whether that ends with a fault or not. -/
def Parser.after (p : Parser) (c : ParseCall) : Parser :=
  match c.rule p with
  | .ok _ q => q
  | .error _ q => q

/-- The tape after a call, whether that ends with a value or not. -/
def Tape.after (t : Tape) (c : ParseCall) : Tape :=
  match c.checked t with
  | .ok _ u => u
  | .error _ u => u

end Yini
