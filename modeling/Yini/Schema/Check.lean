import Yini.Document.Basic
import Yini.Schema.Type

/-!
Checking a document against its schema sections.  Each section is checked against the schema section
of the same name, rule by rule: a property that is there has to fit its rule, and one that is missing
is filled in, left out or refused.  The first violation ends the check; what was filled in before
stays.
-/

namespace Yini

/-- Checks a number against the bounds of its rule.  Bounds that are no numbers do not count. -/
def checkRange (key : String) (v : Value) (lower upper : Option Value) : Except Violation Unit := do
  if let some x := v.number? then
    if let some lo := lower.bind Value.number? then
      if x.less lo then throw (.belowMinimum key x lo)
    if let some hi := upper.bind Value.number? then
      if hi.less x then throw (.aboveMaximum key x hi)

/-- What becomes of a property that is missing: the value to fill in, or none. -/
def fillMissing (key : String) (m : RuleMarks) (fallback : Option Value) :
    Except Violation (Option Value) :=
  match m.requirement, fallback, m.whenEmpty with
  | .required, some v, _ => .ok (some v)
  | .optional, some v, .fill => .ok (some v)
  | .required, none, _ => .error (.missingProperty key)
  | .optional, _, .refuse => .error (.emptyProperty key)
  | _, _, _ => .ok none

/-- Checks a section against one rule, and fills in its property if it is missing.  A property of the
    schema that is no rule asks for nothing. -/
def Section.checkRule (s : Section) (key : String) (rule : Value) : Except Violation Section :=
  match rule with
  | .rule m fallback lower upper _ =>
    match s.properties.get? key with
    | some v => do
      match m.typeName with
      | some name => (SchemaType.ofText name).check key v
      | none => .ok ()
      checkRange key v lower upper
      return s
    | none =>
      match fillMissing key m fallback with
      | .ok (some v) => .ok { s with properties := s.properties.insert key v }
      | .ok none => .ok s
      | .error violation => .error violation
  | _ => .ok s

/-- Checks a section against rules one after the other. -/
def checkRules : List (String × Value) → EStateM Fault Section Unit
  | [] => return ()
  | (key, rule) :: rules => do
    let s ← get
    match s.checkRule key rule with
    | .ok s =>
      set s
      checkRules rules
    | .error violation => throw (.validation violation s.name)

/-- Whether a value is a rule for a property that must be there. -/
def Value.isRequiredRule : Value → Bool
  | .rule m _ _ _ _ => m.requirement == .required
  | _ => false

/-- Checks a document against one schema section. -/
def checkSchema (name : String) (schema : Section) : EStateM Fault Document Unit := do
  let d ← get
  match d.sections.get? name with
  | none =>
    if schema.properties.values.any Value.isRequiredRule then
      throw (.validation .missingSection name)
  | some s =>
    match checkRules schema.properties.entries s with
    | .ok _ s => set { d with sections := d.sections.insert name s }
    | .error fault s =>
      set { d with sections := d.sections.insert name s }
      throw fault

/-- Checks a document against schema sections one after the other. -/
def checkSchemas : List (String × Section) → EStateM Fault Document Unit
  | [] => return ()
  | (name, schema) :: rest => do
    checkSchema name schema
    checkSchemas rest

namespace Document

/-- The document with missing properties filled in, or the fault with the document as the fault left
    it. -/
def validateOrStop (d : Document) : Except (Fault × Document) Document :=
  match checkSchemas d.schemas.entries d with
  | .ok _ d => .ok d
  | .error fault d => .error (fault, d)

/-- The document with missing properties filled in. -/
def validate (d : Document) : Except Fault Document :=
  match d.validateOrStop with
  | .ok d => .ok d
  | .error (fault, _) => .error fault

end Document

end Yini
