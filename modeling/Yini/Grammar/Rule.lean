import Yini.Grammar.Expression

/-!
Rules of a schema: marks with commas between them, in any order.  `!` and `?` say whether the
property is required; `~`, `e` and a default value say what happens when it is missing; a name is
the type, perhaps with the type of the elements; `min` and `max` are bounds.  A mark that comes again
replaces the earlier one.
-/

namespace Yini

/-- A rule with its values, as it is being read. -/
structure Rule where
  marks : RuleMarks := ⟨.optional, none, .ignore⟩
  fallback : Option Value := none
  lower : Option Value := none
  upper : Option Value := none

/-- The rule as a value. -/
def Rule.toValue (r : Rule) (span : Span) : Value :=
  .rule r.marks r.fallback r.lower r.upper span

namespace Grammar

/-- The type name that begins with `name`: with the type of the elements, if a bracket follows
    without a gap.  A bracket after a gap opens the next section. -/
def elementType (name : String) : Grammar String := do
  if (← sees .openBracket) && (← get).isAdjacent then
    bump
    let (element, _) ← expectName .elementType
    expect .closeBracket .elementClose
    return name ++ "[" ++ element ++ "]"
  else return name

/-- One mark, added to a rule. -/
def ruleMark (r : Rule) : Grammar Rule := do
  match ← peek with
  | .mark .bang =>
    bump
    return { r with marks := { r.marks with requirement := .required } }
  | .mark .question =>
    bump
    return { r with marks := { r.marks with requirement := .optional } }
  | .mark .tilde =>
    bump
    return { r with marks := { r.marks with whenEmpty := .ignore } }
  | .mark .assign =>
    bump
    let v ← expression
    return { r with fallback := some v, marks := { r.marks with whenEmpty := .fill } }
  | .ident word =>
    let bound := (← get).second = .mark .assign
    bump
    if word = "e" then return { r with marks := { r.marks with whenEmpty := .refuse } }
    else if word = "min" ∧ bound then
      bump
      let v ← expression
      return { r with lower := some v }
    else if word = "max" ∧ bound then
      bump
      let v ← expression
      return { r with upper := some v }
    else
      let typeName ← elementType word
      return { r with marks := { r.marks with typeName := some typeName } }
  | _ => fail .badRule

/-- The further marks of a rule.  `n` bounds their number. -/
def ruleMarks : Nat → Rule → Grammar Rule
  | 0, r => return r
  | n + 1, r => do
    let r ← ruleMark r
    if ← eat .comma then ruleMarks n r else return r

/-- A rule of a schema. -/
def rule : Grammar Value := do
  let span ← here
  let r ← ruleMarks ((← remaining) + 1) {}
  return r.toValue span

end Grammar

end Yini
