import Yini.Arithmetic
import Yini.Dyna.Context

/-!
Evaluating an expression on its tree.  Names and references get their values from a context, and
operations are carried out once their operands have values.
-/

namespace Yini

namespace Value

mutual

/-- The value of an expression in a context.  An unquoted text is a name first, and a text only if
    the context has no value for it. -/
def evaluate (c : Context) : Value → Except Fault Value
  | atom (.string s) span => .ok ((c.value? s).getD (.atom (.string s) span))
  | atom (.reference r) _ => c.reference r
  | atom a span => .ok (.atom a span)
  | sequence k items span => do return .sequence k (← evaluateItems c items) span
  | record k fields span => do return .record k (← evaluateFields c fields) span
  | binary l op r span => do
    let l ← evaluate c l
    let r ← evaluate c r
    l.combine op r span
  | neg v span => do
    let v ← evaluate c v
    v.opposite span
  | rule _ _ _ _ span => .error (.evaluation .ruleInExpression (some span))
termination_by structural v => v

/-- The values of the expressions of a list. -/
def evaluateItems (c : Context) : List Value → Except Fault (List Value)
  | [] => .ok []
  | v :: vs => do
    let v ← evaluate c v
    let vs ← evaluateItems c vs
    return v :: vs
termination_by structural vs => vs

/-- The values of the expressions of fields. -/
def evaluateFields (c : Context) : List (String × Value) → Except Fault (List (String × Value))
  | [] => .ok []
  | (k, v) :: fs => do
    let v ← evaluate c v
    let fs ← evaluateFields c fs
    return (k, v) :: fs
termination_by structural fs => fs

end

end Value

end Yini
