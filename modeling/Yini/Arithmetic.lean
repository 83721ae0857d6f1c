import Yini.Fault.Basic
import Yini.Value.Text

/-!
Arithmetic on values.  Resolving a document and evaluating a deferred expression, in either way, use
these two operations and no others, so they agree on results and on faults.

Integers are exact or refused: a result that does not fit 32 bits is a fault, never another number.
If either side is a float, both are.  `+` joins texts if either side is a string.
-/

namespace Yini

/-! ## Operations on numbers -/

/-- The integer as 32 bits, if it fits. -/
def int32? (n : Int) : Option Int32 :=
  if -2147483648 ≤ n ∧ n ≤ 2147483647 then some (Int32.ofInt n) else none

namespace BinaryOp

/-- Whether the operator divides. -/
def divides : BinaryOp → Bool
  | div => true
  | mod => true
  | _ => false

/-- The exact result on integers.  Division truncates, and the remainder has the sign of the
    dividend. -/
def exact (op : BinaryOp) (l r : Int) : Int :=
  match op with
  | add => l + r
  | sub => l - r
  | mul => l * r
  | div => l.tdiv r
  | mod => l.tmod r

/-- The result on integers, if it fits.  A remainder is refused where its quotient does not fit. -/
def int? (op : BinaryOp) (l r : Int32) : Option Int32 :=
  match op with
  | mod => (int32? (l.toInt.tdiv r.toInt)).bind fun _ => int32? (l.toInt.tmod r.toInt)
  | op => int32? (op.exact l.toInt r.toInt)

/-- The result on floats. -/
def float (op : BinaryOp) (l r : Binary32) : Binary32 :=
  match op with
  | add => l.add r
  | sub => l.sub r
  | mul => l.mul r
  | div => l.div r
  | mod => l.rem r

end BinaryOp

/-! ## Operations on values -/

namespace Value

/-- The value as a float, if it is a number. -/
def float? : Value → Option Binary32
  | atom (.int n) _ => some (.ofInt n.toInt)
  | atom (.float x) _ => some x
  | _ => none

/-- The text that a value adds to a string. -/
def joinText? : Value → Option String
  | atom (.string s) _ => some s
  | atom (.int n) _ => some (toString n.toInt)
  | atom (.float x) _ => some x.text
  | atom (.bool true) _ => some "true"
  | atom (.bool false) _ => some "false"
  | _ => none

/-- Two values joined by an operator.  The result and every fault carry the given position. -/
def combine (l : Value) (op : BinaryOp) (r : Value) (span : Span) : Except Fault Value :=
  let refuse (cause : EvaluationCause) : Except Fault Value := .error (.evaluation cause (some span))
  let mismatch := refuse (.mismatch op l.typeName r.typeName)
  match l.int?, r.int? with
  | some a, some b =>
    if op.divides && b == 0 then refuse .zeroDivisor
    else match op.int? a b with
      | some n => .ok (.atom (.int n) span)
      | none => refuse (.overflow a op b)
  | _, _ =>
    if op = .add ∧ (l.string?.isSome ∨ r.string?.isSome) then
      match l.joinText?, r.joinText? with
      | some s, some t => .ok (.atom (.string (s ++ t)) span)
      | _, _ => mismatch
    else
      match l.float?, r.float? with
      | some x, some y =>
        if op.divides && y.isZero then refuse .zeroDivisor
        else .ok (.atom (.float (op.float x y)) span)
      | _, _ => mismatch

/-- The opposite of a number. -/
def opposite (v : Value) (span : Span) : Except Fault Value :=
  match v with
  | atom (.int n) _ =>
    match int32? (-n.toInt) with
    | some m => .ok (.atom (.int m) span)
    | none => .error (.evaluation (.negationOverflow n) (some span))
  | atom (.float x) _ => .ok (.atom (.float x.neg) span)
  | v => .error (.evaluation (.notNegatable v.typeName) (some span))

end Value

end Yini
