import Yini.Arithmetic
import Yini.Dyna.Context
import Yini.Dyna.Program

/-!
The stack machine.  Each instruction takes its operands from the top of the stack and puts its result
there; a program that halts leaves its value on it and nothing else.  Code that does not come from an
expression can be damaged in several ways, and each is a fault of its own.
-/

namespace Yini

namespace Program

/-- The machine between two instructions. -/
structure State where
  /-- The offset of the next instruction. -/
  offset : Nat
  /-- The places that are still to come, by offset. -/
  spans : List (Nat × Span)
  /-- The values so far, the last one first. -/
  stack : List Value

/-- The fault of a damaged program. -/
def damaged {α : Type} (offset : Nat) (damage : Damage) : Except Fault α :=
  .error (.evaluation (.corrupt offset damage) none)

/-- The place of the next instruction. -/
def State.span (s : State) : Span :=
  match s.spans with
  | (offset, span) :: _ => if offset = s.offset then span else .none
  | [] => .none

/-- The top `n` values, in the order in which they came, and the stack below. -/
def State.take? (s : State) (n : Nat) : Option (List Value × List Value) :=
  if s.stack.length < n then none else some ((s.stack.take n).reverse, s.stack.drop n)

/-- Fields from names and values in turn. -/
def pairUp : List Value → Entries Value → Option (Entries Value)
  | .atom (.string k) _ :: v :: rest, fields => pairUp rest (fields.insert k v)
  | [], fields => some fields
  | _, _ => none

/-- The value that an instruction puts on the stack, and the stack below it. -/
def perform (p : Program) (c : Context) (s : State) (o : Opcode) (operand : Nat) :
    Except Fault (Value × List Value) := do
  match o with
  | .push k =>
    match p.constants[operand]? with
    | none => damaged s.offset (.noConstant operand)
    | some v =>
      match k, v with
      | .name, .atom (.string name) _ => return ((c.value? name).getD v, s.stack)
      | .reference, .atom (.reference r) _ => return (← c.reference r, s.stack)
      | .reference, _ => damaged s.offset .notReference
      | _, v => return (v, s.stack)
  | .binary op =>
    match s.stack with
    | r :: l :: stack => return (← l.combine op r s.span, stack)
    | _ => damaged s.offset .underflow
  | .neg =>
    match s.stack with
    | v :: stack => return (← v.opposite s.span, stack)
    | [] => damaged s.offset .underflow
  | .sequence k =>
    match s.take? operand with
    | some (items, stack) => return (.sequence k items s.span, stack)
    | none => damaged s.offset .underflow
  | .record k =>
    match s.take? (2 * operand) with
    | some (parts, stack) =>
      match pairUp parts [] with
      | some fields => return (.record k fields s.span, stack)
      | none => damaged s.offset .notName
    | none => damaged s.offset .underflow
  | .halt => damaged s.offset .noHalt

/-- The machine after an instruction of `width` bytes. -/
def State.advance (s : State) (width : Nat) (stack : List Value) : State :=
  let offset := s.offset + width
  ⟨offset, s.spans.dropWhile (·.1 < offset), stack⟩

/-- The value that is left when the machine halts. -/
def finish (offset : Nat) : List Value → Except Fault Value
  | [v] => .ok v
  | [] => damaged offset .underflow
  | _ => damaged offset .leftover

/-- Runs the code from an instruction on. -/
def exec (p : Program) (c : Context) : List UInt8 → State → Except Fault Value
  | [], s => damaged s.offset .noHalt
  | b :: code, s =>
    match Opcode.ofByte? b with
    | none => damaged s.offset (.unknownOpcode b.toNat)
    | some .halt => finish (s.offset + 1) s.stack
    | some o =>
      if o.hasOperand then
        match code with
        | lo :: hi :: code =>
          match p.perform c s o (lo.toNat + 256 * hi.toNat) with
          | .ok (v, stack) => exec p c code (s.advance 3 (v :: stack))
          | .error fault => .error fault
        | _ => damaged s.offset .cutOperand
      else
        match p.perform c s o 0 with
        | .ok (v, stack) => exec p c code (s.advance 1 (v :: stack))
        | .error fault => .error fault

/-- Runs a program in a context. -/
def run (p : Program) (c : Context) : Except Fault Value :=
  p.exec c p.code.toList ⟨0, p.spans.toList, []⟩

end Program

end Yini
