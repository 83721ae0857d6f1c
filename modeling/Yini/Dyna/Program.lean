import Yini.Fault.Basic

/-!
Programs: expressions as instructions for a stack machine.  An instruction is one byte, followed by a
number of two bytes, the lower one first, if it has an operand: the index of a constant, or a count.
`Program.ofValue` lowers an expression.  Operands come before their operators, so running the code
from front to back evaluates the expression.
-/

namespace Yini

/-! ## Instructions -/

/-- The instructions that put one value on the stack. -/
inductive Push where
  | int
  | float
  | string
  | bool
  /-- The value of a name, or the name itself. -/
  | name
  /-- A constant of any other type. -/
  | constant
  /-- What a reference stands for. -/
  | reference
deriving DecidableEq

/-- The instructions. -/
inductive Opcode where
  | halt
  | push (kind : Push)
  | binary (op : BinaryOp)
  | neg
  /-- Makes a sequence of as many values as the operand says. -/
  | sequence (kind : SequenceKind)
  /-- Makes a record of as many names and values as the operand says. -/
  | record (kind : RecordKind)
deriving DecidableEq

namespace Opcode

/-- Whether a number follows the instruction. -/
def hasOperand : Opcode → Bool
  | halt => false
  | binary _ => false
  | neg => false
  | push _ => true
  | sequence _ => true
  | record _ => true

/-- The byte of an instruction. -/
def byte : Opcode → UInt8
  | halt => 0
  | push .int => 1
  | push .float => 2
  | push .string => 3
  | push .bool => 4
  | push .name => 5
  | push .constant => 6
  | push .reference => 7
  | binary .add => 10
  | binary .sub => 11
  | binary .mul => 12
  | binary .div => 13
  | binary .mod => 14
  | neg => 15
  | sequence .array => 20
  | sequence .list => 21
  | sequence .set => 22
  | record .map => 23
  | record .struct => 24

/-- All instructions. -/
def all : List Opcode :=
  [halt, push .int, push .float, push .string, push .bool, push .name, push .constant,
   push .reference, binary .add, binary .sub, binary .mul, binary .div, binary .mod, neg,
   sequence .array, sequence .list, sequence .set, record .map, record .struct]

/-- The instruction of a byte. -/
def ofByte? (b : UInt8) : Option Opcode := all.find? (·.byte == b)

/-- Different instructions have different bytes. -/
theorem ofByte?_byte (o : Opcode) : ofByte? o.byte = some o := by
  rcases o with _ | k | op | _ | k | k <;> first | decide | (cases k <;> decide) | (cases op <;> decide)

end Opcode

/-! ## Programs -/

/-- Constants, code, and the place of the value that each instruction makes, by the offset of the
    instruction. -/
structure Program where
  constants : Array Value := #[]
  code : Array UInt8 := #[]
  spans : Array (Nat × Span) := #[]

namespace Program

/-- The largest operand. -/
def maxOperand : Nat := 65535

/-- An operand, if it fits its two bytes. -/
def operand (n : Nat) (span : Span) : Except Fault UInt16 :=
  if n ≤ maxOperand then .ok n.toUInt16 else .error (.evaluation .tooLarge (some span))

/-- The program with an instruction added. -/
def emit (p : Program) (o : Opcode) (span : Span) : Program :=
  let offset := p.code.size
  { p with code := p.code.push o.byte, spans := p.spans.push (offset, span) }

/-- The program with an instruction and its operand added. -/
def emitWith (p : Program) (o : Opcode) (n : UInt16) (span : Span) : Program :=
  let q := p.emit o span
  { q with code := (q.code.push (n % 256).toUInt8).push (n / 256).toUInt8 }

/-- The program with an instruction added that pushes a new constant. -/
def emitPush (p : Program) (k : Push) (constant : Value) : Except Fault Program := do
  let index ← operand p.constants.size constant.span
  return { p with constants := p.constants.push constant }.emitWith (.push k) index constant.span

/-- The instruction that pushes an atom. -/
def pushOf : Atom → Push
  | .int _ => .int
  | .float _ => .float
  | .bool _ => .bool
  | .string _ => .name
  | .reference _ => .reference
  | .color _ => .constant
  | .coord _ => .constant
  | .path _ => .constant
  | .dyna _ => .constant

mutual

/-- The program with the instructions of an expression added. -/
def lower : Value → Program → Except Fault Program
  | .atom a span, p => p.emitPush (pushOf a) (.atom a span)
  | .sequence k items span, p => do
    let p ← lowerItems items p
    return p.emitWith (.sequence k) (← operand items.length span) span
  | .record k fields span, p => do
    let p ← lowerFields span fields p
    return p.emitWith (.record k) (← operand fields.length span) span
  | .binary l op r span, p => do
    let p ← lower l p
    let p ← lower r p
    return p.emit (.binary op) span
  | .neg v span, p => do
    let p ← lower v p
    return p.emit .neg span
  | .rule _ _ _ _ span, _ => .error (.evaluation .ruleInExpression (some span))
termination_by structural v => v

/-- The program with the instructions of the expressions of a list added. -/
def lowerItems : List Value → Program → Except Fault Program
  | [], p => .ok p
  | v :: vs, p =>
    match lower v p with
    | .ok p => lowerItems vs p
    | .error fault => .error fault
termination_by structural vs => vs

/-- The program with the instructions of names and expressions added.  The names have the place of
    the record. -/
def lowerFields (span : Span) : List (String × Value) → Program → Except Fault Program
  | [], p => .ok p
  | (k, v) :: fs, p =>
    match p.emitPush .string (.atom (.string k) span) with
    | .ok p =>
      match lower v p with
      | .ok p => lowerFields span fs p
      | .error fault => .error fault
    | .error fault => .error fault
termination_by structural fs => fs

end

/-- The program of an expression. -/
def ofValue (v : Value) : Except Fault Program := do
  let p ← lower v {}
  return { p with code := p.code.push Opcode.halt.byte }

/-! ## Listings -/

/-- The instructions of code, each with its operand if it has one, up to the first byte that is no
    instruction. -/
def listingFrom : List UInt8 → List (Opcode × Option Nat)
  | [] => []
  | b :: code =>
    match Opcode.ofByte? b with
    | none => []
    | some o =>
      if o.hasOperand then
        match code with
        | lo :: hi :: code => (o, some (lo.toNat + 256 * hi.toNat)) :: listingFrom code
        | _ => []
      else (o, none) :: listingFrom code

/-- The instructions of a program. -/
def listing (p : Program) : List (Opcode × Option Nat) := listingFrom p.code.toList

end Program

end Yini
