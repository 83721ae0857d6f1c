import Yini.Ybin.Decode

/-!
Reading YBIN with a count of the containers that are open.  The count goes up where a container begins
and down where it ends, be it by a fault, and no container is opened when the count is above the limit.
So the levels that `Read.value` counts down need not be known: they are what the count leaves.

A `Tally` also notes how deep the containers have ever been and how many parts have been begun because
a number in the data said how many there are.
-/

namespace Yini.Ybin

/-- A reader and what is counted while it reads. -/
structure Tally where
  reader : Reader
  /-- The containers that are open. -/
  depth : Nat := 0
  /-- The most containers that have been open. -/
  deepest : Nat := 0
  /-- The parts of what is counted in the data that have been begun. -/
  rounds : Nat := 0

namespace Tally

/-- A tally before the first byte. -/
def start (bytes : ByteArray) : Tally := { reader := .start bytes }

/-- One more container is open. -/
def enter (s : Tally) : Tally :=
  { s with depth := s.depth + 1, deepest := max s.deepest (s.depth + 1) }

/-- One container less is open. -/
def leave (s : Tally) : Tally := { s with depth := s.depth - 1 }

end Tally

/-- A computation that reads bytes and counts. -/
abbrev Counting (α : Type) : Type := EStateM Fault Tally α

namespace Counting

/-- A read that opens no container. -/
def lift {α : Type} (r : Read α) : Counting α := fun s =>
  match r s.reader with
  | .ok a reader => .ok a { s with reader }
  | .error fault reader => .error fault { s with reader }

/-- Reads what is in a container. -/
def nested {α : Type} (c : Counting α) : Counting α := fun s =>
  if maxNesting < s.depth then lift Read.tooDeep s
  else
    match c s.enter with
    | .ok a t => .ok a t.leave
    | .error fault t => .error fault t.leave

/-- Begins one part of something counted. -/
def begin : Counting Unit := modify fun s => { s with rounds := s.rounds + 1 }

/-- As many items as a count says; those read before are kept in reverse. -/
def repeatFrom {α : Type} (item : Counting α) : Nat → List α → Counting (List α)
  | 0, before => return before.reverse
  | n + 1, before => do
    begin
    let a ← item
    repeatFrom item n (a :: before)

/-- A count, and as many items. -/
def counted {α : Type} (item : Counting α) : Counting (List α) := do
  let n ← lift Read.count
  repeatFrom item n []

/-- A name and a value. -/
def field (value : Counting Value) : Counting (String × Value) := do
  let k ← lift Read.text
  let v ← value
  return (k, v)

/-- Takes a value whose parts are read by `items` and `fields`. -/
def valueWith (items : Counting (List Value)) (fields : Counting (List (String × Value))) :
    Counting Value := do
  let start ← lift Read.position
  let b ← lift Read.byte
  match Tag.ofByte? b with
  | none => lift (Read.failAt start (.unknownTag b.toNat))
  | some (.sequence k) => return .sequence k (← items) .none
  | some (.record k) => return .record k (Entries.ofList (← fields)) .none
  | some t =>
    match ← lift (Read.atom t) with
    | some a => return .atom a .none
    | none => lift (Read.failAt start (.unknownTag b.toNat))

/-- Takes a value.  The number bounds the recursion only: it is never used up if it is greater than the
    number of containers that may be open. -/
def value : Nat → Counting Value
  | 0 => lift Read.tooDeep
  | n + 1 => valueWith (nested (counted (value n))) (nested (counted (field (value n))))

/-- Takes a value, wherever it stands. -/
def anyValue : Counting Value := value (maxNesting + 2)

/-- Takes a section. -/
def «section» : Counting Section := do
  let name ← lift Read.text
  let parents ← counted (lift Read.text)
  let properties ← nested (counted (field anyValue))
  let registry ← counted anyValue
  return ⟨name, parents, .ofList properties, registry, .none, ∅⟩

/-- Sections added to a document. -/
def sections : Nat → Document → Counting Document
  | 0, d => return d
  | n + 1, d => do
    begin
    let s ← «section»
    sections n (d.insertSection s)

/-- Takes a document, up to the end of the data. -/
def document : Counting Document := do
  let mark ← lift Read.word
  if mark.toNat ≠ magic then lift (Read.failAt 0 (.badMagic mark.toNat))
  let v ← lift Read.byte
  if version < v then lift (Read.failAt 4 (.newerVersion v.toNat))
  let d ← sections (← lift Read.count) .empty
  let r ← lift get
  if !r.rest.isEmpty then lift (Read.failAt r.position .trailingBytes)
  match d.sections.get? defineName with
  | some s => return { d with macros := s.properties }
  | none => return d

end Counting

/-! ## Calls on one reader -/

/-- What can be asked of a reader, again and again and also after a fault. -/
inductive ReadCall where
  | value
  | document

namespace ReadCall

/-- What a call gives if there is no fault. -/
def Answer : ReadCall → Type
  | value => Value
  | document => Document

/-- The call on a reader. -/
def read : (c : ReadCall) → Read c.Answer
  | value => Read.loneValue
  | document => Read.document

/-- The call with a count of the open containers. -/
def count : (c : ReadCall) → Counting c.Answer
  | value => Counting.anyValue
  | document => Counting.document

end ReadCall

/-- What a computation leaves, whether it ends with a fault or not. -/
def left {ε σ α : Type} : EStateM.Result ε σ α → σ
  | .ok _ s => s
  | .error _ s => s

/-- The tally after a call. -/
def Tally.after (s : Tally) (c : ReadCall) : Tally := left (c.count s)

end Yini.Ybin
