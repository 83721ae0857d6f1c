/-!
Faults in UTF-8.  A byte sequence that is no UTF-8 text is described by the length of its valid part
and by what follows: either a maximal start of a character that can no longer be completed, of one
to three bytes, or a start that the end of the data cuts off.
-/

namespace Yini.Utf8

/-- What is wrong with a byte sequence, after `index` bytes of valid text. -/
inductive Fault where
  /-- The next `length` bytes start no character, however they go on. -/
  | invalid (index length : Nat)
  /-- The data end inside a character. -/
  | incomplete (index : Nat)
deriving DecidableEq

/-- A byte that continues a character. -/
def isContinuation (b : UInt8) : Bool := 0x80 ≤ b && b ≤ 0xBF

/-- How a lead byte goes on: the bounds of the second byte, and how many continuation bytes come
    after it.  The narrow bounds keep out overlong forms, surrogates and values above U+10FFFF. -/
def tail? (lead : UInt8) : Option (UInt8 × UInt8 × Nat) :=
  if 0xC2 ≤ lead && lead ≤ 0xDF then some (0x80, 0xBF, 0)
  else if lead == 0xE0 then some (0xA0, 0xBF, 1)
  else if lead == 0xED then some (0x80, 0x9F, 1)
  else if 0xE1 ≤ lead && lead ≤ 0xEF then some (0x80, 0xBF, 1)
  else if lead == 0xF0 then some (0x90, 0xBF, 2)
  else if 0xF1 ≤ lead && lead ≤ 0xF3 then some (0x80, 0xBF, 2)
  else if lead == 0xF4 then some (0x80, 0x8F, 2)
  else none

/-- The progress of a scan: between characters, before the second byte of one, or with that many
    continuation bytes to come.  `seen` counts the bytes of the character read so far. -/
inductive Phase where
  | between
  | second (lo hi : UInt8) (more : Nat)
  | rest (seen more : Nat)

/-- The first fault of the bytes, if there is one; `index` counts the bytes of the characters that
    were complete before. -/
def scan : Phase → Nat → List UInt8 → Option Fault
  | .between, _, [] => none
  | .second .., index, [] => some (.incomplete index)
  | .rest .., index, [] => some (.incomplete index)
  | .between, index, b :: bs =>
    if b < 0x80 then scan .between (index + 1) bs
    else match tail? b with
      | some (lo, hi, more) => scan (.second lo hi more) index bs
      | none => some (.invalid index 1)
  | .second lo hi more, index, b :: bs =>
    if lo ≤ b && b ≤ hi then
      match more with
      | 0 => scan .between (index + 2) bs
      | more + 1 => scan (.rest 2 more) index bs
    else some (.invalid index 1)
  | .rest seen more, index, b :: bs =>
    if isContinuation b then
      match more with
      | 0 => scan .between (index + seen + 1) bs
      | more + 1 => scan (.rest (seen + 1) more) index bs
    else some (.invalid index seen)

/-- The first fault of a byte sequence, or `none` for UTF-8 text. -/
def fault? (bytes : List UInt8) : Option Fault := scan .between 0 bytes

example : fault? [0x61, 0xC3, 0xA9] = none := by decide
example : fault? [0x61, 0xE4, 0xB8, 0x41] = some (.invalid 1 2) := by decide
example : fault? [0xF0, 0x9F, 0x98] = some (.incomplete 0) := by decide

end Yini.Utf8
