import Yini.Number.Shortest

/-!
Extended numbers: what a float denotes.  Comparisons are made on the exact numbers, so they give the
same answer for floats of any format; texts name the format whose shortest decimal is written.
-/

namespace Yini

/-- A signed dyadic number, an infinity, or no number at all.  Zero has a sign, which counts in
    texts only. -/
inductive Extended where
  | finite (negative : Bool) (magnitude : Dyadic)
  | infinite (negative : Bool)
  | notANumber
deriving DecidableEq

namespace Extended

/-- An integer. -/
def ofInt (n : Int) : Extended := .finite (n < 0) ⟨n.natAbs, 0⟩

/-- Whether the number is neither infinite nor no number. -/
def isFinite : Extended → Bool
  | .finite .. => true
  | _ => false

/-- The signed mantissa over the exponent `e`, which is at most that of the number. -/
def scaled (negative : Bool) (x : Dyadic) (e : Int) : Int :=
  let n : Nat := x.mantissa * Nat.pow 2 (x.exponent - e).toNat
  if negative then -n else n

/-- Whether `x` is less than `y`; never so if one of them is no number. -/
def less : Extended → Extended → Bool
  | .notANumber, _ => false
  | _, .notANumber => false
  | .infinite n, .infinite n' => n && !n'
  | .infinite n, .finite .. => n
  | .finite .., .infinite n => !n
  | .finite n x, .finite n' x' =>
    let e := min x.exponent x'.exponent
    scaled n x e < scaled n' x' e

/-- Whether `x` and `y` are the same number.  The two zeros are; no number is not the same as
    itself. -/
def same : Extended → Extended → Bool
  | .finite n x, .finite n' x' =>
    let e := min x.exponent x'.exponent
    scaled n x e == scaled n' x' e
  | .infinite n, .infinite n' => n == n'
  | _, _ => false

/-! ## Texts -/

/-- The text of a sign. -/
def signText (negative : Bool) : String := if negative then "-" else ""

/-- The shortest decimal in positional notation; of two equally near ones the greater. -/
def text (f : BinaryFormat) : Extended → String
  | .finite negative x => signText negative ++ (x.shortest f .up).positional
  | .infinite negative => signText negative ++ "inf"
  | .notANumber => "NaN"

/-- The text of the number in a JSON document, where neither an infinity nor a missing number has
    one.  Of two equally near decimals the even one is written; whole numbers get `.0`; from
    `10 ^ 16` on and below `10 ^ -5` an exponent is written. -/
def jsonText? (f : BinaryFormat) : Extended → Option String
  | .finite negative x =>
    let d := x.shortest f .even
    let body :=
      if d.coefficient = 0 then "0.0"
      else if d.magnitude < -5 || 16 ≤ d.magnitude then d.scientific
      else if 0 ≤ d.exponent then d.positional ++ ".0"
      else d.positional
    some (signText negative ++ body)
  | _ => none

example : (Extended.ofInt (-12)).text .double = "-12" := by decide +kernel
example : (Extended.finite false ⟨5, -1⟩).jsonText? .double = some "2.5" := by decide +kernel

end Extended

end Yini
