import Yini.Number.Extended

/-!
32-bit floats.  A float is its bit pattern, so writing one out and reading it back loses nothing,
not even the payload of a pattern that is no number.  Each arithmetic operation is the exact result,
rounded once to the nearest float with ties to an even mantissa (`ofRatio`).
-/

namespace Yini

/-- A 32-bit float, as its bit pattern: sign, eight bits of exponent, 23 bits of mantissa. -/
structure Binary32 where
  bits : UInt32
deriving DecidableEq

namespace Binary32

/-! ## Meaning -/

/-- What the pattern denotes. -/
def toExtended (x : Binary32) : Extended :=
  let n := x.bits.toNat
  let negative := Nat.pow 2 31 ≤ n
  let exponent : Nat := n / Nat.pow 2 23 % Nat.pow 2 8
  let mantissa : Nat := n % Nat.pow 2 23
  if exponent = 255 then if mantissa = 0 then .infinite negative else .notANumber
  else if exponent = 0 then .finite negative ⟨mantissa, -149⟩
  else .finite negative ⟨Nat.pow 2 23 + mantissa, (exponent : Int) - 150⟩

/-- Whether the float is a number and not infinite. -/
def isFinite (x : Binary32) : Bool := x.toExtended.isFinite

/-- Whether the float is one of the two zeros. -/
def isZero (x : Binary32) : Bool := x.bits.toNat % Nat.pow 2 31 == 0

/-- Whether two floats are the same number. -/
def same (x y : Binary32) : Bool := x.toExtended.same y.toExtended

/-! ## Rounding -/

/-- A positive or negative infinity. -/
def infinity (negative : Bool) : Binary32 := ⟨if negative then 0xFF800000 else 0x7F800000⟩

/-- The pattern given for results that are no number. -/
def nan : Binary32 := ⟨0x7FC00000⟩

/-- A positive or negative zero. -/
def zero (negative : Bool) : Binary32 := ⟨if negative then 0x80000000 else 0⟩

/-- The quotient rounded to the nearest natural number, ties to an even one. -/
def roundDiv (num den : Nat) : Nat :=
  let q := num / den
  let r := num % den
  if 2 * r < den then q
  else if den < 2 * r then q + 1
  else if q % 2 = 0 then q else q + 1

/-- The greatest `e` with `2 ^ e ≤ num / den`, for positive numbers. -/
def log2Ratio (num den : Nat) : Int :=
  let e : Int := (Nat.log2 num : Int) - Nat.log2 den
  if num * Nat.pow 2 (-e).toNat < den * Nat.pow 2 e.toNat then e - 1 else e

/-- The float nearest to `num / den`, ties to an even mantissa, with overflow to infinity.  Mantissa
    and exponent are added, not joined: a mantissa rounded up to the next power of two then carries
    into the exponent by itself. -/
def ofRatio (negative : Bool) (num den : Nat) : Binary32 :=
  if num = 0 then zero negative
  else
    let q := max (log2Ratio num den - 23) (-149)
    let m := roundDiv (num * Nat.pow 2 (-q).toNat) (den * Nat.pow 2 q.toNat)
    let pattern := (q + 149).toNat * Nat.pow 2 23 + m
    if 0x7F800000 ≤ pattern then infinity negative
    else ⟨UInt32.ofNat (pattern + if negative then Nat.pow 2 31 else 0)⟩

/-- The float nearest to a dyadic number. -/
def ofDyadic (negative : Bool) (x : Dyadic) : Binary32 :=
  ofRatio negative (x.mantissa * Nat.pow 2 x.exponent.toNat) (Nat.pow 2 (-x.exponent).toNat)

/-- The float nearest to a decimal number. -/
def ofDecimal (negative : Bool) (d : Decimal) : Binary32 :=
  ofRatio negative (d.coefficient * Nat.pow 10 d.exponent.toNat) (Nat.pow 10 (-d.exponent).toNat)

/-- The float nearest to an integer. -/
def ofInt (n : Int) : Binary32 := ofRatio (n < 0) n.natAbs 1

/-! ## Arithmetic -/

/-- The float with the other sign. -/
def neg (x : Binary32) : Binary32 := ⟨x.bits ^^^ 0x80000000⟩

/-- The exact sum, rounded.  A sum of zero is negative only if both terms are. -/
def add (x y : Binary32) : Binary32 :=
  match x.toExtended, y.toExtended with
  | .notANumber, _ => nan
  | _, .notANumber => nan
  | .infinite n, .infinite n' => if n = n' then x else nan
  | .infinite _, .finite .. => x
  | .finite .., .infinite _ => y
  | .finite n a, .finite n' b =>
    let e := min a.exponent b.exponent
    let sum := Extended.scaled n a e + Extended.scaled n' b e
    if sum = 0 then zero (n && n') else ofDyadic (sum < 0) ⟨sum.natAbs, e⟩

/-- The exact difference, rounded. -/
def sub (x y : Binary32) : Binary32 := x.add y.neg

/-- The exact product, rounded. -/
def mul (x y : Binary32) : Binary32 :=
  match x.toExtended, y.toExtended with
  | .notANumber, _ => nan
  | _, .notANumber => nan
  | .infinite n, .infinite n' => infinity (n != n')
  | .infinite n, .finite n' b => if b.mantissa = 0 then nan else infinity (n != n')
  | .finite n a, .infinite n' => if a.mantissa = 0 then nan else infinity (n != n')
  | .finite n a, .finite n' b =>
    ofDyadic (n != n') ⟨a.mantissa * b.mantissa, a.exponent + b.exponent⟩

/-- The exact quotient, rounded. -/
def div (x y : Binary32) : Binary32 :=
  match x.toExtended, y.toExtended with
  | .notANumber, _ => nan
  | _, .notANumber => nan
  | .infinite _, .infinite _ => nan
  | .infinite n, .finite n' _ => infinity (n != n')
  | .finite n _, .infinite n' => zero (n != n')
  | .finite n a, .finite n' b =>
    if b.mantissa = 0 then if a.mantissa = 0 then nan else infinity (n != n')
    else
      let e := a.exponent - b.exponent
      ofRatio (n != n') (a.mantissa * Nat.pow 2 e.toNat) (b.mantissa * Nat.pow 2 (-e).toNat)

/-- The remainder of the division that truncates toward zero; it has the sign of the dividend. -/
def rem (x y : Binary32) : Binary32 :=
  match x.toExtended, y.toExtended with
  | .notANumber, _ => nan
  | _, .notANumber => nan
  | .infinite _, _ => nan
  | .finite .., .infinite _ => x
  | .finite n a, .finite _ b =>
    if b.mantissa = 0 then nan
    else
      let e := min a.exponent b.exponent
      let dividend := a.mantissa * Nat.pow 2 (a.exponent - e).toNat
      let divisor := b.mantissa * Nat.pow 2 (b.exponent - e).toNat
      ofDyadic n ⟨dividend % divisor, e⟩

/-! ## Texts -/

/-- The shortest decimal that reads back to the float, in positional notation. -/
def text (x : Binary32) : String := x.toExtended.text .single

/-- The float nearest to a numeral of any exponent.  A power of ten far out of range is not worked
    out: a positive number with an exponent above 40 is beyond the greatest float, and one below
    `10 ^ -60` is nearer to zero than to any other float. -/
def ofNumeral (negative : Bool) (d : Decimal) : Binary32 :=
  if d.coefficient = 0 || d.exponent + (Nat.log2 d.coefficient : Int) < -60 then zero negative
  else if 40 < d.exponent then infinity negative
  else ofDecimal negative d

/-- Reads a signed decimal numeral, or the name of an infinity or of no number. -/
def ofText? (s : String) : Option Binary32 :=
  let unsigned (negative : Bool) (cs : List Char) : Option Binary32 :=
    if cs = "inf".toList then some (infinity negative)
    else if cs = "NaN".toList then some nan
    else (Decimal.ofText? cs).map (ofNumeral negative)
  match s.toList with
  | '-' :: cs => unsigned true cs
  | cs => unsigned false cs

example : ofText? "1e999999999" = some (infinity false) := by decide +kernel
example : ofText? "-0.001e-999999999" = some (zero true) := by decide +kernel
example : ofText? "1e-45" = some ⟨1⟩ := by decide +kernel
example : (ofDecimal false ⟨1, -1⟩).bits = 0x3DCCCCCD := by decide +kernel
example : ((ofInt 1).div (ofInt 3)).bits = 0x3EAAAAAB := by decide +kernel
example : ((ofInt (-7)).rem (ofInt 3)).text = "-1" := by decide +kernel
example : (ofInt 16777217).text = "16777216" := by decide +kernel

end Binary32

end Yini
