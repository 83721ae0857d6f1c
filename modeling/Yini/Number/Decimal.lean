/-!
Decimal numbers: a coefficient and a power of ten.  A decimal is what a numeral denotes exactly,
before it is rounded to a machine format, and what a float is turned into before it is written.
-/

namespace Yini

/-- The number `coefficient * 10 ^ exponent`. -/
structure Decimal where
  coefficient : Nat
  exponent : Int
deriving DecidableEq

namespace Decimal

/-! ## Reading -/

/-- The decimal with these digits before and after the point. -/
def ofDigits (whole frac : List Char) : Decimal where
  coefficient := Nat.ofDigitChars 10 (whole ++ frac) 0
  exponent := -frac.length

/-- Reads an unsigned exponent-free numeral: digits, with or without a point. -/
def ofNumeral (cs : List Char) : Decimal :=
  ofDigits (cs.takeWhile (· != '.')) ((cs.dropWhile (· != '.')).drop 1)

/-- Reads a signed run of digits. -/
def exponent? (cs : List Char) : Option Int :=
  let digits? (ds : List Char) : Option Nat :=
    if !ds.isEmpty && ds.all Char.isDigit then some (Nat.ofDigitChars 10 ds 0) else none
  match cs with
  | '-' :: ds => (digits? ds).map fun n => -(n : Int)
  | '+' :: ds => (digits? ds).map fun n => (n : Int)
  | ds => (digits? ds).map fun n => (n : Int)

/-- Reads an unsigned numeral: digits, a point among them or not, and an exponent or not. -/
def ofText? (cs : List Char) : Option Decimal :=
  let isMark (c : Char) : Bool := c == 'e' || c == 'E'
  let body := cs.takeWhile (!isMark ·)
  let digits := body.filter (· != '.')
  if digits.isEmpty || !digits.all Char.isDigit || 1 < body.count '.' then none
  else
    let d := ofNumeral body
    match cs.dropWhile (!isMark ·) with
    | [] => some d
    | _ :: es => (exponent? es).map fun e => { d with exponent := d.exponent + e }

/-! ## Writing -/

/-- The same number with the zeros at the end of the coefficient moved into the exponent. -/
def strip (d : Decimal) : Decimal :=
  let zeros := ((Nat.toDigits 10 d.coefficient).reverse.takeWhile (· == '0')).length
  if d.coefficient = 0 then d else ⟨d.coefficient / Nat.pow 10 zeros, d.exponent + zeros⟩

/-- Positional notation, with a point only where digits follow it. -/
def positional (d : Decimal) : String :=
  let ds := Nat.toDigits 10 d.coefficient
  let places := (-d.exponent).toNat
  String.ofList <|
    if 0 ≤ d.exponent then ds ++ List.replicate d.exponent.toNat '0'
    else if places < ds.length then
      ds.take (ds.length - places) ++ '.' :: ds.drop (ds.length - places)
    else '0' :: '.' :: (List.replicate (places - ds.length) '0' ++ ds)

/-- The power of ten of the leading digit. -/
def magnitude (d : Decimal) : Int := d.exponent + (Nat.toDigits 10 d.coefficient).length - 1

/-- Scientific notation: one digit before the point, and a signed exponent after the mark `e`. -/
def scientific (d : Decimal) : String :=
  let ds := Nat.toDigits 10 d.coefficient
  let mantissa := ds.take 1 ++ (if ds.length = 1 then [] else '.' :: ds.drop 1)
  let sign := if d.magnitude < 0 then "-" else "+"
  String.ofList mantissa ++ "e" ++ sign ++ toString d.magnitude.natAbs

example : (Decimal.mk 125 (-2)).positional = "1.25" := by decide
example : (Decimal.mk 5 (-3)).positional = "0.005" := by decide
example : (Decimal.mk 1200 3).strip = ⟨12, 5⟩ := by decide
example : (Decimal.mk 125 20).scientific = "1.25e+22" := by decide

end Decimal

end Yini
