import Yini.Number.Decimal

/-!
Shortest decimals.  A binary float stands for every real number that rounds to it; of the decimals
in that interval the float is written as one with the fewest digits, and of those as the nearest.

The search runs on exact naturals.  `Dyadic.pick` tries one decimal grid: the two neighbours of the
number on it are the only grid points that can matter, since a grid point inside the interval has a
neighbour of the number between it and the number.  `Dyadic.shortest` tries the grids from coarse to
fine.
-/

namespace Yini

/-- The number `mantissa * 2 ^ exponent`. -/
structure Dyadic where
  mantissa : Nat
  exponent : Int
deriving DecidableEq

/-- A binary floating-point format. -/
structure BinaryFormat where
  /-- The number of bits of a mantissa. -/
  precision : Nat
  /-- The least exponent, that of the numbers too small for a full mantissa. -/
  minExponent : Int
  /-- A number of decimal digits that tells all numbers of the format apart. -/
  decimalDigits : Nat

namespace BinaryFormat

/-- The 32-bit format. -/
def single : BinaryFormat := ⟨24, -149, 9⟩

/-- The 64-bit format. -/
def double : BinaryFormat := ⟨53, -1074, 17⟩

end BinaryFormat

/-- Which of two equally near decimals is written. -/
inductive Tie where
  /-- The greater one. -/
  | up
  /-- The one with an even last digit. -/
  | even

namespace Dyadic

/-- The number of bits of a natural number. -/
def bitLength (n : Nat) : Nat := if n = 0 then 0 else Nat.log2 n + 1

/-- The same number with the mantissa that the format stores: as long as the precision and the least
    exponent allow. -/
def normalize (f : BinaryFormat) (x : Dyadic) : Dyadic :=
  let up := min (f.precision - bitLength x.mantissa) (x.exponent - f.minExponent).toNat
  ⟨x.mantissa * Nat.pow 2 up, x.exponent - up⟩

/-- Whether the float below `x` is half as far away as the float above: `x` is a power of two, and
    not at the least exponent. -/
def narrowBelow (f : BinaryFormat) (x : Dyadic) : Bool :=
  x.mantissa == Nat.pow 2 (f.precision - 1) && f.minExponent < x.exponent

/-- The least `k` with `x < 10 ^ k`, for a positive `x`. -/
def decimalScale (x : Dyadic) : Int :=
  let num := x.mantissa * Nat.pow 2 x.exponent.toNat
  let den := Nat.pow 2 (-x.exponent).toNat
  if den ≤ num then ((Nat.toDigits 10 (num / den)).length : Int)
  else 1 - ((Nat.toDigits 10 ((den - 1) / num)).length : Int)

/-- The nearer of the neighbours of `x` on the grid `10 ^ g` that round to `x`, if one does.  With
    `x` normalized, its interval reaches from a quarter or a half of the last place below to a half
    above, ends included exactly for an even mantissa; all is counted in quarters of the last
    place, over a common denominator. -/
def pick (tie : Tie) (narrow : Bool) (x : Dyadic) (g : Int) : Option Decimal :=
  let unit := Nat.pow 2 (x.exponent - 2).toNat * Nat.pow 10 (-g).toNat
  let grid := Nat.pow 2 (2 - x.exponent).toNat * Nat.pow 10 g.toNat
  let low := (4 * x.mantissa - if narrow then 1 else 2) * unit
  let high := (4 * x.mantissa + 2) * unit
  let exact := 4 * x.mantissa * unit
  let inside (c : Nat) : Bool :=
    if x.mantissa % 2 = 0 then low ≤ c * grid && c * grid ≤ high
    else low < c * grid && c * grid < high
  let c := exact / grid
  let nearest : Nat :=
    match compare (2 * exact) ((2 * c + 1) * grid), tie with
    | .lt, _ => c
    | .gt, _ => c + 1
    | .eq, .up => c + 1
    | .eq, .even => if c % 2 = 0 then c else c + 1
  match inside c, inside (c + 1) with
  | true, true => some ⟨nearest, g⟩
  | true, false => some ⟨c, g⟩
  | false, true => some ⟨c + 1, g⟩
  | false, false => none

/-- The decimal that equals `x`. -/
def toDecimal (x : Dyadic) : Decimal :=
  if 0 ≤ x.exponent then ⟨x.mantissa * Nat.pow 2 x.exponent.toNat, 0⟩
  else ⟨x.mantissa * Nat.pow 5 (-x.exponent).toNat, x.exponent⟩

/-- The shortest decimal that rounds to `x` in the format; zero is written as itself. -/
def shortest (f : BinaryFormat) (tie : Tie) (x : Dyadic) : Decimal :=
  if x.mantissa = 0 then ⟨0, 0⟩
  else
    let x := x.normalize f
    let k := x.decimalScale
    let picked := (List.range f.decimalDigits).findSome? fun (n : Nat) =>
      pick tie (x.narrowBelow f) x (k - (n + 1))
    (picked.getD x.toDecimal).strip

example : (Dyadic.mk 13421773 (-27)).shortest .single .up = ⟨1, -1⟩ := by decide +kernel
example : (Dyadic.mk 13421773 (-27)).shortest .double .up = ⟨10000000149011612, -17⟩ := by decide +kernel
example : (Dyadic.mk 1 (-149)).shortest .single .up = ⟨1, -45⟩ := by decide +kernel
example : (Dyadic.mk 1 (-25)).shortest .double .even = ⟨29802322387695312, -24⟩ := by decide +kernel

end Dyadic

end Yini
