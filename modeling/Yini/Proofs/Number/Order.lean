import Mathlib.Algebra.Order.Field.Power
import Mathlib.Algebra.Order.Ring.Rat
import Mathlib.Order.WithBot
import Mathlib.Tactic.Positivity
import Mathlib.Tactic.Ring
import Yini.Number.Extended

/-!
The order of extended numbers.

An extended number, if it is one, has an exact value: a rational number, or an infinity below or above all of
them (`Extended.value?`).  Numbers are compared as their values are (`Extended.less_iff`), so rounding plays
no part in it, the two zeros are equal, and what is no number is neither below nor above anything.
-/

namespace Yini

/-- The exact value of a dyadic number. -/
def Dyadic.value (x : Dyadic) : ℚ := x.mantissa * (2 : ℚ) ^ x.exponent

namespace Extended

variable {x y : Extended}

/-- The exact value with its sign. -/
def signed (negative : Bool) (x : Dyadic) : ℚ := if negative then -x.value else x.value

/-- **The exact value of a number**, among the rational numbers and the two infinities. -/
def value? : Extended → Option (WithBot (WithTop ℚ))
  | .finite negative x => some (signed negative x : WithTop ℚ)
  | .infinite true => some ⊥
  | .infinite false => some ⊤
  | .notANumber => none

/-- Whether both are numbers, the first one less than the second. -/
def Below (x y : Extended) : Prop := ∃ p q, x.value? = some p ∧ y.value? = some q ∧ p < q

/-- The value is the mantissa over any smaller exponent, in units of that exponent. -/
theorem signed_eq_scaled (negative : Bool) {x : Dyadic} {e : ℤ} (h : e ≤ x.exponent) :
    signed negative x = scaled negative x e * (2 : ℚ) ^ e := by
  have hpow : (2 : ℚ) ^ x.exponent = (2 : ℚ) ^ (x.exponent - e).toNat * (2 : ℚ) ^ e := by
    rw [← zpow_natCast, Int.toNat_of_nonneg (sub_nonneg.mpr h), ← zpow_add₀ two_ne_zero, sub_add_cancel]
  unfold signed scaled Dyadic.value
  rw [hpow, Nat.pow_eq]
  split <;> push_cast <;> ring

/-- Two values are compared as their mantissas are over a common exponent. -/
theorem signed_lt_signed_iff (n n' : Bool) (x x' : Dyadic) : signed n x < signed n' x' ↔
    scaled n x (min x.exponent x'.exponent) < scaled n' x' (min x.exponent x'.exponent) := by
  have hpow : (0 : ℚ) < 2 ^ min x.exponent x'.exponent := by positivity
  rw [signed_eq_scaled n (min_le_left _ _), signed_eq_scaled n' (min_le_right _ _),
    mul_lt_mul_iff_left₀ hpow, Int.cast_lt]

/-- Two values are equal if their mantissas are over a common exponent. -/
theorem signed_eq_signed_iff (n n' : Bool) (x x' : Dyadic) : signed n x = signed n' x' ↔
    scaled n x (min x.exponent x'.exponent) = scaled n' x' (min x.exponent x'.exponent) := by
  have hpow : (2 : ℚ) ^ min x.exponent x'.exponent ≠ 0 := by positivity
  rw [signed_eq_scaled n (min_le_left _ _), signed_eq_scaled n' (min_le_right _ _),
    mul_left_inj' hpow, Int.cast_inj]

/-- **Numbers are compared by their exact values.** -/
theorem less_iff : x.less y ↔ x.Below y := by
  unfold Below
  cases x with
  | notANumber => simp [less, value?]
  | infinite n => cases n <;> cases y with
    | notANumber => simp [less, value?]
    | infinite n' => cases n' <;> simp [less, value?]
    | finite n' x' => simp [less, value?]
  | finite n x => cases y with
    | notANumber => simp [less, value?]
    | infinite n' =>
      have htop : ((signed n x : WithTop ℚ) : WithBot (WithTop ℚ)) < ⊤ :=
        WithBot.coe_lt_coe.mpr (WithTop.coe_lt_top _)
      cases n' <;> simp [less, value?, htop]
    | finite n' x' => simp [less, value?, signed_lt_signed_iff]

theorem less_eq_false_iff : x.less y = false ↔ ¬x.Below y := by
  rw [← less_iff, Bool.not_eq_true]

/-- **Numbers are the same if they have the same exact value.** -/
theorem same_iff : x.same y ↔ ∃ p, x.value? = some p ∧ y.value? = some p := by
  cases x with
  | notANumber => simp [same, value?]
  | infinite n => cases n <;> cases y with
    | notANumber => simp [same, value?]
    | infinite n' => cases n' <;> simp [same, value?]
    | finite n' x' => simp [same, value?]
  | finite n x => cases y with
    | notANumber => simp [same, value?]
    | infinite n' => cases n' <;> simp [same, value?]
    | finite n' x' => simp [same, value?, eq_comm (a := signed n' x'), signed_eq_signed_iff]

/-- An integer has its own value. -/
theorem value?_ofInt (n : ℤ) : (ofInt n).value? = some (((n : ℚ) : WithTop ℚ) : WithBot (WithTop ℚ)) := by
  have hvalue : signed (n < 0) ⟨n.natAbs, 0⟩ = n := by
    unfold signed Dyadic.value
    rcases lt_or_ge n 0 with hn | hn
    · simp [hn, abs_of_neg (Int.cast_lt_zero.mpr hn : (n : ℚ) < 0)]
    · simpa [not_lt.mpr hn] using hn
  rw [ofInt, value?, hvalue]

end Extended

end Yini
