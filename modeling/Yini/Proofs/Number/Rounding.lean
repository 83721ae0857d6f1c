import Mathlib.Algebra.Order.Field.Power
import Mathlib.Data.Nat.Log
import Mathlib.Data.Rat.Cast.Order
import Mathlib.Tactic.FieldSimp
import Mathlib.Tactic.Linarith
import Mathlib.Tactic.Positivity
import Mathlib.Tactic.Ring
import Yini.Number.Binary32

/-!
Rounding to a 32-bit float.

A quotient that is near enough to a float is rounded to it (`ofRatio_of_near`).  Near enough is half of
a last place, with its ends if the mantissa is even; below a power of two it is a quarter, for the
floats are twice as dense there.  The quotient is compared with the float as a rational number, so the
powers of two and of ten that the computation keeps in natural numbers do not matter.

The other way round, what a quotient is rounded to is off by half of a last place at most, unless the
quotient is too large and rounded to infinity (`ofRatio_cases`).
-/

namespace Yini

/-- A power with an integer exponent as the quotient of two natural numbers. -/
theorem zpow_eq_div (b : ℕ) (hb : b ≠ 0) (e : ℤ) :
    (b : ℚ) ^ e = (b ^ e.toNat : ℕ) / (b ^ (-e).toNat : ℕ) := by
  have hb : (b : ℚ) ≠ 0 := Nat.cast_ne_zero.mpr hb
  cases e with
  | ofNat n => simp
  | negSucc n => simp [Int.neg_negSucc, zpow_negSucc]

namespace Binary32

/-! ## Quotients -/

/-- A quotient between two halves is rounded to the number between them, and if that is even, so is a
    quotient at one of the halves. -/
theorem roundDiv_eq {a b m : ℕ} (hlow : 2 * (m * b) ≤ 2 * a + b) (hhigh : 2 * a ≤ 2 * (m * b) + b)
    (htie : m % 2 = 1 → 2 * (m * b) < 2 * a + b ∧ 2 * a < 2 * (m * b) + b) (hb : 0 < b) :
    roundDiv a b = m := by
  have hdiv : a / b * b + a % b = a := Nat.div_add_mod' a b
  have hmod : a % b < b := Nat.mod_lt a hb
  unfold roundDiv
  generalize a / b = q at hdiv
  generalize a % b = r at hdiv hmod
  -- the quotient is `m`, or one less
  have hle : q ≤ m := by
    by_contra hlt
    have : (m + 1) * b ≤ q * b := Nat.mul_le_mul_right b (by omega)
    rw [Nat.add_mul] at this
    omega
  have hge : m ≤ q + 1 := by
    by_contra hlt
    have : (q + 2) * b ≤ m * b := Nat.mul_le_mul_right b (by omega)
    rw [Nat.add_mul] at this
    omega
  dsimp only
  rcases Nat.lt_or_ge q m with hlt | hge'
  · obtain rfl : m = q + 1 := by omega
    rw [Nat.add_mul] at hlow hhigh htie
    split
    · omega
    · split
      · rfl
      · split
        · have := htie (by omega)
          omega
        · rfl
  · obtain rfl : m = q := by omega
    split
    · rfl
    · split
      · omega
      · split
        · rfl
        · have := htie (by omega)
          omega

/-- A quotient is compared with a power of two in natural numbers. -/
theorem lt_zpow_iff {num den : ℕ} (hden : 0 < den) (e : ℤ) :
    num * 2 ^ (-e).toNat < den * 2 ^ e.toNat ↔ (num / den : ℚ) < (2 : ℕ) ^ e := by
  have hden' : (0 : ℚ) < den := Nat.cast_pos.mpr hden
  have hpow : (0 : ℚ) < (2 ^ (-e).toNat : ℕ) := Nat.cast_pos.mpr (by positivity)
  rw [zpow_eq_div 2 (by decide), div_lt_div_iff₀ hden' hpow, ← Nat.cast_mul, ← Nat.cast_mul,
    Nat.cast_lt, Nat.mul_comm (2 ^ e.toNat)]

/-- The logarithm of a quotient, rounded down. -/
theorem log2Ratio_spec {num den : ℕ} (hnum : 0 < num) (hden : 0 < den) :
    ((2 : ℕ) : ℚ) ^ log2Ratio num den ≤ num / den ∧
      (num / den : ℚ) < ((2 : ℕ) : ℚ) ^ (log2Ratio num den + 1) := by
  have hden' : (0 : ℚ) < den := Nat.cast_pos.mpr hden
  have hlow : ∀ {n : ℕ}, 0 < n → ((2 : ℕ) : ℚ) ^ (Nat.log2 n : ℤ) ≤ n := fun {n} hn => by
    rw [zpow_natCast, ← Nat.cast_pow, Nat.cast_le]
    exact Nat.log2_self_le hn.ne'
  have hhigh : ∀ n : ℕ, (n : ℚ) < ((2 : ℕ) : ℚ) ^ ((Nat.log2 n : ℤ) + 1) := fun n => by
    rw [← Nat.cast_succ, zpow_natCast, ← Nat.cast_pow, Nat.cast_lt]
    exact Nat.lt_log2_self
  set e : ℤ := (Nat.log2 num : ℤ) - Nat.log2 den with he
  -- the difference of the two logarithms is right or one too much
  have hbelow : ((2 : ℕ) : ℚ) ^ (e - 1) ≤ num / den := by
    rw [le_div_iff₀ hden']
    calc ((2 : ℕ) : ℚ) ^ (e - 1) * den ≤ ((2 : ℕ) : ℚ) ^ (e - 1) * ((2 : ℕ) : ℚ) ^ ((Nat.log2 den : ℤ) + 1) :=
          mul_le_mul_of_nonneg_left (hhigh den).le (by positivity)
      _ = ((2 : ℕ) : ℚ) ^ (Nat.log2 num : ℤ) := by
          rw [← zpow_add₀ (by norm_num), he]
          congr 1
          ring
      _ ≤ num := hlow hnum
  have habove : (num / den : ℚ) < ((2 : ℕ) : ℚ) ^ (e + 1) := by
    rw [div_lt_iff₀ hden']
    calc (num : ℚ) < ((2 : ℕ) : ℚ) ^ ((Nat.log2 num : ℤ) + 1) := hhigh num
      _ = ((2 : ℕ) : ℚ) ^ (e + 1) * ((2 : ℕ) : ℚ) ^ (Nat.log2 den : ℤ) := by
          rw [← zpow_add₀ (by norm_num), he]
          congr 1
          ring
      _ ≤ ((2 : ℕ) : ℚ) ^ (e + 1) * den := mul_le_mul_of_nonneg_left (hlow hden) (by positivity)
  have hrun : log2Ratio num den = if (num / den : ℚ) < ((2 : ℕ) : ℚ) ^ e then e - 1 else e := by
    simp only [log2Ratio, Nat.pow_eq, ← he]
    by_cases h : (num / den : ℚ) < ((2 : ℕ) : ℚ) ^ e
    · rw [if_pos h, if_pos ((lt_zpow_iff hden e).mpr h)]
    · rw [if_neg h, if_neg (mt (lt_zpow_iff hden e).mp h)]
  rw [hrun]
  split
  next h => exact ⟨hbelow, by rwa [sub_add_cancel]⟩
  next h => exact ⟨not_lt.mp h, habove⟩

/-- The logarithm of a quotient is the greatest exponent whose power of two the quotient reaches. -/
theorem le_log2Ratio_iff {num den : ℕ} (hnum : 0 < num) (hden : 0 < den) {n : ℤ} :
    n ≤ log2Ratio num den ↔ ((2 : ℕ) : ℚ) ^ n ≤ num / den := by
  have hone : (1 : ℚ) < ((2 : ℕ) : ℚ) := by norm_num
  obtain ⟨hbelow, habove⟩ := log2Ratio_spec hnum hden
  constructor
  · intro h
    exact (zpow_le_zpow_right₀ hone.le h).trans hbelow
  · intro h
    exact Int.lt_add_one_iff.mp ((zpow_lt_zpow_iff_right₀ hone).mp (h.trans_lt habove))

/-- A quotient in units of a power of two. -/
theorem div_eq_units (num : ℕ) {den : ℕ} (hden : 0 < den) (e : ℤ) : (num / den : ℚ)
    = (num * 2 ^ (-e).toNat : ℕ) / (den * 2 ^ e.toNat : ℕ) * ((2 : ℕ) : ℚ) ^ e := by
  have hdown : ((2 ^ (-e).toNat : ℕ) : ℚ) ≠ 0 := Nat.cast_ne_zero.mpr (by positivity)
  have hup : ((2 ^ e.toNat : ℕ) : ℚ) ≠ 0 := Nat.cast_ne_zero.mpr (by positivity)
  have hden' : (den : ℚ) ≠ 0 := Nat.cast_ne_zero.mpr hden.ne'
  rw [zpow_eq_div 2 (by decide), Nat.cast_mul, Nat.cast_mul]
  field_simp

/-- Rounding a quotient in units of a power of two. -/
theorem roundDiv_zpow {num den m : ℕ} (hden : 0 < den) {e : ℤ}
    (hlow : (m - 1 / 2) * ((2 : ℕ) : ℚ) ^ e ≤ num / den)
    (hhigh : num / den ≤ (m + 1 / 2) * ((2 : ℕ) : ℚ) ^ e)
    (hodd : m % 2 = 1 → (m - 1 / 2) * ((2 : ℕ) : ℚ) ^ e < num / den ∧
      num / den < (m + 1 / 2) * ((2 : ℕ) : ℚ) ^ e) :
    roundDiv (num * 2 ^ (-e).toNat) (den * 2 ^ e.toNat) = m := by
  have hb : 0 < den * 2 ^ e.toNat := by positivity
  have hb' : (0 : ℚ) < (den * 2 ^ e.toNat : ℕ) := Nat.cast_pos.mpr hb
  have hpow : (0 : ℚ) < ((2 : ℕ) : ℚ) ^ e := by positivity
  rw [div_eq_units num hden e] at hlow hhigh hodd
  generalize num * 2 ^ (-e).toNat = a at hlow hhigh hodd ⊢
  generalize den * 2 ^ e.toNat = b at hb hb' hlow hhigh hodd ⊢
  rw [mul_le_mul_iff_left₀ hpow, le_div_iff₀ hb'] at hlow
  rw [mul_le_mul_iff_left₀ hpow, div_le_iff₀ hb'] at hhigh
  refine roundDiv_eq ?_ ?_ (fun hm => ?_) hb
  · have h : 2 * ((m : ℚ) * b) ≤ 2 * a + b := by linarith
    exact_mod_cast h
  · have h : 2 * (a : ℚ) ≤ 2 * (m * b) + b := by linarith
    exact_mod_cast h
  · obtain ⟨hlow, hhigh⟩ := hodd hm
    rw [mul_lt_mul_iff_left₀ hpow, lt_div_iff₀ hb'] at hlow
    rw [mul_lt_mul_iff_left₀ hpow, div_lt_iff₀ hb'] at hhigh
    have h : 2 * ((m : ℚ) * b) < 2 * a + b := by linarith
    have h' : 2 * (a : ℚ) < 2 * (m * b) + b := by linarith
    exact ⟨by exact_mod_cast h, by exact_mod_cast h'⟩

/-- Rounding is off by a half at most. -/
theorem roundDiv_spec {a b : ℕ} (hb : 0 < b) :
    2 * (roundDiv a b * b) ≤ 2 * a + b ∧ 2 * a ≤ 2 * (roundDiv a b * b) + b := by
  have hdiv : a / b * b + a % b = a := Nat.div_add_mod' a b
  have hmod : a % b < b := Nat.mod_lt a hb
  have hnext : (a / b + 1) * b = a / b * b + b := Nat.succ_mul _ _
  unfold roundDiv
  dsimp only
  split
  · omega
  · split
    · omega
    · split <;> omega

/-- A quotient is rounded by half a unit at most. -/
theorem abs_roundDiv_sub_le (num : ℕ) {den : ℕ} (hden : 0 < den) (e : ℤ) :
    |(roundDiv (num * 2 ^ (-e).toNat) (den * 2 ^ e.toNat) : ℚ) * ((2 : ℕ) : ℚ) ^ e - num / den| ≤
      1 / 2 * ((2 : ℕ) : ℚ) ^ e := by
  have hb : 0 < den * 2 ^ e.toNat := by positivity
  have hb' : (0 : ℚ) < (den * 2 ^ e.toNat : ℕ) := Nat.cast_pos.mpr hb
  have hpow : (0 : ℚ) < ((2 : ℕ) : ℚ) ^ e := by positivity
  obtain ⟨hlow, hhigh⟩ := roundDiv_spec (a := num * 2 ^ (-e).toNat) hb
  rw [div_eq_units num hden e, ← sub_mul, abs_mul, abs_of_pos hpow]
  refine mul_le_mul_of_nonneg_right ?_ hpow.le
  generalize roundDiv _ _ = m at hlow hhigh ⊢
  generalize num * 2 ^ (-e).toNat = a at hlow hhigh ⊢
  generalize den * 2 ^ e.toNat = b at hb' hlow hhigh ⊢
  rw [← Nat.cast_le (α := ℚ)] at hlow hhigh
  push_cast at hlow hhigh
  have hbelow : (m : ℚ) - 1 / 2 ≤ a / b := by
    rw [le_div_iff₀ hb']
    linarith
  have habove : (a / b : ℚ) ≤ m + 1 / 2 := by
    rw [div_le_iff₀ hb']
    linarith
  rw [abs_le]
  constructor <;> linarith

/-- A quotient is rounded to an even number or more from the half below that number on. -/
theorem le_roundDiv_iff {a b m : ℕ} (hb : 0 < b) (hm : m % 2 = 0) :
    m ≤ roundDiv a b ↔ 2 * (m * b) ≤ 2 * a + b := by
  have hdiv : a / b * b + a % b = a := Nat.div_add_mod' a b
  have hmod : a % b < b := Nat.mod_lt a hb
  unfold roundDiv
  generalize a / b = q at hdiv
  generalize a % b = r at hdiv hmod
  dsimp only
  rcases Nat.lt_or_ge q m with hlt | hge
  · have hnext : (q + 1) * b ≤ m * b := Nat.mul_le_mul_right b hlt
    rcases Nat.lt_or_ge (q + 1) m with hlt' | hge'
    · -- the number is out of reach
      have hfar : (q + 2) * b ≤ m * b := Nat.mul_le_mul_right b hlt'
      rw [Nat.add_mul] at hfar
      split <;> [skip; split <;> [skip; split]] <;> omega
    · obtain rfl : m = q + 1 := by omega
      rw [Nat.add_mul] at hnext ⊢
      split
      · omega
      · split
        · omega
        · rw [if_neg (by omega)]
          omega
  · have hless : m * b ≤ q * b := Nat.mul_le_mul_right b hge
    split <;> [skip; split <;> [skip; split]] <;> omega

/-- A quotient is rounded up to an even mantissa from half a unit below it on. -/
theorem le_roundDiv_zpow_iff (num : ℕ) {den m : ℕ} (hden : 0 < den) (e : ℤ) (hm : m % 2 = 0) :
    m ≤ roundDiv (num * 2 ^ (-e).toNat) (den * 2 ^ e.toNat) ↔
      (m - 1 / 2) * ((2 : ℕ) : ℚ) ^ e ≤ num / den := by
  have hb : 0 < den * 2 ^ e.toNat := by positivity
  have hb' : (0 : ℚ) < (den * 2 ^ e.toNat : ℕ) := Nat.cast_pos.mpr hb
  have hpow : (0 : ℚ) < ((2 : ℕ) : ℚ) ^ e := by positivity
  rw [le_roundDiv_iff hb hm, div_eq_units num hden e, mul_le_mul_iff_left₀ hpow, le_div_iff₀ hb']
  generalize num * 2 ^ (-e).toNat = a
  generalize den * 2 ^ e.toNat = b
  rw [← Nat.cast_le (α := ℚ)]
  push_cast
  constructor <;> intro h <;> linarith

/-! ## Floats -/

/-- Mantissa and exponent as a positive float stores them. -/
structure Stored (m : ℕ) (e : ℤ) : Prop where
  pos : 0 < m
  lt : m < 2 ^ 24
  least : -149 ≤ e
  full : 2 ^ 23 ≤ m ∨ e = -149

/-- How far below a float a number is still rounded to it, in units of its last place. -/
def reach (m : ℕ) (e : ℤ) : ℚ := if m = 2 ^ 23 ∧ -149 < e then 1 / 4 else 1 / 2

/-- **The number is rounded to the float** with this mantissa and exponent. -/
structure Near (m : ℕ) (e : ℤ) (r : ℚ) : Prop where
  low : (m - reach m e) * ((2 : ℕ) : ℚ) ^ e ≤ r
  high : r ≤ (m + 1 / 2) * ((2 : ℕ) : ℚ) ^ e
  odd : m % 2 = 1 → (m - reach m e) * ((2 : ℕ) : ℚ) ^ e < r ∧ r < (m + 1 / 2) * ((2 : ℕ) : ℚ) ^ e

/-- Half of a last place is the most that rounds to a float. -/
theorem reach_le (m : ℕ) (e : ℤ) : reach m e ≤ 1 / 2 := by
  unfold reach
  split <;> norm_num

theorem zpow_shift (n : ℕ) (e : ℤ) : ((2 : ℕ) : ℚ) ^ ((n : ℤ) + e) = 2 ^ n * ((2 : ℕ) : ℚ) ^ e := by
  rw [zpow_add₀ (by norm_num), zpow_natCast]
  norm_num

section Near

variable {num den m : ℕ} {e : ℤ} {r : ℚ}

/-- What is rounded to a float is at most half a last place below it. -/
theorem Near.low_half (h : Near m e r) : (m - 1 / 2) * ((2 : ℕ) : ℚ) ^ e ≤ r := by
  have hreach := reach_le m e
  exact (mul_le_mul_of_nonneg_right (by linarith) (by positivity)).trans h.low

/-- What is rounded to a float that is stored is positive. -/
theorem Near.pos (h : Near m e r) (hm : Stored m e) : 0 < r := by
  have hone : (1 : ℚ) ≤ m := by exact_mod_cast hm.pos
  exact (mul_pos (by linarith) (by positivity)).trans_le h.low_half

/-- What is rounded to a float that is stored has no more than a full mantissa. -/
theorem Near.lt (h : Near m e r) (hm : Stored m e) : r < ((2 : ℕ) : ℚ) ^ ((24 : ℕ) + e) := by
  have hmlt : (m : ℚ) + 1 ≤ 2 ^ 24 := by exact_mod_cast hm.lt
  rw [zpow_shift]
  exact h.high.trans_lt (mul_lt_mul_of_pos_right (by linarith) (by positivity))

/-- In the unit of the float, the number is rounded to the mantissa of the float. -/
theorem Near.roundDiv_eq (h : Near m e (num / den)) (hden : 0 < den) :
    roundDiv (num * 2 ^ (-e).toNat) (den * 2 ^ e.toNat) = m := by
  have hreach := reach_le m e
  have hpow : (0 : ℚ) ≤ ((2 : ℕ) : ℚ) ^ e := by positivity
  refine roundDiv_zpow hden h.low_half h.high fun hm => ⟨?_, (h.odd hm).2⟩
  exact lt_of_le_of_lt (mul_le_mul_of_nonneg_right (by linarith) hpow) (h.odd hm).1

/-- Only a power of two has numbers near it that are less than the least full mantissa.  They are rounded
    in half the unit, to twice the mantissa. -/
theorem Near.roundDiv_half (h : Near m e (num / den)) (hm : Stored m e) (he : -149 < e)
    (hden : 0 < den) (hless : (num / den : ℚ) < ((2 : ℕ) : ℚ) ^ ((23 : ℕ) + e)) :
    m = 2 ^ 23 ∧ ((2 : ℕ) : ℚ) ^ (22 + e) ≤ num / den ∧
      roundDiv (num * 2 ^ (-(e - 1)).toNat) (den * 2 ^ (e - 1).toNat) = 2 ^ 24 := by
  have hpow : (0 : ℚ) < ((2 : ℕ) : ℚ) ^ (e - 1) := by positivity
  have hhalf : ((2 : ℕ) : ℚ) ^ e = 2 * ((2 : ℕ) : ℚ) ^ (e - 1) := by
    rw [show e = ((1 : ℕ) : ℤ) + (e - 1) by push_cast; ring, zpow_shift]
    norm_num
  rw [zpow_shift] at hless
  obtain rfl : m = 2 ^ 23 := by
    refine le_antisymm ?_ (hm.full.resolve_right he.ne')
    by_contra hlt
    have hm' : (2 ^ 23 + 1 : ℚ) ≤ m := by exact_mod_cast not_le.mp hlt
    exact absurd ((mul_le_mul_of_nonneg_right (by linarith) (by positivity)).trans h.low_half)
      (not_le.mpr hless)
  -- in half the unit the number lies within one half below `2 ^ 24`, and is rounded up to it
  have hlow : (2 ^ 24 - 1 / 2) * ((2 : ℕ) : ℚ) ^ (e - 1) ≤ num / den := by
    have := h.low
    rw [reach, if_pos ⟨rfl, he⟩, hhalf] at this
    push_cast at this ⊢
    linarith
  have hhigh : num / den ≤ (2 ^ 24 : ℚ) * ((2 : ℕ) : ℚ) ^ (e - 1) := by
    rw [hhalf] at hless
    push_cast at hless ⊢
    linarith
  refine ⟨rfl, ?_, ?_⟩
  · rw [show 22 + e = ((23 : ℕ) : ℤ) + (e - 1) by push_cast; ring, zpow_shift]
    exact (mul_le_mul_of_nonneg_right (by norm_num) hpow.le).trans hlow
  · refine roundDiv_zpow hden ?_ ?_ fun h => by cases h
    · exact_mod_cast hlow
    · push_cast
      linarith

/-- The unit and the mantissa that `ofRatio` finds: those of the float, or, just below a power of two,
    half the unit and twice the mantissa. -/
theorem round_of_near (hden : 0 < den) (hm : Stored m e) (h : Near m e (num / den)) :
    let q := max (log2Ratio num den - 23) (-149)
    (q + 149).toNat * 2 ^ 23 + roundDiv (num * 2 ^ (-q).toNat) (den * 2 ^ q.toNat)
      = (e + 149).toNat * 2 ^ 23 + m := by
  have hnum : 0 < num := Nat.pos_of_ne_zero fun hzero => by
    have hpos := h.pos hm
    rw [hzero, Nat.cast_zero, zero_div] at hpos
    exact lt_irrefl _ hpos
  have hlog := fun n => le_log2Ratio_iff hnum hden (n := n)
  have hupper : log2Ratio num den < 24 + e :=
    not_le.mp (mt (hlog _).mp (not_le.mpr (h.lt hm)))
  have hleast := hm.least
  dsimp only
  by_cases hunit : 23 + e ≤ log2Ratio num den ∨ e = -149
  · -- the unit is that of the float
    have hq : max (log2Ratio num den - 23) (-149) = e := by omega
    rw [hq, h.roundDiv_eq hden]
  · -- the number is just below the power of two that the float is
    obtain ⟨hbelow, he⟩ := not_or.mp hunit
    have hless : (num / den : ℚ) < ((2 : ℕ) : ℚ) ^ ((23 : ℕ) + e) :=
      not_le.mp (mt (hlog _).mpr hbelow)
    obtain ⟨rfl, hlower, hround⟩ := h.roundDiv_half hm (by omega) hden hless
    have hlower' := (hlog _).mpr hlower
    have hq : max (log2Ratio num den - 23) (-149) = e - 1 := by omega
    have hcount : (e + 149).toNat = (e - 1 + 149).toNat + 1 := by omega
    rw [hq, hround, hcount]
    ring

/-- **A number near a float is rounded to it.** -/
theorem ofRatio_of_near (hden : 0 < den) (hm : Stored m e) (h : Near m e (num / den))
    (hfinite : (e + 149).toNat * 2 ^ 23 + m < 0x7F800000) :
    ofRatio false num den = ⟨UInt32.ofNat ((e + 149).toNat * 2 ^ 23 + m)⟩ := by
  have hround := round_of_near hden hm h
  have hnum : num ≠ 0 := by
    rintro rfl
    have hpos := h.pos hm
    rw [Nat.cast_zero, zero_div] at hpos
    exact lt_irrefl _ hpos
  dsimp only at hround
  rw [ofRatio, if_neg hnum]
  simp only [Nat.pow_eq, hround]
  rw [if_neg (not_le.mpr hfinite), if_neg Bool.false_ne_true, Nat.add_zero]

end Near

/-! ## Overflow -/

/-- The middle between the greatest float and the power of two above it.  The greatest float has an odd
    mantissa, so from here on numbers are rounded to infinity. -/
def overflow : ℚ := 2 ^ 128 - 2 ^ 103

theorem overflow_eq : overflow = ((2 ^ 24 : ℕ) - 1 / 2) * ((2 : ℕ) : ℚ) ^ (104 : ℤ) := by
  norm_num [overflow]

section Pattern

variable {num den : ℕ}

/-- The unit and the mantissa that `ofRatio` finds for a number. -/
structure Units (num den : ℕ) (q : ℤ) (m : ℕ) : Prop where
  unit : q = max (log2Ratio num den - 23) (-149)
  mantissa : m = roundDiv (num * 2 ^ (-q).toNat) (den * 2 ^ q.toNat)

variable {q : ℤ} {m : ℕ}

/-- The pattern is made of the unit and the mantissa, unless that is out of range. -/
theorem exists_units (hnum : 0 < num) (den : ℕ) : ∃ q m, Units num den q m ∧ ofRatio false num den =
    if 0x7F800000 ≤ (q + 149).toNat * 2 ^ 23 + m then infinity false
    else ⟨UInt32.ofNat ((q + 149).toNat * 2 ^ 23 + m)⟩ := by
  refine ⟨_, _, ⟨rfl, rfl⟩, ?_⟩
  rw [ofRatio, if_neg hnum.ne']
  simp only [Nat.pow_eq, Bool.false_eq_true, if_false, Nat.add_zero]

/-- The mantissa is off by a half at most. -/
theorem Units.near (h : Units num den q m) (hden : 0 < den) :
    |(m : ℚ) * ((2 : ℕ) : ℚ) ^ q - num / den| ≤ 1 / 2 * ((2 : ℕ) : ℚ) ^ q := by
  rw [h.mantissa]
  exact abs_roundDiv_sub_le num hden q

/-- The mantissa has 24 bits, or fewer if there is no smaller unit, or it is the next power of two. -/
theorem Units.bounds (h : Units num den q m) (hnum : 0 < num) (hden : 0 < den) :
    m ≤ 2 ^ 24 ∧ (q = -149 ∨ 2 ^ 23 ≤ m) := by
  obtain ⟨hbelow, habove⟩ := log2Ratio_spec hnum hden
  obtain ⟨hlow, hhigh⟩ := abs_le.mp (h.near hden)
  have hunit := h.unit
  generalize log2Ratio num den = e at hbelow habove hunit
  have hpow : (0 : ℚ) < ((2 : ℕ) : ℚ) ^ q := by positivity
  have hone : (1 : ℚ) ≤ ((2 : ℕ) : ℚ) := by norm_num
  constructor
  · have hless : (num / den : ℚ) < 2 ^ 24 * ((2 : ℕ) : ℚ) ^ q := by
      rw [← zpow_shift]
      exact habove.trans_le (zpow_le_zpow_right₀ hone (by push_cast; omega))
    have hm : (m : ℚ) < 2 ^ 24 + 1 := by
      refine lt_of_mul_lt_mul_right ?_ hpow.le
      generalize ((2 : ℕ) : ℚ) ^ q = unit at hless hhigh hpow ⊢
      linarith
    exact Nat.lt_succ_iff.mp (by exact_mod_cast hm)
  · refine or_iff_not_imp_left.mpr fun hq => ?_
    have hpower : ((2 : ℕ) : ℚ) ^ e = 2 ^ 23 * ((2 : ℕ) : ℚ) ^ q := by
      rw [← zpow_shift]
      congr 1
      push_cast
      omega
    have hm : (2 ^ 23 : ℚ) < m + 1 := by
      rw [hpower] at hbelow
      refine lt_of_mul_lt_mul_right ?_ hpow.le
      generalize ((2 : ℕ) : ℚ) ^ q = unit at hbelow hlow hpow ⊢
      linarith
    exact Nat.lt_succ_iff.mp (by exact_mod_cast hm)

/-- The pattern is out of range from there on. -/
theorem Units.overflow_iff (h : Units num den q m) (hnum : 0 < num) (hden : 0 < den) :
    0x7F800000 ≤ (q + 149).toNat * 2 ^ 23 + m ↔ overflow ≤ num / den := by
  obtain ⟨hbelow, habove⟩ := log2Ratio_spec hnum hden
  obtain ⟨hm, hfull⟩ := h.bounds hnum hden
  have hunit := h.unit
  have hone : (1 : ℚ) ≤ ((2 : ℕ) : ℚ) := by norm_num
  rcases lt_trichotomy q 104 with hlt | rfl | hgt
  · -- the number is less than the last power of two
    have hless : (num / den : ℚ) < overflow := calc
      (num / den : ℚ) < ((2 : ℕ) : ℚ) ^ (log2Ratio num den + 1) := habove
      _ ≤ ((2 : ℕ) : ℚ) ^ (127 : ℤ) := zpow_le_zpow_right₀ hone (by omega)
      _ < overflow := by norm_num [overflow]
    exact iff_of_false (by omega) (not_le.mpr hless)
  · -- the unit is that of the greatest float
    rw [overflow_eq, ← le_roundDiv_zpow_iff num hden 104 (by norm_num), ← h.mantissa]
    omega
  · -- the number is no less than the power of two above all floats
    have hmore : overflow ≤ num / den := calc
      overflow ≤ ((2 : ℕ) : ℚ) ^ (128 : ℤ) := by norm_num [overflow]
      _ ≤ ((2 : ℕ) : ℚ) ^ log2Ratio num den := zpow_le_zpow_right₀ hone (by omega)
      _ ≤ num / den := hbelow
    exact iff_of_true (by omega) hmore

end Pattern

/-- What a pattern of a unit and a mantissa denotes.  A mantissa that is one too much is half of it in twice
    the unit. -/
theorem toExtended_pattern {k m : ℕ} (hm : m ≤ 2 ^ 24) (hfull : k = 0 ∨ 2 ^ 23 ≤ m)
    (hlt : k * 2 ^ 23 + m < 0x7F800000) : ∃ d, (⟨UInt32.ofNat (k * 2 ^ 23 + m)⟩ : Binary32).toExtended = .finite false d ∧
      (d = ⟨m, (k : ℤ) - 149⟩ ∨ m = 2 ^ 24 ∧ d = ⟨2 ^ 23, (k : ℤ) - 148⟩) := by
  have hn : (UInt32.ofNat (k * 2 ^ 23 + m)).toNat = k * 2 ^ 23 + m :=
    UInt32.toNat_ofNat_of_lt' (hlt.trans (by decide))
  unfold toExtended
  dsimp only
  rw [hn, Nat.pow_eq, Nat.pow_eq, Nat.pow_eq]
  have hsign : ¬2 ^ 31 ≤ k * 2 ^ 23 + m := by omega
  rw [decide_eq_false hsign, if_neg (by omega)]
  rcases Nat.lt_or_ge m (2 ^ 23) with hsmall | hlarge
  · obtain rfl : k = 0 := hfull.resolve_right (Nat.not_le.mpr hsmall)
    rw [if_pos (by omega)]
    refine ⟨_, rfl, .inl ?_⟩
    rw [Nat.zero_mul, Nat.zero_add, Nat.mod_eq_of_lt hsmall]
    rfl
  · rw [if_neg (by omega)]
    refine ⟨_, rfl, ?_⟩
    -- a carry out of the mantissa goes into the exponent, where it counts one
    rcases Nat.lt_or_eq_of_le hm with hlt' | rfl
    · have hmantissa : 2 ^ 23 + (k * 2 ^ 23 + m) % 2 ^ 23 = m := by omega
      have hexponent : (k * 2 ^ 23 + m) / 2 ^ 23 % 2 ^ 8 = k + 1 := by omega
      rw [hmantissa, hexponent]
      refine .inl (congrArg _ ?_)
      push_cast
      ring
    · have hmantissa : (k * 2 ^ 23 + 2 ^ 24) % 2 ^ 23 = 0 := by omega
      have hexponent : (k * 2 ^ 23 + 2 ^ 24) / 2 ^ 23 % 2 ^ 8 = k + 2 := by omega
      rw [hmantissa, hexponent]
      refine .inr ⟨rfl, congrArg _ ?_⟩
      push_cast
      ring

/-- **The float approximates the number**: it is finite, and off by a half of its last place at most. -/
def Approximates (x : Binary32) (r : ℚ) : Prop :=
  ∃ d : Dyadic, x.toExtended = .finite false d ∧
    |d.mantissa * ((2 : ℕ) : ℚ) ^ d.exponent - r| ≤ 1 / 2 * ((2 : ℕ) : ℚ) ^ d.exponent

/-- **Rounding a number to a float.**  Up to the middle above the greatest float it is approximated, and from
    there on it is rounded to infinity. -/
theorem ofRatio_cases (num : ℕ) {den : ℕ} (hden : 0 < den) :
    (overflow ≤ num / den ∧ ofRatio false num den = infinity false) ∨
      ((num / den : ℚ) < overflow ∧ (ofRatio false num den).Approximates (num / den)) := by
  rcases Nat.eq_zero_or_pos num with rfl | hnum
  · refine .inr ⟨by norm_num [overflow], ⟨0, -149⟩, ?_, ?_⟩
    · rw [ofRatio, if_pos rfl]
      rfl
    · norm_num
  · obtain ⟨q, m, h, hrun⟩ := exists_units hnum den
    have hiff := h.overflow_iff hnum hden
    rw [hrun]
    split
    next hle => exact .inl ⟨hiff.mp hle, rfl⟩
    next hlt =>
      obtain ⟨hm, hfull⟩ := h.bounds hnum hden
      have hq : (((q + 149).toNat : ℕ) : ℤ) = q + 149 := Int.toNat_of_nonneg (by have := h.unit; omega)
      obtain ⟨d, hd, hcases⟩ := toExtended_pattern hm (hfull.imp_left (by rintro rfl; rfl)) (not_le.mp hlt)
      refine .inr ⟨not_le.mp (mt hiff.mpr hlt), d, hd, ?_⟩
      have hnear := h.near hden
      rcases hcases with rfl | ⟨rfl, rfl⟩
      · rw [hq, add_sub_cancel_right]
        exact hnear
      · have hpow : (0 : ℚ) < ((2 : ℕ) : ℚ) ^ q := by positivity
        -- after the carry there is half the mantissa in twice the unit, which is the same number
        have hunit : ((2 : ℕ) : ℚ) ^ (((q + 149).toNat : ℤ) - 148) = 2 * ((2 : ℕ) : ℚ) ^ q := by
          rw [hq, show q + 149 - 148 = ((1 : ℕ) : ℤ) + q by push_cast; ring, zpow_shift, pow_one]
        have hvalue : ((2 ^ 23 : ℕ) : ℚ) * (2 * ((2 : ℕ) : ℚ) ^ q) = (2 ^ 24 : ℕ) * ((2 : ℕ) : ℚ) ^ q := by
          push_cast
          ring
        rw [hunit, hvalue]
        refine hnear.trans ?_
        generalize ((2 : ℕ) : ℚ) ^ q = unit at hpow ⊢
        linarith

end Binary32

end Yini
