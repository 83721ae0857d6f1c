import Mathlib.Tactic.IntervalCases
import Yini.Proofs.Number.Rounding
import Yini.Value.Text

/-!
A float is read back from its literal.

The shortest decimal of a float lies where numbers are rounded to that float (`near_shortest`), and its
positional notation denotes that decimal (`exists_numeral`).  So reading the literal of a float without
a sign gives the float (`exists_literal`).
-/

namespace Yini

/-! ## Decimals as rational numbers -/

namespace Decimal

/-- The number that a decimal is. -/
def value (d : Decimal) : ℚ := d.coefficient * ((10 : ℕ) : ℚ) ^ d.exponent

/-- The value of a decimal as a quotient of natural numbers. -/
theorem value_eq_div (d : Decimal) :
    d.value = (d.coefficient * 10 ^ d.exponent.toNat : ℕ) / (10 ^ (-d.exponent).toNat : ℕ) := by
  rw [value, zpow_eq_div 10 (by decide), Nat.cast_mul, mul_div_assoc]

/-- The zeros at the end of a number. -/
theorem pow_zeros_dvd (n : ℕ) :
    10 ^ ((Nat.toDigits 10 n).reverse.takeWhile (· == '0')).length ∣ n := by
  induction n using Nat.strong_induction_on with
  | _ n ih =>
    rcases Nat.lt_or_ge n 10 with hlt | hge
    · rw [Nat.toDigits_of_lt_base hlt]
      interval_cases n <;> decide
    · rw [Nat.toDigits_of_base_le (by decide) hge, List.reverse_append, List.reverse_singleton,
        List.singleton_append, List.takeWhile_cons]
      split
      next hzero =>
        have hmod : n % 10 = 0 := by
          have hlt := Nat.mod_lt n (by decide : 10 > 0)
          generalize n % 10 = r at hzero hlt
          interval_cases r <;> first | rfl | exact absurd hzero (by decide)
        obtain ⟨k, hk⟩ := ih (n / 10) (by omega)
        rw [List.length_cons, Nat.pow_succ, Nat.mul_comm]
        refine ⟨k, ?_⟩
        rw [Nat.mul_assoc, ← hk]
        omega
      next => exact Nat.one_dvd n

/-- Stripping zeros at the end keeps the value. -/
theorem value_strip (d : Decimal) : d.strip.value = d.value := by
  unfold strip
  dsimp only
  split
  · rfl
  · have hdvd := pow_zeros_dvd d.coefficient
    generalize ((Nat.toDigits 10 d.coefficient).reverse.takeWhile (· == '0')).length = zeros at hdvd ⊢
    obtain ⟨k, hk⟩ := hdvd
    have hdiv : d.coefficient / 10 ^ zeros = k := by
      rw [hk]
      exact Nat.mul_div_cancel_left k (by positivity)
    rw [value, value, Nat.pow_eq, hdiv, hk, zpow_add₀ (by norm_num), zpow_natCast]
    push_cast
    ring

/-! ## Positional notation -/

/-- Each zero behind some digits makes the number ten times as great. -/
theorem ofDigitChars_zeros (n init : ℕ) :
    Nat.ofDigitChars 10 (List.replicate n '0') init = init * 10 ^ n := by
  induction n generalizing init with
  | zero => simp
  | succ n ih =>
    rw [List.replicate_succ, Nat.ofDigitChars_cons, ih, Nat.pow_succ]
    simp only [Nat.sub_self, Nat.add_zero]
    ring

/-- The characters of a decimal as a literal has them, with a point in any case. -/
def numeral (d : Decimal) : List Char :=
  if d.positional.toList.contains '.' then d.positional.toList else d.positional.toList ++ ['.', '0']

/-- **The literal of the decimal** has digits on both sides of a point, these in front of it and those behind
    it, and they denote the decimal. -/
structure Splits (d : Decimal) (whole fraction : List Char) : Prop where
  text : d.numeral = whole ++ '.' :: fraction
  whole_ne : whole ≠ []
  fraction_ne : fraction ≠ []
  whole_digits : ∀ c ∈ whole, c.isDigit
  fraction_digits : ∀ c ∈ fraction, c.isDigit
  value_eq : (ofDigits whole fraction).value = d.value

theorem isDigit_of_mem_zeros {n : ℕ} : ∀ c ∈ List.replicate n '0', c.isDigit := fun c hc => by
  rw [List.eq_of_mem_replicate hc]
  rfl

theorem isDigit_of_mem_digits {n : ℕ} : ∀ c ∈ Nat.toDigits 10 n, c.isDigit := fun _ hc =>
  Nat.isDigit_of_mem_toDigits (by decide) (by decide) hc

theorem digits_ne_nil (n : ℕ) : Nat.toDigits 10 n ≠ [] :=
  List.ne_nil_of_length_pos Nat.length_toDigits_pos

/-- A natural number is read back from its digits. -/
theorem ofDigitChars_digits (n : ℕ) : Nat.ofDigitChars 10 (Nat.toDigits 10 n) 0 = n :=
  Nat.ofDigitChars_toDigits (by decide) (by decide)

section Splits

variable {d : Decimal}

/-- A text with a point is its own literal. -/
theorem numeral_of_point {whole fraction : List Char}
    (h : d.positional.toList = whole ++ '.' :: fraction) : d.numeral = whole ++ '.' :: fraction := by
  rw [numeral, h, if_pos (by simp)]

/-- Fewer places than digits: the point stands between the digits. -/
theorem splits_between (hneg : d.exponent < 0)
    (hplaces : (-d.exponent).toNat < (Nat.toDigits 10 d.coefficient).length) :
    ∃ whole fraction, d.Splits whole fraction := by
  set ds := Nat.toDigits 10 d.coefficient with hds
  set n := ds.length - (-d.exponent).toNat with hn
  refine ⟨ds.take n, ds.drop n, numeral_of_point ?_, ?_, ?_,
    fun c hc => isDigit_of_mem_digits c (List.mem_of_mem_take hc),
    fun c hc => isDigit_of_mem_digits c (List.mem_of_mem_drop hc), ?_⟩
  · rw [positional, String.toList_ofList, if_neg (by omega), if_pos hplaces]
  · rw [Ne, List.take_eq_nil_iff]
    rintro (hnil | hnil)
    · omega
    · exact digits_ne_nil _ hnil
  · rw [Ne, List.drop_eq_nil_iff]
    omega
  · rw [value, ofDigits, value, List.take_append_drop, ofDigitChars_digits, List.length_drop]
    congr 2
    dsimp only
    omega

/-- No fewer places than digits: zeros stand before the digits. -/
theorem splits_before (hneg : d.exponent < 0)
    (hplaces : ¬(-d.exponent).toNat < (Nat.toDigits 10 d.coefficient).length) :
    ∃ whole fraction, d.Splits whole fraction := by
  set ds := Nat.toDigits 10 d.coefficient with hds
  set zeros := List.replicate ((-d.exponent).toNat - ds.length) '0'
  refine ⟨['0'], zeros ++ ds, numeral_of_point ?_, by simp, ?_, by simp, fun c hc => ?_, ?_⟩
  · rw [positional, String.toList_ofList, if_neg (by omega), if_neg hplaces]
    rfl
  · exact fun hnil => digits_ne_nil _ (List.append_eq_nil_iff.mp hnil).2
  · exact (List.mem_append.mp hc).elim (isDigit_of_mem_zeros c) (isDigit_of_mem_digits c)
  · have hcoefficient : Nat.ofDigitChars 10 (['0'] ++ (zeros ++ ds)) 0 = d.coefficient := by
      rw [Nat.ofDigitChars_append, Nat.ofDigitChars_append, ofDigitChars_zeros]
      simpa [Nat.ofDigitChars] using ofDigitChars_digits d.coefficient
    rw [value, ofDigits, value, hcoefficient, List.length_append, List.length_replicate]
    congr 2
    dsimp only
    omega

/-- No places: zeros stand behind the digits, and the literal has one more behind its point. -/
theorem splits_behind (hnonneg : 0 ≤ d.exponent) : ∃ whole fraction, d.Splits whole fraction := by
  have htext : d.positional.toList
      = Nat.toDigits 10 d.coefficient ++ List.replicate d.exponent.toNat '0' := by
    rw [positional, String.toList_ofList, if_pos hnonneg]
  have hall : ∀ c ∈ d.positional.toList, c.isDigit := by
    rw [htext]
    exact fun c hc =>
      (List.mem_append.mp hc).elim (isDigit_of_mem_digits c) (isDigit_of_mem_zeros c)
  refine ⟨d.positional.toList, ['0'], ?_, ?_, by simp, hall, by simp, ?_⟩
  · rw [numeral, if_neg fun h => ?_]
    exact absurd (hall '.' (List.contains_iff_mem.mp h)) (by decide)
  · rw [htext]
    exact fun hnil => digits_ne_nil _ (List.append_eq_nil_iff.mp hnil).1
  · rw [value, ofDigits, value, htext, Nat.ofDigitChars_append, Nat.ofDigitChars_append,
      ofDigitChars_digits, ofDigitChars_zeros]
    obtain ⟨n, hn⟩ := Int.eq_ofNat_of_zero_le hnonneg
    rw [hn, Nat.ofDigitChars_cons]
    simp [Nat.ofDigitChars]
    ring

end Splits

/-- **The positional notation of a decimal** falls into the digits before and behind the point, wherever
    that stands. -/
theorem exists_numeral (d : Decimal) : ∃ whole fraction, d.Splits whole fraction := by
  rcases Int.lt_or_le d.exponent 0 with hneg | hnonneg
  · by_cases hplaces : (-d.exponent).toNat < (Nat.toDigits 10 d.coefficient).length
    · exact splits_between hneg hplaces
    · exact splits_before hneg hplaces
  · exact splits_behind hnonneg

end Decimal

open Binary32 (Stored Near reach)

namespace Dyadic

/-! ## Shortest decimals -/

/-- A place on a grid of decimals, compared with quarters of a last place. -/
theorem quarters_le_iff (a c : ℕ) (e g : ℤ) :
    (a * (2 ^ (e - 2).toNat * 10 ^ (-g).toNat) ≤ c * (2 ^ (2 - e).toNat * 10 ^ g.toNat) ↔
      (a / 4 : ℚ) * ((2 : ℕ) : ℚ) ^ e ≤ c * ((10 : ℕ) : ℚ) ^ g) ∧
    (c * (2 ^ (2 - e).toNat * 10 ^ g.toNat) ≤ a * (2 ^ (e - 2).toNat * 10 ^ (-g).toNat) ↔
      c * ((10 : ℕ) : ℚ) ^ g ≤ (a / 4 : ℚ) * ((2 : ℕ) : ℚ) ^ e) := by
  have hquarter : (a / 4 : ℚ) * ((2 : ℕ) : ℚ) ^ e = a * ((2 : ℕ) : ℚ) ^ (e - 2) := by
    rw [show e = ((2 : ℕ) : ℤ) + (e - 2) by push_cast; ring, Binary32.zpow_shift]
    ring_nf
  have htwo := zpow_eq_div 2 (by decide) (e - 2)
  have hten := zpow_eq_div 10 (by decide) g
  rw [neg_sub] at htwo
  have hdown : (0 : ℚ) < (2 ^ (2 - e).toNat : ℕ) := Nat.cast_pos.mpr (by positivity)
  have hdown' : (0 : ℚ) < (10 ^ (-g).toNat : ℕ) := Nat.cast_pos.mpr (by positivity)
  rw [hquarter, htwo, hten, ← mul_div_assoc, ← mul_div_assoc, div_le_div_iff₀ hdown hdown',
    div_le_div_iff₀ hdown' hdown]
  norm_cast
  constructor <;> constructor <;> intro h <;> nlinarith only [h]

/-- What is picked lies on the grid, and inside the interval of the float. -/
theorem pick_cases {tie : Tie} {narrow : Bool} {m : ℕ} {e g : ℤ} {d : Decimal}
    (h : pick tie narrow ⟨m, e⟩ g = some d) : d.exponent = g ∧
      let place := d.coefficient * (2 ^ (2 - e).toNat * 10 ^ g.toNat)
      let unit := 2 ^ (e - 2).toNat * 10 ^ (-g).toNat
      let low := (4 * m - if narrow then 1 else 2) * unit
      let high := (4 * m + 2) * unit
      low ≤ place ∧ place ≤ high ∧ (m % 2 = 1 → low < place ∧ place < high) := by
  unfold pick at h
  simp only [Nat.pow_eq] at h ⊢
  -- only products count from here on, so the powers are closed off
  generalize 2 ^ (2 - e).toNat * 10 ^ g.toNat = grid at h ⊢
  generalize 2 ^ (e - 2).toNat * 10 ^ (-g).toNat = unit at h ⊢
  generalize (4 * m - if narrow then 1 else 2) * unit = low at h ⊢
  generalize (4 * m + 2) * unit = high at h ⊢
  generalize 4 * m * unit / grid = c at h
  have hinside : ∀ c, (if m % 2 = 0 then decide (low ≤ c * grid) && decide (c * grid ≤ high)
      else decide (low < c * grid) && decide (c * grid < high)) = true →
        low ≤ c * grid ∧ c * grid ≤ high ∧ (m % 2 = 1 → low < c * grid ∧ c * grid < high) := by
    intro c hc
    split at hc
    · simp only [Bool.and_eq_true, decide_eq_true_eq] at hc
      exact ⟨hc.1, hc.2, fun _ => by omega⟩
    · simp only [Bool.and_eq_true, decide_eq_true_eq] at hc
      exact ⟨hc.1.le, hc.2.le, fun _ => hc⟩
  split at h
  next hc hc' =>
    cases h
    refine ⟨rfl, ?_⟩
    dsimp only
    split
    · exact hinside _ hc
    · exact hinside _ hc'
    · exact hinside _ hc'
    · split
      · exact hinside _ hc
      · exact hinside _ hc'
  next hc _ => cases h; exact ⟨rfl, hinside _ hc⟩
  next _ hc => cases h; exact ⟨rfl, hinside _ hc⟩
  next => cases h

/-- **A decimal that is picked for a float** lies where numbers are rounded to the float. -/
theorem near_pick {tie : Tie} {m : ℕ} {e g : ℤ} (hm : Stored m e) {d : Decimal}
    (h : pick tie (narrowBelow .single ⟨m, e⟩) ⟨m, e⟩ g = some d) : Near m e d.value := by
  obtain ⟨rfl, hlow, hhigh, hodd⟩ := pick_cases h
  have hlowlt := fun a c => not_iff_not.mpr (quarters_le_iff a c e d.exponent).2
  have hhighlt := fun a c => not_iff_not.mpr (quarters_le_iff a c e d.exponent).1
  simp only [not_le] at hlowlt hhighlt
  rw [(quarters_le_iff _ _ e d.exponent).1] at hlow
  rw [(quarters_le_iff _ _ e d.exponent).2] at hhigh
  rw [hlowlt, hhighlt] at hodd
  -- below a power of two the interval reaches down only half as far
  have hquarters : ((4 * m - if narrowBelow .single ⟨m, e⟩ then 1 else 2 : ℕ) / 4 : ℚ)
      = m - reach m e := by
    have hpos := hm.pos
    have hnarrow : narrowBelow .single ⟨m, e⟩ = true ↔ m = 2 ^ 23 ∧ -149 < e := by
      rw [narrowBelow, Bool.and_eq_true, decide_eq_true_eq, beq_iff_eq]
      rfl
    unfold reach
    split
    next h =>
      rw [if_pos (hnarrow.mp h), Nat.cast_sub (by omega)]
      push_cast
      ring
    next h =>
      rw [if_neg (mt hnarrow.mpr h), Nat.cast_sub (by omega)]
      push_cast
      ring
  have habove : ((4 * m + 2 : ℕ) / 4 : ℚ) = m + 1 / 2 := by
    push_cast
    ring
  rw [hquarters] at hlow hodd
  rw [habove] at hhigh hodd
  exact ⟨hlow, hhigh, hodd⟩

/-- A stored float is normalized. -/
theorem normalize_stored {m : ℕ} {e : ℤ} (hm : Stored m e) :
    normalize .single ⟨m, e⟩ = ⟨m, e⟩ := by
  have hup : min (24 - bitLength m) (e + 149).toNat = 0 := by
    rcases hm.full with hfull | rfl
    · have hlog : Nat.log2 m = 23 := by
        rw [Nat.log2_eq_iff hm.pos.ne']
        exact ⟨hfull, hm.lt⟩
      rw [bitLength, if_neg hm.pos.ne', hlog]
      rfl
    · simp
  have hleast : e - BinaryFormat.single.minExponent = e + 149 := by
    show e - (-149) = e + 149
    ring
  rw [normalize]
  simp only [hleast]
  rw [show BinaryFormat.single.precision = 24 from rfl, hup]
  simp

/-- The exact decimal of a float. -/
theorem value_toDecimal (m : ℕ) (e : ℤ) : (toDecimal ⟨m, e⟩).value = m * ((2 : ℕ) : ℚ) ^ e := by
  unfold toDecimal
  dsimp only
  split
  next he =>
    obtain ⟨n, rfl⟩ := Int.eq_ofNat_of_zero_le he
    simp [Decimal.value]
  next he =>
    obtain ⟨n, rfl⟩ : ∃ n : ℕ, e = -(n : ℤ) := ⟨(-e).toNat, by omega⟩
    rw [Decimal.value, neg_neg, Int.toNat_natCast, zpow_neg, zpow_neg, zpow_natCast, zpow_natCast]
    have hten : ((10 : ℕ) : ℚ) ^ n = (5 : ℚ) ^ n * (2 : ℚ) ^ n := by
      rw [← mul_pow]
      norm_num
    rw [hten, Nat.pow_eq]
    push_cast
    field_simp

/-- **The shortest decimal of a float** is rounded to that float. -/
theorem near_shortest (tie : Tie) {m : ℕ} {e : ℤ} (hm : Stored m e) :
    Near m e (shortest .single tie ⟨m, e⟩).value := by
  have hpos := hm.pos
  rw [shortest, if_neg hpos.ne', normalize_stored hm]
  dsimp only
  rw [Decimal.value_strip]
  cases hpicked : (List.range BinaryFormat.single.decimalDigits).findSome? fun (n : ℕ) =>
      pick tie (narrowBelow .single ⟨m, e⟩) ⟨m, e⟩ (decimalScale ⟨m, e⟩ - (n + 1)) with
  | some d =>
    obtain ⟨n, -, hn⟩ := List.exists_of_findSome?_eq_some hpicked
    exact near_pick hm hn
  | none =>
    -- the exact decimal is that of the float itself
    have hpow : (0 : ℚ) < ((2 : ℕ) : ℚ) ^ e := by positivity
    have hreach : 0 < reach m e := by
      unfold reach
      split <;> norm_num
    rw [Option.getD_none, value_toDecimal]
    exact ⟨mul_le_mul_of_nonneg_right (by linarith) hpow.le,
      mul_le_mul_of_nonneg_right (by linarith) hpow.le,
      fun _ => ⟨mul_lt_mul_of_pos_right (by linarith) hpow,
        mul_lt_mul_of_pos_right (by linarith) hpow⟩⟩

end Dyadic

/-! ## Literals -/

namespace Binary32

variable {x : Binary32}

/-- A decimal that lies near a float is read as that float, unless it is too large. -/
theorem ofDecimal_of_near {d : Decimal} {m : ℕ} {e : ℤ} (hm : Stored m e) (h : Near m e d.value)
    (hfinite : (e + 149).toNat * 2 ^ 23 + m < 0x7F800000) :
    ofDecimal false d = ⟨UInt32.ofNat ((e + 149).toNat * 2 ^ 23 + m)⟩ := by
  rw [Decimal.value_eq_div] at h
  exact ofRatio_of_near (Nat.pow_pos (by decide)) hm h hfinite

/-- A decimal is approximated or rounded to infinity. -/
theorem ofDecimal_cases (d : Decimal) : (overflow ≤ d.value ∧ ofDecimal false d = infinity false) ∨
    (d.value < overflow ∧ (ofDecimal false d).Approximates d.value) := by
  rw [Decimal.value_eq_div]
  exact ofRatio_cases _ (Nat.pow_pos (by decide))

/-- A finite float without a sign is zero, or as it is stored. -/
theorem stored_of_toExtended {d : Dyadic} (h : x.toExtended = .finite false d) :
    (x = zero false ∧ d.mantissa = 0) ∨ (Stored d.mantissa d.exponent ∧
      (d.exponent + 149).toNat * 2 ^ 23 + d.mantissa < 0x7F800000 ∧
        x = ⟨UInt32.ofNat ((d.exponent + 149).toNat * 2 ^ 23 + d.mantissa)⟩) := by
  have hx : x = ⟨UInt32.ofNat x.bits.toNat⟩ := by rw [UInt32.ofNat_toNat]
  unfold toExtended at h
  dsimp only at h
  generalize x.bits.toNat = n at hx h
  simp only [Nat.pow_eq] at h
  have hdiv : 2 ^ 23 * (n / 2 ^ 23) + n % 2 ^ 23 = n := Nat.div_add_mod n _
  have hmod : n % 2 ^ 23 < 2 ^ 23 := Nat.mod_lt n (by decide)
  split at h
  next => split at h <;> cases h
  next hnone =>
    -- the sign bit is off, so the exponent is all that stands above the mantissa
    have hsign : n < 2 ^ 31 := by
      refine Nat.not_le.mp fun hle => ?_
      rw [decide_eq_true hle] at h
      split at h <;> cases h
    rw [decide_eq_false (Nat.not_le.mpr hsign)] at h
    have hexponent : n / 2 ^ 23 % 2 ^ 8 = n / 2 ^ 23 := Nat.mod_eq_of_lt (by omega)
    rw [hexponent] at hnone h
    generalize n / 2 ^ 23 = exponent at hdiv hnone h
    generalize n % 2 ^ 23 = mantissa at hdiv hmod h
    split at h
    next hleast =>
      cases h
      dsimp only
      obtain rfl : mantissa = n := by omega
      rcases Nat.eq_zero_or_pos mantissa with rfl | hpos
      · exact .inl ⟨hx, rfl⟩
      · exact .inr ⟨⟨hpos, by omega, le_rfl, .inr rfl⟩, by omega, by simpa using hx⟩
    next hleast =>
      cases h
      dsimp only
      have hcount : ((exponent : ℤ) - 150 + 149).toNat * 2 ^ 23 + (2 ^ 23 + mantissa) = n := by omega
      exact .inr ⟨⟨by omega, by omega, by omega, .inl (by omega)⟩, by omega, by rwa [hcount]⟩

/-- The literal of a float without a sign is the notation of its shortest decimal. -/
theorem literal_eq {d : Dyadic} (h : x.toExtended = .finite false d) :
    x.literal.toList = (d.shortest .single .up).numeral := by
  have htext : x.text = (d.shortest .single .up).positional := by
    rw [text, h]
    exact String.empty_append
  have hfinite : x.isFinite = true := by rw [isFinite, h]; rfl
  rw [literal, htext, hfinite, Decimal.numeral]
  simp only [Bool.not_true, Bool.or_false]
  split
  · rfl
  · rw [String.toList_append]
    rfl

/-- **The literal of a float without a sign** has digits on both sides of a point, and they denote the
    float. -/
theorem exists_literal {d : Dyadic} (h : x.toExtended = .finite false d) :
    ∃ whole fraction, x.literal.toList = whole ++ '.' :: fraction ∧ whole ≠ [] ∧ fraction ≠ [] ∧
      (∀ c ∈ whole, c.isDigit) ∧ (∀ c ∈ fraction, c.isDigit) ∧
        ofDecimal false (.ofDigits whole fraction) = x := by
  obtain ⟨whole, fraction, hsplits⟩ := (d.shortest .single .up).exists_numeral
  have hvalue := hsplits.value_eq
  refine ⟨whole, fraction, (literal_eq h).trans hsplits.text, hsplits.whole_ne, hsplits.fraction_ne,
    hsplits.whole_digits, hsplits.fraction_digits, ?_⟩
  rcases stored_of_toExtended h with ⟨hx, hzero⟩ | ⟨hm, hbound, hx⟩
  · rw [Dyadic.shortest, if_pos hzero, Decimal.value, Decimal.value, Nat.cast_zero, zero_mul,
      mul_eq_zero] at hvalue
    have hcoefficient := Nat.cast_eq_zero.mp (hvalue.resolve_right (zpow_ne_zero _ (by norm_num)))
    rw [ofDecimal, hcoefficient, Nat.zero_mul, ofRatio, if_pos rfl, hx]
  · have hnear := Dyadic.near_shortest .up hm
    rw [← hvalue] at hnear
    rw [ofDecimal_of_near hm hnear hbound, ← hx]

end Binary32

end Yini
