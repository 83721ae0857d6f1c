import Yini.Proofs.Dyna.Integers
import Yini.Proofs.Grammar.ValueText

/-!
Which numerals are accepted.

Digits alone are read as an integer, if it is no greater than the greatest one, and digits behind a minus
sign if their negation is no less than the least one; otherwise the numeral is refused.  Digits with a
point between them are always accepted: a number beyond the greatest float is read as an infinite one
(`numerals_accepted`).

What is shown of a numeral holds wherever a factor may stand, and so of a text that is nothing else
(`expression_of_factor`).
-/

namespace Yini

namespace Grammar

variable {k : Scene} {p q : Parser} {w w' : Word} {ws rest : List Word} {v : Value} {digits : String}
  {whole fraction text : List Char} {n : Nat}

/-! ## Numerals where they stand -/

/-- A numeral without a sign is read as a number. -/
theorem factor_number (hw : w.token = .number digits) (hp : p.Faces k (w :: rest)) :
    factor (n + 1) p = number digits p := by
  rw [factor, sees_bind hp, front_cons, hw, if_neg (by simp), primary_eq, peek_bind hp, front_cons, hw]
  rfl

/-- A numeral behind a minus sign is read as the negation of a number, unless it is the least integer. -/
theorem factor_minus (hw : w.token = .mark .minus) (hw' : w'.token = .number digits)
    (hp : p.Faces k (w :: w' :: rest)) : factor (n + 2) p =
      if isLeastNegated digits then .ok (.atom (.int Int32.minValue) (p.current.span p.file)) p.advance.advance
      else (number digits >>= fun v => pure (.neg v (p.current.span p.file))) p.advance := by
  rw [factor, sees_bind hp, front_cons, hw, if_pos (by simp), here_bind, bump_bind, peek_bind hp.advance,
    front_cons, hw']
  dsimp only
  split
  · rfl
  · cases hnumber : number digits p.advance with
    | ok v q =>
      rw [bind_of_ok hnumber, bind_of_ok ((factor_number hw' hp.advance).trans hnumber)]
    | error fault q =>
      rw [bind_eq_error.mpr (.inl hnumber),
        bind_eq_error.mpr (.inl ((factor_number hw' hp.advance).trans hnumber))]

/-- A numeral that denotes a number is read as that number. -/
theorem number_of_some {a : Atom} (ha : numberOf? digits = some a) :
    number digits p = .ok (.atom a (p.current.span p.file)) p.advance := by
  rw [number, ha]
  rfl

/-- A numeral that denotes no number is refused where it stands. -/
theorem number_of_none (hnone : numberOf? digits = none) : number digits p =
    .error (.parse (.numberRange digits) p.current.token.describe (p.current.span p.file)) p := by
  rw [number, hnone]
  rfl

/-! ## Numerals that stand alone -/

/-- A factor with nothing behind it is an expression. -/
theorem expressionOf_of_ok {g : Grammar Value} (h : g p = .ok v q) (hq : q.Faces k []) :
    expressionOf g p = .ok v q := by
  have hterm : chain factorOp? g p = .ok v q := by
    rw [chain, bind_of_ok h]
    exact chainFrom_stop hq rfl q.left v
  rw [expressionOf, chain, bind_of_ok hterm]
  exact chainFrom_stop hq rfl q.left v

/-- Where no factor is read, no expression is. -/
theorem expressionOf_of_error {g : Grammar Value} {fault : Fault} (h : g p = .error fault q) :
    expressionOf g p = .error fault q :=
  bind_eq_error.mpr (.inl (bind_eq_error.mpr (.inl h)))

/-- **A text is read as the factor that it begins with**, if there is nothing else in it. -/
theorem expression_of_factor (hshown : Shown text ws) : ∃ p, p.Faces ⟨text, [], false⟩ ws ∧
    (∀ v q, factor maxNesting p = .ok v q → q.Faces ⟨text, [], false⟩ [] →
      Value.ofSource (String.ofList text) = .ok v) ∧
    ∀ fault q, factor maxNesting p = .error fault q → Value.ofSource (String.ofList text) = .error fault := by
  obtain ⟨p, hp, hfaces⟩ := hshown.ofSource none
  refine ⟨p, hfaces, fun v q hrun hq => ?_, fun fault q hrun => ?_⟩
  · exact Value.ofSource_of_ok hp (expressionOf_of_ok hrun hq) hq
  · exact Value.ofSource_of_error hp (expressionOf_of_error hrun)

/-! ## Accepted and refused -/

/-- **The text is read as such a value**, wherever a factor may stand and so many levels are left, and
    also alone. -/
structure Accepted (levels : Nat) (text : List Char) (P : Value → Prop) : Prop where
  inside : ∃ ws, Shown text ws ∧ ∀ {n k p rest}, p.Faces k (ws ++ rest) →
    ∃ v q, factor (n + levels) p = .ok v q ∧ q.Faces k rest ∧ P v
  alone : ∃ v, Value.ofSource (String.ofList text) = .ok v ∧ P v

/-- **The text is refused as a number out of range**, wherever a factor may stand and so many levels are
    left, and also alone. -/
structure OutOfRange (levels : Nat) (text : List Char) : Prop where
  inside : ∃ ws, Shown text ws ∧ ∀ {n k p rest}, p.Faces k (ws ++ rest) →
    ∃ fault q, factor (n + levels) p = .error fault q ∧ fault.code = 211
  alone : ∃ fault, Value.ofSource (String.ofList text) = .error fault ∧ fault.code = 211

variable {levels : Nat} {P : Value → Prop}

/-- A factor that is accepted wherever it may stand is accepted alone. -/
theorem accepted_of_inside (hlevels : levels ≤ maxNesting) (hshown : Shown text ws)
    (h : ∀ {n k p rest}, p.Faces k (ws ++ rest) →
      ∃ v q, factor (n + levels) p = .ok v q ∧ q.Faces k rest ∧ P v) :
    Accepted levels text P := by
  obtain ⟨n, hn⟩ := Nat.exists_eq_add_of_le' hlevels
  obtain ⟨p, hp, halone, -⟩ := expression_of_factor hshown
  rw [← List.append_nil ws] at hp
  obtain ⟨v, q, hrun, hq, hv⟩ := h (n := n) hp
  exact ⟨⟨ws, hshown, h⟩, v, halone v q (by rwa [hn]) hq, hv⟩

/-- A factor that is refused wherever it may stand is refused alone. -/
theorem outOfRange_of_inside (hlevels : levels ≤ maxNesting) (hshown : Shown text ws)
    (h : ∀ {n k p rest}, p.Faces k (ws ++ rest) →
      ∃ fault q, factor (n + levels) p = .error fault q ∧ fault.code = 211) :
    OutOfRange levels text := by
  obtain ⟨n, hn⟩ := Nat.exists_eq_add_of_le' hlevels
  obtain ⟨p, hp, -, halone⟩ := expression_of_factor hshown
  rw [← List.append_nil ws] at hp
  obtain ⟨fault, q, hrun, hcode⟩ := h (n := n) hp
  exact ⟨⟨ws, hshown, h⟩, fault, halone fault q (by rwa [hn]), hcode⟩

/-- The value folds to the integer, whatever references mean. -/
def FoldsTo (n : Int) (v : Value) : Prop :=
  ∃ m : Int32, m.toInt = n ∧ ∀ lookup, v.resolve lookup = pure (.atom (.int m) v.span)

/-- A negated integer folds to its negation, unless it is the least one. -/
theorem foldsTo_neg {m : Int32} (hm : m ≠ Int32.minValue) (span span' : Span) :
    FoldsTo (-m.toInt) (.neg (.atom (.int m) span') span) := by
  have hlow := m.le_toInt
  have hhigh := m.toInt_lt
  have hleast : m.toInt ≠ -2147483648 := fun h => hm (Int32.toInt_inj.mp h)
  obtain ⟨m', hm', hfits⟩ := int32?_of_fits (n := -m.toInt) ⟨by omega, by omega⟩
  have hopposite : (Value.atom (.int m) span').opposite span = .ok (.atom (.int m') span) := by
    rw [Value.opposite, hfits]
  refine ⟨m', hm', fun lookup => ?_⟩
  rw [((Value.settled_int m span').neg span).folds]
  exact congrArg ofExcept hopposite

/-- The value is the float. -/
def IsFloat (x : Binary32) (v : Value) : Prop := ∃ span, v = .atom (.float x) span

section Digits

variable (hwhole : whole ≠ []) (hdigits : ∀ c ∈ whole, c.isDigit)

include hwhole hdigits

/-- Digits up to the greatest integer are accepted, and are that integer. -/
theorem accepted_digits (hn : Nat.ofDigitChars 10 whole 0 ≤ maxInt) :
    Accepted 1 whole (FoldsTo (Nat.ofDigitChars 10 whole 0)) := by
  refine accepted_of_inside (by decide) (shown_digits hwhole hdigits) fun {n k p rest} hp => ?_
  have hnumber : numberOf? (String.ofList whole) = _ := (numberOf?_digits hdigits).trans (if_pos hn)
  refine ⟨_, _, (factor_number rfl hp).trans (number_of_some hnumber), hp.advance, _, ?_, fun lookup => rfl⟩
  rw [maxInt] at hn
  exact Int32.toInt_ofNat_of_lt (by omega)

/-- Digits beyond the greatest integer are refused. -/
theorem outOfRange_digits (hn : maxInt < Nat.ofDigitChars 10 whole 0) : OutOfRange 1 whole := by
  refine outOfRange_of_inside (by decide) (shown_digits hwhole hdigits) fun {n k p rest} hp => ?_
  have hnumber : numberOf? (String.ofList whole) = none :=
    (numberOf?_digits hdigits).trans (if_neg (Nat.not_le.mpr hn))
  exact ⟨_, _, (factor_number rfl hp).trans (number_of_none hnumber), rfl⟩

/-- A minus sign in front of digits is a word of its own. -/
theorem shown_minus_digits : Shown ('-' :: whole)
    [Mark.minus.word, ⟨[], .number (String.ofList whole), whole⟩] :=
  (shown_digits hwhole hdigits).behind_mark (m := .minus) (by decide)

/-- Digits behind a minus sign are accepted down to the least integer. -/
theorem accepted_minus_digits (hn : Nat.ofDigitChars 10 whole 0 ≤ maxInt + 1) :
    Accepted 2 ('-' :: whole) (FoldsTo (-Nat.ofDigitChars 10 whole 0)) := by
  refine accepted_of_inside (by decide) (shown_minus_digits hwhole hdigits) fun {n k p rest} hp => ?_
  have hrun := factor_minus (n := n) rfl rfl hp
  rw [isLeastNegated_digits hdigits] at hrun
  by_cases hleast : Nat.ofDigitChars 10 whole 0 = maxInt + 1
  · rw [if_pos (beq_iff_eq.mpr hleast)] at hrun
    refine ⟨_, _, hrun, hp.advance.advance, Int32.minValue, ?_, fun lookup => rfl⟩
    rw [hleast]
    rfl
  · have hle : Nat.ofDigitChars 10 whole 0 ≤ maxInt := by omega
    have hnumber : numberOf? (String.ofList whole) = _ := (numberOf?_digits hdigits).trans (if_pos hle)
    rw [if_neg (mt beq_iff_eq.mp hleast), bind_of_ok (number_of_some hnumber)] at hrun
    have hvalue : (Int32.ofNat (Nat.ofDigitChars 10 whole 0)).toInt = Nat.ofDigitChars 10 whole 0 := by
      rw [maxInt] at hle
      exact Int32.toInt_ofNat_of_lt (by omega)
    have hfolds := foldsTo_neg (m := Int32.ofNat (Nat.ofDigitChars 10 whole 0)) (fun h => ?_)
      (p.current.span p.file) (p.advance.current.span p.advance.file)
    · rw [hvalue] at hfolds
      exact ⟨_, _, hrun, hp.advance.advance, hfolds⟩
    · rw [h] at hvalue
      exact absurd (hvalue.symm ▸ Int.natCast_nonneg _) (by decide)

/-- Digits behind a minus sign are refused below the least integer. -/
theorem outOfRange_minus_digits (hn : maxInt + 1 < Nat.ofDigitChars 10 whole 0) :
    OutOfRange 2 ('-' :: whole) := by
  refine outOfRange_of_inside (by decide) (shown_minus_digits hwhole hdigits) fun {n k p rest} hp => ?_
  have hrun := factor_minus (n := n) rfl rfl hp
  have hnumber : numberOf? (String.ofList whole) = none :=
    (numberOf?_digits hdigits).trans (if_neg (by omega))
  rw [isLeastNegated_digits hdigits, if_neg (mt beq_iff_eq.mp (by omega)),
    bind_eq_error.mpr (.inl (number_of_none hnumber))] at hrun
  exact ⟨_, _, hrun, rfl⟩

/-- Digits with a point between them are accepted, and are the float that they are rounded to. -/
theorem accepted_decimal (hfraction : fraction ≠ []) (hfractions : ∀ c ∈ fraction, c.isDigit) :
    Accepted 1 (whole ++ '.' :: fraction) (IsFloat (.ofDecimal false (.ofDigits whole fraction))) := by
  refine accepted_of_inside (by decide) (shown_decimal hwhole hfraction hdigits hfractions)
    fun {n k p rest} hp => ?_
  exact ⟨_, _, (factor_number rfl hp).trans (number_of_some (numberOf?_decimal hdigits)), hp.advance, _, rfl⟩

end Digits

/-- **Integers are accepted exactly if they fit, and floats always.**  Digits alone are read as an integer
    if it is at most 2147483647, and behind a minus sign they fold to its negation if it is at most
    2147483648; otherwise they are refused as out of range.  Digits with a point between them are read as a
    float that is off by a half of its last place at most, if the number is below the middle between the
    greatest float and the power of two above it; from there on the float is infinite. -/
theorem numerals_accepted (hwhole : whole ≠ []) (hfraction : fraction ≠ []) (hdigits : ∀ c ∈ whole, c.isDigit)
    (hfractions : ∀ c ∈ fraction, c.isDigit) :
    (Nat.ofDigitChars 10 whole 0 ≤ 2147483647 → Accepted 1 whole (FoldsTo (Nat.ofDigitChars 10 whole 0))) ∧
    (2147483647 < Nat.ofDigitChars 10 whole 0 → OutOfRange 1 whole) ∧
    (Nat.ofDigitChars 10 whole 0 ≤ 2147483648 →
      Accepted 2 ('-' :: whole) (FoldsTo (-Nat.ofDigitChars 10 whole 0))) ∧
    (2147483648 < Nat.ofDigitChars 10 whole 0 → OutOfRange 2 ('-' :: whole)) ∧
    ∃ x : Binary32, Accepted 1 (whole ++ '.' :: fraction) (IsFloat x) ∧
      ((Decimal.ofDigits whole fraction).value < 2 ^ 128 - 2 ^ 103 →
        x.Approximates (Decimal.ofDigits whole fraction).value) ∧
      (2 ^ 128 - 2 ^ 103 ≤ (Decimal.ofDigits whole fraction).value → x = .infinity false) := by
  refine ⟨accepted_digits hwhole hdigits, outOfRange_digits hwhole hdigits, accepted_minus_digits hwhole hdigits,
    outOfRange_minus_digits hwhole hdigits, _, accepted_decimal hwhole hdigits hfraction hfractions, ?_, ?_⟩
  · intro hless
    exact ((Binary32.ofDecimal_cases _).resolve_left fun h => absurd hless (not_lt.mpr h.1)).2
  · intro hle
    exact ((Binary32.ofDecimal_cases _).resolve_right fun h => absurd h.1 (not_lt.mpr hle)).2

/-- The least integer is accepted with its sign only, and as a float in any case. -/
theorem numerals_accepted_least : OutOfRange 1 "2147483648".toList ∧
    Accepted 2 "-2147483648".toList (FoldsTo (-2147483648)) ∧
    ∃ x : Binary32, x.Approximates 2147483648 ∧ Accepted 1 "2147483648.0".toList (IsFloat x) := by
  have hdigits : ∀ c ∈ "2147483648".toList, c.isDigit := List.all_eq_true.mp (by decide)
  have hzero : ∀ c ∈ ['0'], c.isDigit := List.all_eq_true.mp (by decide)
  have hvalue : (Decimal.ofDigits "2147483648".toList ['0']).value = 2147483648 := by
    have hcoefficient : (Decimal.ofDigits "2147483648".toList ['0']).coefficient = 21474836480 := by decide
    rw [Decimal.value, hcoefficient]
    norm_num [Decimal.ofDigits]
  obtain ⟨-, hrefused, hleast, -, x, hx, hnear, -⟩ :=
    numerals_accepted (by decide) (List.cons_ne_nil _ _) hdigits hzero
  rw [hvalue] at hnear
  exact ⟨hrefused (by decide), hleast (by decide), x, hnear (by norm_num), hx⟩

/-- **A number out of range is accepted** and read as an infinite float. -/
theorem infiniteNumeral_accepted : ∃ span, Value.ofSource "1000000000000000000000000000000000000000.0" =
      .ok (.atom (.float (.infinity false)) span) ∧ (Binary32.infinity false).isFinite = false ∧
    (2 : ℚ) ^ 128 - 2 ^ 103 ≤
      (Decimal.ofDigits "1000000000000000000000000000000000000000".toList ['0']).value := by
  have hdigits : ∀ c ∈ "1000000000000000000000000000000000000000".toList, c.isDigit :=
    List.all_eq_true.mp (by decide)
  have hzero : ∀ c ∈ ['0'], c.isDigit := List.all_eq_true.mp (by decide)
  have hlarge : Binary32.overflow ≤
      (Decimal.ofDigits "1000000000000000000000000000000000000000".toList ['0']).value := by
    have hcoefficient : (Decimal.ofDigits "1000000000000000000000000000000000000000".toList ['0']).coefficient =
        10 ^ 40 := by decide
    rw [Decimal.value, hcoefficient]
    norm_num [Decimal.ofDigits, Binary32.overflow]
  obtain ⟨v, hv, span, rfl⟩ := (accepted_decimal (by decide) hdigits (List.cons_ne_nil _ _) hzero).alone
  rw [((Binary32.ofDecimal_cases _).resolve_right fun h => absurd h.1 (not_lt.mpr hlarge)).2] at hv
  exact ⟨span, hv, by decide, hlarge⟩

end Grammar

end Yini
