import Yini.Proofs.Dyna.Capacity
import Yini.Resolve.Document

/-!
Integer arithmetic is exact or refused, whichever way an expression is evaluated.

`Value.integer?` is the mathematical value of an expression of integers, worked out without any bounds.  Three
machines come to it: folding while a document is resolved, the tree walk, and the program.

1. *One operation* (`combine_exact`, `opposite_exact`).  On integers of 32 bits the result is the exact one
   if it fits, and a fault otherwise.
2. *One node* (`Settled.binary`, `Settled.neg`).  Once its operands are settled, so is the node: both walks
   come to the same end, which is the exact value if no node below is in the way (`Value.Sound`).
3. *Programs.*  Lowering is correct, so the program comes to the same end if there is one.

There are two exceptions.  A remainder is computed along with its quotient, so `-2147483648 % -1` is refused
although the remainder is zero; and a program has room for 65536 literals only.
-/

namespace Yini

/-! ## One operation -/

/-- The integers of 32 bits. -/
def Fits32 (n : Int) : Prop := -2147483648 ≤ n ∧ n ≤ 2147483647

instance (n : Int) : Decidable (Fits32 n) := inferInstanceAs (Decidable (_ ∧ _))

/-- The exact result of an operation on integers, unless it divides by zero.  A quotient is cut off towards
    zero. -/
def BinaryOp.result? (op : BinaryOp) (l r : Int) : Option Int :=
  match op with
  | add => some (l + r)
  | sub => some (l - r)
  | mul => some (l * r)
  | div => if r = 0 then none else some (l.tdiv r)
  | mod => if r = 0 then none else some (l - r * l.tdiv r)

/-- The only remainder of integers of 32 bits whose quotient has more bits. -/
def BinaryOp.IsLeastRemainder (op : BinaryOp) (l r : Int) : Prop :=
  op = .mod ∧ l = -2147483648 ∧ r = -1

instance (op : BinaryOp) (l r : Int) : Decidable (op.IsLeastRemainder l r) :=
  inferInstanceAs (Decidable (_ ∧ _))

/-- **Exact or refused**: the exact value at the place, if nothing is in the way, and otherwise a fault that
    tells of a zero divisor or of a result that does not fit. -/
def ExactOrRefused (clear : Prop) (exact : Option Int) (span : Span) (x : Except Fault Value) : Prop :=
  (clear ∧ ∃ n : Int32, exact = some n.toInt ∧ x = .ok (.atom (.int n) span)) ∨
    (¬clear ∧ ∃ f, x = .error f ∧ (f.code = 502 ∨ f.code = 503))

theorem ExactOrRefused.congr {p q : Prop} {e e' : Option Int} {span : Span} {x : Except Fault Value}
    (h : ExactOrRefused p e span x) (hpq : p ↔ q) (he : e = e') : ExactOrRefused q e' span x := by
  rwa [← propext hpq, ← he]

section Operations

variable {n l r : Int} {op : BinaryOp}

theorem fits32_toInt (n : Int32) : Fits32 n.toInt := ⟨n.le_toInt, Int.lt_add_one_iff.mp n.toInt_lt⟩

/-- A number that fits is an integer of 32 bits. -/
theorem int32?_of_fits (h : Fits32 n) : ∃ m : Int32, m.toInt = n ∧ int32? n = some m :=
  ⟨Int32.ofInt n, Int32.toInt_ofInt_of_le h.1 (Int.lt_add_one_iff.mpr h.2), if_pos h⟩

theorem int32?_of_not_fits (h : ¬Fits32 n) : int32? n = none := if_neg h

/-- A quotient is no larger than its dividend, so only one can be too large: that of the least integer,
    which has no opposite. -/
theorem fits32_tdiv_iff (hl : Fits32 l) : Fits32 (l.tdiv r) ↔ ¬(l = -2147483648 ∧ r = -1) := by
  constructor
  · rintro hfits ⟨rfl, rfl⟩
    exact absurd hfits (by decide)
  · intro hleast
    unfold Fits32 at hl ⊢
    rcases Nat.lt_or_ge 1 r.natAbs with hlarge | hsmall
    · have hquotient : (l.tdiv r).natAbs ≤ l.natAbs / 2 := by
        rw [Int.natAbs_tdiv]
        exact Nat.div_le_div_left hlarge Nat.two_pos
      omega
    · obtain rfl | rfl | rfl : r = 0 ∨ r = 1 ∨ r = -1 := by omega
      · simp
      · simpa using hl
      · rw [Int.tdiv_neg, Int.tdiv_one]
        omega

/-- The result on integers of 32 bits, if no divisor is zero. -/
theorem int?_eq (op : BinaryOp) (a b : Int32) (h : op.divides = true → b.toInt ≠ 0) :
    ∃ m, op.result? a.toInt b.toInt = some m ∧
      op.int? a b = if op.IsLeastRemainder a.toInt b.toInt then none else int32? m := by
  have ha := fits32_toInt a
  cases op with
  | add => exact ⟨_, rfl, rfl⟩
  | sub => exact ⟨_, rfl, rfl⟩
  | mul => exact ⟨_, rfl, rfl⟩
  | div => exact ⟨_, if_neg (h rfl), rfl⟩
  | mod =>
    -- the quotient is worked out first, and the remainder only if that fits
    refine ⟨_, if_neg (h rfl), ?_⟩
    rw [← Int.tmod_def]
    show (int32? (a.toInt.tdiv b.toInt)).bind (fun _ => int32? (a.toInt.tmod b.toInt)) = _
    by_cases hleast : BinaryOp.mod.IsLeastRemainder a.toInt b.toInt
    · rw [if_pos hleast, int32?_of_not_fits fun hfits => (fits32_tdiv_iff ha).mp hfits hleast.2]
      rfl
    · obtain ⟨q, -, hq⟩ := int32?_of_fits ((fits32_tdiv_iff ha).mpr fun hr => hleast ⟨rfl, hr⟩)
      rw [if_neg hleast, hq]
      rfl

/-- An operation on two integers. -/
theorem combine_int (a b : Int32) (op : BinaryOp) (s t span : Span) :
    Value.combine (.atom (.int a) s) op (.atom (.int b) t) span =
      if op.divides && b == 0 then .error (.evaluation .zeroDivisor (some span))
      else match op.int? a b with
        | some n => .ok (.atom (.int n) span)
        | none => .error (.evaluation (.overflow a op b) (some span)) := rfl

/-- There is no quotient by zero, and no remainder. -/
theorem result?_eq_none (hop : op.divides = true) (l : Int) : op.result? l 0 = none := by
  cases op with
  | div => rfl
  | mod => rfl
  | add => cases hop
  | sub => cases hop
  | mul => cases hop

/-- **An operation on integers is exact or refused.** -/
theorem combine_exact (op : BinaryOp) (a b : Int32) (s t span : Span) :
    ExactOrRefused
      ((∃ m, op.result? a.toInt b.toInt = some m ∧ Fits32 m) ∧ ¬op.IsLeastRemainder a.toInt b.toInt)
      (op.result? a.toInt b.toInt) span (Value.combine (.atom (.int a) s) op (.atom (.int b) t) span) := by
  rw [combine_int]
  by_cases hzero : op.divides = true ∧ b = 0
  · obtain ⟨hop, rfl⟩ := hzero
    have hnone : op.result? a.toInt (0 : Int32).toInt = none := result?_eq_none hop _
    rw [if_pos (by rw [hop]; rfl), hnone]
    refine .inr ⟨?_, _, rfl, .inl rfl⟩
    rintro ⟨⟨m, hm, -⟩, -⟩
    cases hm
  · obtain ⟨m, hm, hint⟩ := int?_eq op a b fun hop hb => hzero ⟨hop, Int32.toInt_inj.mp hb⟩
    rw [if_neg (by simpa using hzero), hm, hint]
    by_cases hleast : op.IsLeastRemainder a.toInt b.toInt
    · rw [if_pos hleast]
      exact .inr ⟨fun h => h.2 hleast, _, rfl, .inr rfl⟩
    · rw [if_neg hleast]
      by_cases hfits : Fits32 m
      · obtain ⟨n, rfl, hn⟩ := int32?_of_fits hfits
        rw [hn]
        exact .inl ⟨⟨⟨_, rfl, hfits⟩, hleast⟩, n, rfl, rfl⟩
      · rw [int32?_of_not_fits hfits]
        refine .inr ⟨?_, _, rfl, .inr rfl⟩
        rintro ⟨⟨m', hm', hfits'⟩, -⟩
        cases hm'
        exact hfits hfits'

/-- **A minus sign is exact or refused.** -/
theorem opposite_exact (a : Int32) (s span : Span) :
    ExactOrRefused (Fits32 (-a.toInt)) (some (-a.toInt)) span
      (Value.opposite (.atom (.int a) s) span) := by
  unfold Value.opposite
  dsimp only
  by_cases hfits : Fits32 (-a.toInt)
  · obtain ⟨n, hn, hint⟩ := int32?_of_fits hfits
    rw [hint, ← hn]
    exact .inl ⟨hn ▸ hfits, n, rfl, rfl⟩
  · rw [int32?_of_not_fits hfits]
    exact .inr ⟨hfits, _, rfl, .inr rfl⟩

end Operations

/-! ## Expressions -/

namespace Value

/-- An expression of integer literals. -/
inductive Integral : Value → Prop
  | int (n : Int32) (span : Span) : Integral (.atom (.int n) span)
  | binary {l r : Value} (op : BinaryOp) (span : Span) (hl : Integral l) (hr : Integral r) :
      Integral (.binary l op r span)
  | neg {v : Value} (span : Span) (h : Integral v) : Integral (.neg v span)

/-- The exact value of an expression of integers, unless a divisor in it is zero. -/
def integer? : Value → Option Int
  | atom (.int n) _ => some n.toInt
  | binary l op r _ => (integer? l).bind fun a => (integer? r).bind fun b => op.result? a b
  | neg v _ => (integer? v).map (- ·)
  | _ => none

/-- An expression and the expressions in it, operands before their operations. -/
def parts : Value → List Value
  | binary l op r span => parts l ++ parts r ++ [binary l op r span]
  | neg v span => parts v ++ [neg v span]
  | v => [v]

/-- **No divisor is zero and the exact value of every node fits** 32 bits. -/
def ExactFits (v : Value) : Prop := ∀ u ∈ v.parts, ∃ n, u.integer? = some n ∧ Fits32 n

instance (v : Value) : Decidable v.ExactFits :=
  inferInstanceAs (Decidable (∀ u ∈ v.parts, ∃ n ∈ u.integer?, Fits32 n))

/-- A remainder of the least integer by -1. -/
def IsLeastRemainder : Value → Prop
  | binary l op r _ => ∃ a ∈ l.integer?, ∃ b ∈ r.integer?, op.IsLeastRemainder a b
  | _ => False

instance : DecidablePred IsLeastRemainder
  | binary l op r _ => inferInstanceAs (Decidable (∃ a ∈ l.integer?, ∃ b ∈ r.integer?, op.IsLeastRemainder a b))
  | atom .. => inferInstanceAs (Decidable False)
  | sequence .. => inferInstanceAs (Decidable False)
  | record .. => inferInstanceAs (Decidable False)
  | neg .. => inferInstanceAs (Decidable False)
  | rule .. => inferInstanceAs (Decidable False)

/-- **No node is in the way.** -/
def Sound (v : Value) : Prop :=
  ∀ u ∈ v.parts, (∃ n, u.integer? = some n ∧ Fits32 n) ∧ ¬u.IsLeastRemainder

section Sound

variable {v l r : Value} {op : BinaryOp} {span : Span}

/-- An expression is sound if all numbers in it fit and it has no remainder that is refused for its
    quotient. -/
theorem sound_iff : v.Sound ↔ v.ExactFits ∧ ∀ u ∈ v.parts, ¬u.IsLeastRemainder := forall₂_and

theorem sound_int (n : Int32) (span : Span) : Sound (atom (.int n) span) :=
  List.forall_mem_singleton.mpr ⟨⟨_, rfl, fits32_toInt n⟩, id⟩

/-- An operation is sound if its operands are, its value fits, and it is no such remainder. -/
theorem sound_binary_iff : Sound (binary l op r span) ↔ (Sound l ∧ Sound r) ∧
    (∃ n, (binary l op r span).integer? = some n ∧ Fits32 n) ∧ ¬(binary l op r span).IsLeastRemainder := by
  rw [Sound, parts, List.forall_mem_append, List.forall_mem_append, List.forall_mem_singleton]
  rfl

/-- A negation is sound if its operand is and its value fits. -/
theorem sound_neg_iff : Sound (neg v span) ↔ Sound v ∧ ∃ n, (neg v span).integer? = some n ∧ Fits32 n := by
  rw [Sound, parts, List.forall_mem_append, List.forall_mem_singleton]
  exact and_congr_right' (and_iff_left id)

end Sound

/-! ## Both walks -/

/-- **Where an expression of integers comes to**: folding and the tree walk end in the same way, and that
    is exact or refused. -/
structure Settled (v : Value) (x : Except Fault Value) : Prop where
  folds : ∀ lookup, v.resolve lookup = ofExcept x
  walks : ∀ c, v.evaluate c = x
  answer : ExactOrRefused v.Sound v.integer? v.span x

section Settled

variable {v l r : Value} {x y : Except Fault Value}

/-- Folding ends an operation in the same way as the operation itself. -/
theorem fold_eq (x : Except Fault Value) :
    (match x with
      | .ok v => pure v
      | .error fault => throw fault : Resolve Value) = ofExcept x := by
  cases x <;> rfl

theorem settled_int (n : Int32) (span : Span) :
    Settled (atom (.int n) span) (.ok (atom (.int n) span)) where
  folds _ := rfl
  walks _ := rfl
  answer := .inl ⟨sound_int n span, n, rfl, rfl⟩

/-- **Once both operands are settled, so is the operation.** -/
theorem Settled.binary (hl : Settled l x) (hr : Settled r y) (op : BinaryOp) (span : Span) :
    Settled (.binary l op r span) (x >>= fun a => y >>= fun b => a.combine op b span) where
  folds lookup := by
    rw [resolve, hl.folds, hr.folds]
    cases x with
    | error => rfl
    | ok a =>
      cases y with
      | error => rfl
      | ok b => exact fold_eq (a.combine op b span)
  walks c := by rw [evaluate, hl.walks, hr.walks]
  answer := by
    -- a fault of an operand is the fault of the whole, the one on the left first
    rcases hl.answer with ⟨hsound, a, ha, rfl⟩ | ⟨hsound, f, rfl, hf⟩
    · rcases hr.answer with ⟨hsound', b, hb, rfl⟩ | ⟨hsound', f, rfl, hf⟩
      · have hexact : (Value.binary l op r span).integer? = op.result? a.toInt b.toInt := by
          rw [integer?, ha, hb]
          rfl
        have hleast : (Value.binary l op r span).IsLeastRemainder ↔
            op.IsLeastRemainder a.toInt b.toInt := by
          rw [IsLeastRemainder, ha, hb]
          simp
        refine (combine_exact op a b l.span r.span span).congr ?_ hexact.symm
        rw [sound_binary_iff, hleast, hexact]
        exact (and_iff_right ⟨hsound, hsound'⟩).symm
      · exact .inr ⟨fun h => hsound' (sound_binary_iff.mp h).1.2, f, rfl, hf⟩
    · exact .inr ⟨fun h => hsound (sound_binary_iff.mp h).1.1, f, rfl, hf⟩

/-- **Once its operand is settled, so is a minus sign.** -/
theorem Settled.neg (h : Settled v x) (span : Span) :
    Settled (.neg v span) (x >>= fun a => a.opposite span) where
  folds lookup := by
    rw [resolve, h.folds]
    cases x with
    | error => rfl
    | ok a => exact fold_eq (a.opposite span)
  walks c := by rw [evaluate, h.walks]
  answer := by
    rcases h.answer with ⟨hsound, a, ha, rfl⟩ | ⟨hsound, f, rfl, hf⟩
    · have hexact : (Value.neg v span).integer? = some (-a.toInt) := by
        rw [integer?, ha]
        rfl
      refine (opposite_exact a v.span span).congr ?_ hexact.symm
      rw [sound_neg_iff, hexact]
      simpa using fun _ => hsound
    · exact .inr ⟨fun h => hsound (sound_neg_iff.mp h).1, f, rfl, hf⟩

/-- Every expression of integers is settled. -/
theorem Integral.settled (hv : v.Integral) : ∃ x, Settled v x := by
  induction hv with
  | int n span => exact ⟨_, settled_int n span⟩
  | binary op span _ _ ihl ihr =>
    obtain ⟨x, hx⟩ := ihl
    obtain ⟨y, hy⟩ := ihr
    exact ⟨_, hx.binary hy op span⟩
  | neg span _ ih =>
    obtain ⟨x, hx⟩ := ih
    exact ⟨_, hx.neg span⟩

end Settled

/-! ## All three ways -/

/-- Expressions of integers are legible. -/
theorem Integral.legible {v : Value} (hv : v.Integral) : v.Legible false := by
  induction hv with
  | int n span => exact .atom nofun
  | binary _ _ _ _ ihl ihr => exact .binary ihl ihr
  | neg _ _ ih => exact .neg ih

/-- There is nothing wide in an expression of integers. -/
theorem Integral.width_eq_zero {v : Value} (hv : v.Integral) : v.width = 0 := by
  induction hv with
  | int n span => rfl
  | binary _ _ _ _ ihl ihr => rw [width, ihl, ihr]; rfl
  | neg _ _ ih => exact ih

/-- Of an expression of integers only the constants can be too many. -/
theorem Integral.fits_iff {v : Value} (hv : v.Integral) : v.Fits ↔ v.constants ≤ 65536 :=
  ⟨Fits.constants, fun h => ⟨h, hv.width_eq_zero.trans_le (Nat.zero_le _)⟩⟩

/-- **Integer arithmetic is exact or refused, in the same way everywhere.**  An expression of integers
    comes to one end: folded into a document, walked as a tree, and run as a program if it has no more than
    65536 literals.  If no divisor is zero, the exact value of every node fits 32 bits and no remainder of
    the least integer by -1 is in it, that is its exact value; otherwise it is a fault that tells of a
    zero divisor or an overflow. -/
theorem integers_exact {v : Value} (hv : v.Integral) : ∃ x : Except Fault Value,
    (∀ lookup, v.resolve lookup = ofExcept x) ∧ (∀ c, v.evaluate c = x) ∧
    (v.constants ≤ 65536 → ∃ p, Program.ofValue v = .ok p ∧ ∀ c, p.run c = x) ∧
    (65536 < v.constants → ∃ f, Program.ofValue v = .error f ∧ f.code = 507) ∧
    (v.ExactFits → (∀ u ∈ v.parts, ¬u.IsLeastRemainder) →
      ∃ n : Int32, v.integer? = some n.toInt ∧ x = .ok (.atom (.int n) v.span)) ∧
    (¬(v.ExactFits ∧ ∀ u ∈ v.parts, ¬u.IsLeastRemainder) →
      ∃ f, x = .error f ∧ (f.code = 502 ∨ f.code = 503)) := by
  obtain ⟨x, hfolds, hwalks, hanswer⟩ := hv.settled
  rw [ExactOrRefused, sound_iff] at hanswer
  refine ⟨x, hfolds, hwalks, fun hroom => ?_, fun hlarge => ?_, fun hfits hremainders => ?_, fun h => ?_⟩
  · rcases Program.ofValue_cases hv.legible with ⟨-, p, hp⟩ | ⟨hfits, -⟩
    · exact ⟨p, hp, fun c => (Program.run_eq_evaluate hv.legible.wellFormed hp c).trans (hwalks c)⟩
    · exact absurd (hv.fits_iff.mpr hroom) hfits
  · rcases Program.ofValue_cases hv.legible with ⟨hfits, -⟩ | ⟨-, f, ⟨span, rfl⟩, hf⟩
    · exact absurd (hv.fits_iff.mp hfits) (Nat.not_le_of_lt hlarge)
    · exact ⟨_, hf, rfl⟩
  · exact (hanswer.resolve_right fun h => h.1 ⟨hfits, hremainders⟩).2
  · exact (hanswer.resolve_left fun hsound => h hsound.1).2

/-- `-(7 / -2) * 3 - -2147483648 % 10` -/
def mixed : Value :=
  .binary
    (.binary (.neg (.binary (literal 7) .div (.neg (literal 2) .none) .none) .none) .mul (literal 3) .none)
    .sub (.binary (literal (-2147483648)) .mod (literal 10) .none) .none
where
  literal (n : Int32) : Value := .atom (.int n) .none

/-- An expression with quotients, a remainder and negations in it. -/
theorem integers_exact_mixed : mixed.Integral ∧ mixed.ExactFits ∧
    (∀ u ∈ mixed.parts, ¬u.IsLeastRemainder) ∧ ∃ p, Program.ofValue mixed = .ok p ∧
      ∀ c, p.run c = .ok (.atom (.int 17) .none) ∧ mixed.evaluate c = .ok (.atom (.int 17) .none) := by
  have hv : mixed.Integral :=
    .binary _ _ (.binary _ _ (.neg _ (.binary _ _ (.int _ _) (.neg _ (.int _ _)))) (.int _ _))
      (.binary _ _ (.int _ _) (.int _ _))
  have hfits : mixed.ExactFits := by decide
  have hremainders : ∀ u ∈ mixed.parts, ¬u.IsLeastRemainder := by decide
  obtain ⟨x, -, hwalks, hprogram, -, hexact, -⟩ := integers_exact hv
  obtain ⟨p, hp, hrun⟩ := hprogram (by decide)
  obtain ⟨n, hn, rfl⟩ := hexact hfits hremainders
  have hvalue : mixed.integer? = some 17 := by decide
  obtain rfl : n = 17 := Int32.toInt_inj.mp (Option.some.inj (hn.symm.trans hvalue))
  exact ⟨hv, hfits, hremainders, p, hp, fun c => ⟨hrun c, hwalks c⟩⟩

/-! ## The two exceptions -/

/-- `-2147483648 % -1` -/
def leastRemainder : Value :=
  .binary (.atom (.int (-2147483648)) .none) .mod (.neg (.atom (.int 1) .none) .none) .none

/-- The sum of `2 ^ n` ones. -/
def ones : Nat → Value
  | 0 => .atom (.int 1) .none
  | n + 1 => .binary (ones n) .add (ones n) .none

/-- The expression is one of integers. -/
theorem integral_ones (n : Nat) : (ones n).Integral := by
  induction n with
  | zero => exact .int 1 .none
  | succ n ih => exact .binary .add .none ih ih

/-- The number of constants doubles with each level. -/
theorem constants_ones (n : Nat) : (ones n).constants = Nat.pow 2 n := by
  induction n with
  | zero => rfl
  | succ n ih =>
    rw [ones, constants, ih]
    exact (Nat.mul_two _).symm

/-- The value doubles with each level. -/
theorem integer?_ones (n : Nat) : (ones n).integer? = some ((Nat.pow 2 n : Nat) : Int) := by
  induction n with
  | zero => rfl
  | succ n ih =>
    have hdouble : Nat.pow 2 (n + 1) = Nat.pow 2 n + Nat.pow 2 n := Nat.mul_two _
    rw [ones, integer?, ih, hdouble, Int.natCast_add]
    rfl

/-- Up to thirty levels all numbers fit. -/
theorem exactFits_ones {n : Nat} (hn : n ≤ 30) : (ones n).ExactFits := by
  have hfits {m : Nat} (hm : m ≤ 30) : ∃ k, (ones m).integer? = some k ∧ Fits32 k := by
    have hle : Nat.pow 2 m ≤ Nat.pow 2 30 := Nat.pow_le_pow_right Nat.two_pos hm
    have hpow : Nat.pow 2 30 = 1073741824 := rfl
    refine ⟨_, integer?_ones m, ?_⟩
    unfold Fits32
    omega
  induction n with
  | zero => exact List.forall_mem_singleton.mpr (hfits hn)
  | succ n ih =>
    have hones := ih (Nat.le_of_succ_le hn)
    rw [ExactFits, ones, parts, List.forall_mem_append, List.forall_mem_append, List.forall_mem_singleton]
    exact ⟨⟨hones, hones⟩, hfits hn⟩

/-- **What fits exactly may be refused.**  The remainder of the least integer by -1 is zero, and it is an
    overflow in all three ways.  The sum of 131072 ones fits too, and has no program. -/
theorem exactFits_refused :
    (leastRemainder.Integral ∧ leastRemainder.ExactFits ∧ leastRemainder.integer? = some 0 ∧
      ∃ f : Fault, f.code = 503 ∧ (∀ lookup, leastRemainder.resolve lookup = throw f) ∧
        (∀ c, leastRemainder.evaluate c = .error f) ∧
        ∃ p, Program.ofValue leastRemainder = .ok p ∧ ∀ c, p.run c = .error f) ∧
    (ones 17).Integral ∧ (ones 17).ExactFits ∧ (ones 17).integer? = some 131072 ∧
      ∃ f, Program.ofValue (ones 17) = .error f ∧ f.code = 507 := by
  refine ⟨⟨.binary _ _ (.int _ _) (.neg _ (.int _ _)), by decide, by decide, _, rfl, fun _ => rfl,
    fun _ => rfl, _, rfl, fun _ => rfl⟩, integral_ones 17, exactFits_ones (by decide), integer?_ones 17, ?_⟩
  rcases Program.ofValue_cases (integral_ones 17).legible with ⟨hfits, -⟩ | ⟨-, f, ⟨span, rfl⟩, hf⟩
  · have hconstants := hfits.constants
    rw [constants_ones] at hconstants
    exact absurd hconstants (by decide)
  · exact ⟨_, hf, rfl⟩

end Value

end Yini
