import Yini.Proofs.Number.ReadBack
import Yini.Proofs.Token.Printing

/-!
The text of a value is an expression of that value (`exists_words`).

Numerals have no sign, so a negative number is read back as a negated one; but for that, what the text
is an expression of is the value itself (`Value.spelled`, `spelled_eq_bare`).  The proof goes along
the value: its text is shown by words, and they are an expression; a term, if the value needs no
parentheses beside `*`; and a factor, if it needs none behind a minus sign (`Printed`).
-/

namespace Yini

/-! ## Signs -/

namespace Binary32

variable {x : Binary32}

instance (x : Binary32) : Decidable x.Unsigned := inferInstanceAs (Decidable (_ < _))

/-- A finite float is negative exactly if its sign is set. -/
theorem exists_toExtended (h : x.isFinite) :
    ∃ d, x.toExtended = .finite (decide ¬x.Unsigned) d := by
  have hsign : decide (¬x.Unsigned) = decide (Nat.pow 2 31 ≤ x.bits.toNat) :=
    decide_eq_decide.mpr Nat.not_lt
  rw [hsign]
  unfold isFinite toExtended at h
  unfold toExtended
  dsimp only at h ⊢
  split at h
  next => split at h <;> cases h
  next hexponent =>
    rw [if_neg hexponent]
    split
    · exact ⟨_, rfl⟩
    · exact ⟨_, rfl⟩

theorem neg_neg (x : Binary32) : x.neg.neg = x := by
  rw [neg, neg, UInt32.xor_assoc, UInt32.xor_self, UInt32.xor_zero]

/-- The pattern of a negative float, without its sign. -/
theorem toNat_neg (h : ¬x.Unsigned) : x.bits.toNat = x.neg.bits.toNat + 2 ^ 31 := by
  have hbits : x.neg.bits.toNat = x.bits.toNat ^^^ 2 ^ 31 := UInt32.toNat_xor _ _
  have hlt : x.bits.toNat < 2 ^ 32 := x.bits.toNat_lt
  have hge : 2 ^ 31 ≤ x.bits.toNat := Nat.le_of_not_lt h
  rw [hbits]
  generalize x.bits.toNat = n at hlt hge
  have hmod : (n ^^^ 2 ^ 31) % 2 ^ 31 = n % 2 ^ 31 := by
    rw [Nat.xor_mod_two_pow, Nat.mod_self, Nat.xor_zero]
  have hdiv : (n ^^^ 2 ^ 31) / 2 ^ 31 = 0 := by
    have hone : n / 2 ^ 31 = 1 := by omega
    rw [Nat.xor_div_two_pow, hone]
    rfl
  generalize n ^^^ 2 ^ 31 = m at hmod hdiv ⊢
  omega

/-- The opposite of a negative number has the same magnitude. -/
theorem toExtended_neg {d : Dyadic} (h : x.toExtended = .finite true d) :
    x.neg.toExtended = .finite false d := by
  have hsigned : ¬x.Unsigned := by
    intro hlt
    have hfinite : x.isFinite := by rw [isFinite, h]; rfl
    obtain ⟨d', hd'⟩ := exists_toExtended hfinite
    rw [h, decide_eq_false (not_not_intro hlt)] at hd'
    cases hd'
  have hbits := toNat_neg hsigned
  have hlt : x.bits.toNat < 2 ^ 32 := x.bits.toNat_lt
  unfold toExtended at h ⊢
  dsimp only at h ⊢
  simp only [Nat.pow_eq] at h ⊢
  rw [hbits] at h hlt
  generalize x.neg.bits.toNat = n at h hlt ⊢
  have hexponent : (n + 2 ^ 31) / 2 ^ 23 % 2 ^ 8 = n / 2 ^ 23 % 2 ^ 8 := by omega
  have hmantissa : (n + 2 ^ 31) % 2 ^ 23 = n % 2 ^ 23 := by omega
  rw [hexponent, hmantissa, decide_eq_true (Nat.le_add_left _ n)] at h
  rw [decide_eq_false (by omega)]
  generalize n / 2 ^ 23 % 2 ^ 8 = exponent at h ⊢
  generalize n % 2 ^ 23 = mantissa at h ⊢
  split at h
  next => split at h <;> cases h
  next hnone =>
    rw [if_neg hnone]
    split at h
    next hleast => cases h; exact if_pos hleast
    next hleast => cases h; exact if_neg hleast

/-- The literal of a negative float is that of its opposite behind a minus sign. -/
theorem literal_neg {d : Dyadic} (h : x.toExtended = .finite true d) :
    x.literal = "-" ++ x.neg.literal := by
  have hneg := toExtended_neg h
  have htext : x.text = "-" ++ x.neg.text := by
    rw [text, text, h, hneg]
    exact congrArg ("-" ++ ·) String.empty_append.symm
  have hpoint : x.text.toList.contains '.' = x.neg.text.toList.contains '.' := by
    rw [htext, String.toList_append]
    rfl
  have hfinite : x.isFinite = true := by rw [isFinite, h]; rfl
  have hfinite' : x.neg.isFinite = true := by rw [isFinite, hneg]; rfl
  rw [literal, literal, hpoint, hfinite, hfinite', htext]
  simp only [Bool.not_true, Bool.or_false]
  split
  · rfl
  · rw [String.append_assoc]

end Binary32

/-! ## What is read back -/

/-- The value that the text of an atom stands for: a negative number is read with a minus sign.  The
    least integer has no positive counterpart and is read as it is. -/
def Atom.spelled : Atom → Value
  | .int n =>
    if n.toInt < 0 ∧ n ≠ Int32.minValue then .neg (.atom (.int (Int32.ofNat n.toInt.natAbs)) .none) .none
    else .atom (.int n) .none
  | .float x => if x.Unsigned then .atom (.float x) .none else .neg (.atom (.float x.neg) .none) .none
  | a => .atom a .none

namespace Value

mutual

/-- The value that the text of a value stands for. -/
def spelled : Value → Value
  | atom a _ => a.spelled
  | sequence k items _ => sequence k (spelledItems items) .none
  | record k fields _ => record k (spelledFields fields) .none
  | binary l op r _ => binary (spelled l) op (spelled r) .none
  | neg v _ => neg (spelled v) .none
  | rule m d lo hi _ => rule m (spelledOption d) (spelledOption lo) (spelledOption hi) .none
termination_by structural v => v

/-- The values that the texts of a list stand for. -/
def spelledItems : List Value → List Value
  | [] => []
  | v :: vs => spelled v :: spelledItems vs
termination_by structural vs => vs

/-- The fields that the texts of fields stand for. -/
def spelledFields : List (String × Value) → List (String × Value)
  | [] => []
  | (k, v) :: fs => (k, spelled v) :: spelledFields fs
termination_by structural fs => fs

/-- The value that the text of a value that may be absent stands for. -/
def spelledOption : Option Value → Option Value
  | none => none
  | some v => some (spelled v)
termination_by structural o => o

end

/-- A list is spelled item by item. -/
theorem spelledItems_eq_map (vs : List Value) : spelledItems vs = vs.map spelled := by
  induction vs with
  | nil => rfl
  | cons v vs ih => rw [spelledItems, ih, List.map_cons]

/-- Fields are spelled value by value. -/
theorem spelledFields_eq_map (fs : Entries Value) :
    spelledFields fs = fs.map fun e => (e.1, e.2.spelled) := by
  induction fs with
  | nil => rfl
  | cons e fs ih => rw [spelledFields, ih, List.map_cons]

/-- What is spelled has no places. -/
theorem bare_spelled (v : Value) : v.spelled.bare = v.spelled := by
  induction v using induction with
  | atom a span =>
    rw [spelled]
    -- a number with a sign is spelled as a negation without a place, all others as they are
    unfold Atom.spelled
    split
    · split <;> rfl
    · split <;> rfl
    · rfl
  | sequence k items span ih =>
    rw [spelled, bare, spelledItems_eq_map, bareItems_eq_map, List.map_map]
    exact congrArg (sequence k · _) (List.map_congr_left ih)
  | record k fields span ih =>
    rw [spelled, bare, spelledFields_eq_map, bareFields_eq_map, List.map_map]
    exact congrArg (record k · _) (List.map_congr_left fun e he => congrArg (e.1, ·) (ih e he))
  | binary l op r span ihl ihr => rw [spelled, bare, ihl, ihr]
  | neg v span ih => rw [spelled, bare, ih]
  | rule m d lo hi span ihd ihlo ihhi =>
    have hoption : ∀ o : Option Value, (∀ v ∈ o, v.spelled.bare = v.spelled) →
        bareOption (spelledOption o) = spelledOption o := by
      intro o ho
      cases o with
      | none => rfl
      | some v => rw [spelledOption, bareOption, ho v rfl]
    rw [spelled, bare, hoption d ihd, hoption lo ihlo, hoption hi ihhi]

/-- **Where no number is negative, the value is read back as it is.** -/
theorem spelled_eq_bare {v : Value} (h : v.Legible true) : v.spelled = v.bare := by
  induction h with
  | @atom a span h =>
    cases a with
    | int n =>
      have hn : ¬(n.toInt < 0 ∧ n ≠ Int32.minValue) := fun ⟨hneg, hne⟩ => by
        rcases h rfl with hpos | hleast
        · omega
        · exact hne hleast
      exact if_neg hn
    | float x => exact if_pos (h rfl)
    | _ => rfl
  | sequence _ ih =>
    rw [spelled, bare, spelledItems_eq_map, bareItems_eq_map, List.map_congr_left ih]
  | record _ _ _ _ ih =>
    rw [spelled, bare, spelledFields_eq_map, bareFields_eq_map,
      List.map_congr_left fun e he => congrArg (e.1, ·) (ih e he)]
  | binary _ _ ihl ihr => rw [spelled, bare, ihl, ihr]
  | neg _ ih => rw [spelled, bare, ih]

end Value

namespace Grammar

variable {gap text : List Char} {ws : List Word} {v : Value} {d : Depth}

/-! ## Other gaps -/

theorem IsFactor.indent (h : IsFactor d ws v) (gap : List Char) : IsFactor d (indent gap ws) v := by
  obtain ⟨gap', hgap⟩ := exists_regap_of_indent gap ws
  rw [hgap]
  exact h.regap gap'

theorem IsTerm.indent (h : IsTerm d ws v) (gap : List Char) : IsTerm d (indent gap ws) v := by
  obtain ⟨gap', hgap⟩ := exists_regap_of_indent gap ws
  rw [hgap]
  exact h.regap gap'

/-- An expression stays one when it is indented. -/
theorem IsExpression.indent (h : IsExpression d ws v) (gap : List Char) :
    IsExpression d (indent gap ws) v := by
  obtain ⟨gap', hgap⟩ := exists_regap_of_indent gap ws
  rw [hgap]
  exact h.regap gap'

theorem Items.indent {vs : List Value} (h : Items d ws vs) (gap : List Char) :
    Items d (indent gap ws) vs := by
  cases h with
  | nil => exact .nil
  | last h => exact .last (h.indent gap)
  | cons h hcomma hrest =>
    rw [indent_append (ne_nil_of_opens h.opens)]
    exact .cons (h.indent gap) hcomma hrest

theorem Fields.indent {trailing trailing' : Bool} {fields : Entries Value}
    (h : Fields d trailing ws fields trailing') (gap : List Char) :
    Fields d trailing (indent gap ws) fields trailing' := by
  cases h with
  | nil => exact .nil _
  | last hname hcolon h => exact .last hname hcolon h
  | cons hname hcolon h hcomma hrest => exact .cons hname hcolon h hcomma hrest

/-! ## Texts of expressions -/

/-- The text is written in words that are an expression of the value. -/
def ExpressionText (text : List Char) (v : Value) : Prop :=
  ∃ ws, Shown text ws ∧ IsExpression none ws v

/-- The text is written in words that are a factor of the value, and it does not begin with the
    numeral that a minus sign would make the least integer. -/
def FactorText (text : List Char) (v : Value) : Prop :=
  ∃ ws, Shown text ws ∧ IsFactor none ws v ∧ isLeastNumeral (front ws) = false

/-- The text of a factor is the text of an expression. -/
theorem FactorText.expression (h : FactorText text v) : ExpressionText text v := by
  obtain ⟨ws, hshown, hfactor, -⟩ := h
  exact ⟨ws, hshown, hfactor.isExpression⟩

/-- The text of an expression between parentheses is the text of a factor. -/
theorem ExpressionText.group (h : ExpressionText text v) : FactorText ('(' :: (text ++ [')'])) v := by
  obtain ⟨ws, hshown, hexpression⟩ := h
  have hclosed : Shown (text ++ [')']) (ws ++ [Mark.closeParen.word]) :=
    hshown.before_mark (m := .closeParen) (by decide)
  exact ⟨Mark.openParen.word :: (ws ++ [Mark.closeParen.word]),
    hclosed.behind_mark (m := .openParen) (by decide), isFactor_group rfl hexpression rfl, rfl⟩

/-- A minus sign before the text of a factor makes the text of its opposite. -/
theorem FactorText.neg (h : FactorText text v) : FactorText ('-' :: text) (.neg v .none) := by
  obtain ⟨ws, hshown, hfactor, hleast⟩ := h
  exact ⟨Mark.minus.word :: ws, hshown.behind_mark (m := .minus) (by decide),
    isFactor_neg rfl hfactor hleast, rfl⟩

/-! ## Numbers -/

section Numerals

variable {whole fraction : List Char}

theorem ne_point_of_digits (hdigits : ∀ c ∈ whole, c.isDigit) : ∀ c ∈ whole, c ≠ '.' := by
  rintro c hc rfl
  exact absurd (hdigits '.' hc) (by decide)

theorem contains_point_digits (hdigits : ∀ c ∈ whole, c.isDigit) : whole.contains '.' = false :=
  Bool.eq_false_iff.mpr fun hmem => ne_point_of_digits hdigits '.' (List.contains_iff_mem.mp hmem) rfl

/-- Digits denote an integer, if that is not too large. -/
theorem numberOf?_digits (hdigits : ∀ c ∈ whole, c.isDigit) : numberOf? (String.ofList whole) =
    if Nat.ofDigitChars 10 whole 0 ≤ maxInt then some (.int (Int32.ofNat (Nat.ofDigitChars 10 whole 0)))
    else none := by
  rw [numberOf?, String.toList_ofList]
  dsimp only
  rw [contains_point_digits hdigits, if_neg Bool.false_ne_true]

/-- Digits denote the least integer without its sign exactly if they are one more than the greatest integer.
    -/
theorem isLeastNegated_digits (hdigits : ∀ c ∈ whole, c.isDigit) :
    isLeastNegated (String.ofList whole) = (Nat.ofDigitChars 10 whole 0 == maxInt + 1) := by
  rw [isLeastNegated, String.toList_ofList, contains_point_digits hdigits]
  rfl

/-- Digits on both sides of a point denote a float. -/
theorem numberOf?_decimal (hdigits : ∀ c ∈ whole, c.isDigit) :
    numberOf? (String.ofList (whole ++ '.' :: fraction)) =
      some (.float (.ofDecimal false (.ofDigits whole fraction))) := by
  have hpoint : (whole ++ '.' :: fraction).contains '.' = true := by simp
  have hne : ∀ c ∈ whole, (c != '.') = true := fun c hc => bne_iff_ne.mpr (ne_point_of_digits hdigits c hc)
  rw [numberOf?, String.toList_ofList]
  dsimp only
  rw [hpoint, if_pos rfl, Decimal.ofNumeral, List.takeWhile_append_of_pos hne,
    List.dropWhile_append_of_pos hne]
  simp

end Numerals

/-- The digits of a number up to the greatest integer are the text of that integer. -/
theorem factorText_digits {n : Nat} (h : n ≤ maxInt) :
    FactorText (Nat.toDigits 10 n) (.atom (.int (Int32.ofNat n)) .none) := by
  have hdigits : ∀ c ∈ Nat.toDigits 10 n, c.isDigit := fun c hc =>
    Nat.isDigit_of_mem_toDigits (by decide) (by decide) hc
  have hvalue : Nat.ofDigitChars 10 (Nat.toDigits 10 n) 0 = n :=
    Nat.ofDigitChars_toDigits (by decide) (by decide)
  refine ⟨_, shown_digits (List.ne_nil_of_length_pos Nat.length_toDigits_pos) hdigits,
    isFactor_number (d := none) rfl ?_, ?_⟩
  · rw [numberOf?_digits hdigits, hvalue, if_pos h]
  · rw [front_cons, isLeastNumeral, isLeastNegated_digits hdigits, hvalue, beq_eq_false_iff_ne]
    omega

/-- **The text of an integer**, the least one included, is that of a factor. -/
theorem factorText_int (n : Int32) : FactorText (toString n.toInt).toList (Atom.int n).spelled := by
  have hlow := n.le_toInt
  have hhigh := n.toInt_lt
  rw [Int.toString_eq_repr, Int.repr_eq_if, Atom.spelled]
  by_cases hneg : n.toInt < 0
  · rw [if_neg (by omega), String.toList_append, Nat.repr_eq_ofList_toDigits]
    by_cases hleast : n = Int32.minValue
    · subst hleast
      have hdigits : ∀ c ∈ "2147483648".toList, c.isDigit := List.all_eq_true.mp (by decide)
      refine ⟨[Mark.minus.word, ⟨[], .number "2147483648", "2147483648".toList⟩],
        (shown_digits (by decide) hdigits).behind_mark (m := .minus) (by decide),
        isFactor_least (d := none) rfl (by decide), rfl⟩
    · have hne : n.toInt ≠ -2147483648 := fun heq => hleast (Int32.toInt_inj.mp heq)
      have habs : (-n.toInt).toNat = n.toInt.natAbs := by omega
      rw [if_pos ⟨hneg, hleast⟩, habs, String.toList_ofList, String.toList_ofList]
      exact (factorText_digits (n := n.toInt.natAbs) (by rw [maxInt]; omega)).neg
  · have hvalue : Int32.ofNat n.toInt.toNat = n := by
      refine Int32.toInt_inj.mp ?_
      rw [Int32.toInt_ofNat_of_lt (by omega)]
      omega
    rw [if_pos (by omega), if_neg (fun h => hneg h.1), Nat.repr_eq_ofList_toDigits,
      String.toList_ofList]
    have hdigits := factorText_digits (n := n.toInt.toNat) (by rw [maxInt]; omega)
    rwa [hvalue] at hdigits

/-- The literal of a float without a sign is the text of that float. -/
theorem factorText_unsigned {x : Binary32} {d : Dyadic} (h : x.toExtended = .finite false d) :
    FactorText x.literal.toList (.atom (.float x) .none) := by
  obtain ⟨whole, fraction, htext, hwhole, hfraction, hdigits, hfractions, hvalue⟩ :=
    Binary32.exists_literal h
  have hpoint : (whole ++ '.' :: fraction).contains '.' = true := by simp
  rw [htext]
  refine ⟨_, shown_decimal hwhole hfraction hdigits hfractions, isFactor_number (d := none) rfl ?_, ?_⟩
  · rw [numberOf?_decimal hdigits, hvalue]
  · rw [front_cons, isLeastNumeral, isLeastNegated, String.toList_ofList, hpoint]
    rfl

/-- **The text of a finite float** is that of a factor. -/
theorem factorText_float {x : Binary32} (h : x.isFinite) :
    FactorText x.literal.toList (Atom.float x).spelled := by
  obtain ⟨d, hd⟩ := Binary32.exists_toExtended h
  rw [Atom.spelled]
  by_cases hunsigned : x.Unsigned
  · rw [decide_eq_false (not_not_intro hunsigned)] at hd
    rw [if_pos hunsigned]
    exact factorText_unsigned hd
  · rw [decide_eq_true hunsigned] at hd
    rw [if_neg hunsigned, Binary32.literal_neg hd, String.toList_append]
    exact (factorText_unsigned (Binary32.toExtended_neg hd)).neg

/-! ## Items and fields -/

theorem Items.ne_nil {vs : List Value} (h : Items none ws (v :: vs)) : ws ≠ [] := by
  cases h with
  | last h => exact ne_nil_of_opens h.opens
  | cons => simp

/-- Texts with commas between them are items. -/
theorem shown_items {texts : List (List Char)} {vs : List Value}
    (h : List.Forall₂ ExpressionText texts vs) :
    ∃ ws, Shown ([',', ' '].intercalate texts) ws ∧ Items none ws vs := by
  induction h with
  | nil => exact ⟨[], .nil, .nil⟩
  | @cons text v texts vs h hrest ih =>
    obtain ⟨ws, hshown, hexpression⟩ := h
    cases hrest with
    | nil =>
      rw [List.intercalate_singleton]
      exact ⟨ws, hshown, .last hexpression⟩
    | cons =>
      obtain ⟨ws', hshown', hitems⟩ := ih
      have hmore := hshown'.indent [' '] hitems.ne_nil (by decide)
      refine ⟨ws ++ Mark.comma.word :: indent [' '] ws', ?_, .cons hexpression rfl (hitems.indent _)⟩
      rw [List.intercalate_cons_of_ne_nil (List.cons_ne_nil _ _), List.append_assoc]
      exact hshown.append (hmore.behind_mark (m := .comma) (by decide)) (quiet_cons (by decide) (by decide) _)

/-- The text is that of a field: its name and an expression of its value. -/
def FieldText (text : List Char) (e : String × Value) : Prop :=
  IsName e.1 ∧ ∃ value, text = e.1.toList ++ ':' :: ' ' :: value ∧ ExpressionText value e.2

/-- The words of a field. -/
theorem FieldText.shown {e : String × Value} (h : FieldText text e) :
    ∃ ws, Shown text (nameWord e.1 :: Mark.colon.word :: ws) ∧ IsExpression none ws e.2 := by
  obtain ⟨hname, value, rfl, ws, hshown, hexpression⟩ := h
  have hvalue := hshown.indent [' '] (ne_nil_of_opens hexpression.opens) (by decide)
  exact ⟨indent [' '] ws, hname.shown.append (hvalue.behind_mark (m := .colon) (by decide))
    (quiet_cons (by decide) (by decide) _), hexpression.indent _⟩

/-- Fields that stand behind a comma and a blank. -/
theorem Fields.more {fields : Entries Value} {trailing : Bool} (h : Fields none false ws fields trailing)
    (hne : ws ≠ []) : Fields none (Yini.indent [' '] ws).isEmpty (Yini.indent [' '] ws) fields trailing := by
  rw [List.isEmpty_eq_false_iff.mpr (mt indent_eq_nil.mp hne)]
  exact h.indent _

/-- The fields of a struct have commas between them. -/
theorem shown_structFields {texts : List (List Char)} {fields : Entries Value}
    (h : List.Forall₂ FieldText texts fields) (hne : fields ≠ []) :
    ∃ ws, ws ≠ [] ∧ Shown ([',', ' '].intercalate texts) ws ∧ Fields none false ws fields false := by
  induction h with
  | nil => exact absurd rfl hne
  | @cons text e texts fields h hrest ih =>
    obtain ⟨ws, hshown, hexpression⟩ := h.shown
    cases hrest with
    | nil =>
      rw [List.intercalate_singleton]
      exact ⟨_, List.cons_ne_nil _ _, hshown, .last rfl rfl hexpression⟩
    | cons =>
      obtain ⟨ws', hne', hshown', hfields⟩ := ih (List.cons_ne_nil _ _)
      have hmore := hshown'.indent [' '] hne' (by decide)
      refine ⟨nameWord e.1 :: Mark.colon.word :: (ws ++ Mark.comma.word :: indent [' '] ws'),
        List.cons_ne_nil _ _, ?_, .cons rfl rfl hexpression rfl (hfields.more hne')⟩
      rw [List.intercalate_cons_of_ne_nil (List.cons_ne_nil _ _), List.append_assoc]
      exact hshown.append (hmore.behind_mark (m := .comma) (by decide)) (quiet_cons (by decide) (by decide) _)

/-- Each field of a map has a comma behind it, and a blank that comes before what follows. -/
theorem shown_mapFields {texts : List (List Char)} {fields : Entries Value}
    (h : List.Forall₂ FieldText texts fields) (hne : fields ≠ []) :
    ∃ ws text, ws ≠ [] ∧ texts.flatMap (· ++ [',', ' ']) = text ++ [' '] ∧ Shown text ws ∧
      Fields none false ws fields true := by
  induction h with
  | nil => exact absurd rfl hne
  | @cons text e texts fields h hrest ih =>
    obtain ⟨ws, hshown, hexpression⟩ := h.shown
    -- only the last comma may stand alone: before any other field there is a blank behind it
    cases hrest with
    | nil =>
      refine ⟨nameWord e.1 :: Mark.colon.word :: (ws ++ [Mark.comma.word]), text ++ [','],
        List.cons_ne_nil _ _, by simp, hshown.before_mark (m := .comma) (by decide), ?_⟩
      exact .cons rfl rfl hexpression rfl (.nil true)
    | cons =>
      obtain ⟨ws', text', hne', htext, hshown', hfields⟩ := ih (List.cons_ne_nil _ _)
      have hmore := hshown'.indent [' '] hne' (by decide)
      refine ⟨nameWord e.1 :: Mark.colon.word :: (ws ++ Mark.comma.word :: indent [' '] ws'),
        text ++ ',' :: ' ' :: text', List.cons_ne_nil _ _, ?_, ?_,
        .cons rfl rfl hexpression rfl (hfields.more hne')⟩
      · rw [List.flatMap_cons, htext]
        simp
      · exact hshown.append (hmore.behind_mark (m := .comma) (by decide))
          (quiet_cons (by decide) (by decide) _)

/-! ## Constructors -/

/-- What starts and goes on like a name is one, if it is no word of the grammar. -/
theorem isName_ofList (c : Char) (cs : List Char) (hmark : Mark.ofChar? c = none)
    (hdigit : c.isDigit = false) (hstart : Text.startsName c) (hcs : cs.all Text.continuesName)
    (hword : Token.ofWord (String.ofList (c :: cs)) = .ident (String.ofList (c :: cs))) :
    IsName (String.ofList (c :: cs)) := by
  rw [IsName, ← hword, String.toList_ofList]
  exact .word hmark hdigit hstart (List.all_eq_true.mp hcs) fun _ h => by cases h

/-- **A constructor with the texts of its arguments** is the text of what it makes of them. -/
theorem factorText_constructor {name : String} (hname : IsName name) (hdyna : name ≠ "Dyna")
    {texts : List (List Char)} {us : List Value} {span : Span} {u : Value}
    (h : List.Forall₂ ExpressionText texts (us.map Value.bare)) (hu : construct name us span = .ok u) :
    FactorText (name.toList ++ '(' :: ([',', ' '].intercalate texts ++ [')'])) u.bare := by
  obtain ⟨ws, hshown, hitems⟩ := shown_items h
  have hclosed := hshown.before_mark (m := .closeParen) (by decide)
  refine ⟨nameWord name :: Mark.openParen.word :: (ws ++ [Mark.closeParen.word]), ?_,
    isFactor_constructor rfl hdyna rfl hitems rfl rfl hu, rfl⟩
  exact hname.shown.append (hclosed.behind_mark (m := .openParen) (by decide))
    (quiet_cons (by decide) (by decide) _)

/-- Texts are enclosed with commas and spaces between them. -/
theorem toList_enclose (opening closing : String) (texts : List String) :
    (enclose opening closing texts).toList
      = opening.toList ++ ([',', ' '].intercalate (texts.map String.toList) ++ closing.toList) := by
  rw [enclose, String.toList_append, String.toList_append, String.toList_intercalate, List.append_assoc]
  rfl

/-- The text of a sequence is that of its items, enclosed. -/
theorem factorText_sequence {kind : SequenceKind} {texts : List String} {vs : List Value}
    (h : List.Forall₂ ExpressionText (texts.map String.toList) vs) (hbare : vs.map Value.bare = vs) :
    FactorText (enclose kind.opening kind.closing texts).toList (.sequence kind vs .none) := by
  have hvalue : ∀ kind, (Value.sequence kind vs .none).bare = .sequence kind vs .none := fun kind => by
    rw [Value.bare, Value.bareItems_eq_map, hbare]
  have hitems := h
  rw [← hbare] at h
  rw [toList_enclose, ← hvalue]
  cases kind with
  | array =>
    obtain ⟨ws, hshown, hitems⟩ := shown_items hitems
    rw [hvalue]
    exact ⟨Mark.openBracket.word :: (ws ++ [Mark.closeBracket.word]),
      (hshown.before_mark (m := .closeBracket) (by decide)).behind_mark (m := .openBracket) (by decide),
      isFactor_array rfl hitems rfl, rfl⟩
  | list =>
    have hname : IsName "List" := isName_ofList 'L' ['i', 's', 't'] rfl rfl (by decide) (by decide) rfl
    have hconstruct : construct "List" vs .none = .ok (.sequence .list vs .none) := rfl
    exact factorText_constructor hname (by decide) h hconstruct
  | set =>
    have hname : IsName "Set" := isName_ofList 'S' ['e', 't'] rfl rfl (by decide) (by decide) rfl
    have hconstruct : construct "Set" vs .none = .ok (.sequence .set vs .none) := rfl
    exact factorText_constructor hname (by decide) h hconstruct

/-! ## Colors and points -/

/-- A hexadecimal digit as it is written. -/
def hexChar (n : Nat) : Char := (Nat.digitChar n).toUpper

/-- What is known of hexadecimal digits: their value, and how they are cut into words. -/
theorem hexChar_spec {n : Nat} (h : n < 16) : hexDigit? (hexChar n) = some n.toUInt8 ∧
    (hexChar n).utf8Size = 1 ∧ Text.continuesName (hexChar n) ∧ hexChar n ≠ '.' ∧
      ((hexChar n).isDigit = false → Mark.ofChar? (hexChar n) = none ∧ Text.startsName (hexChar n) ∧
        hexChar n ≠ 't' ∧ hexChar n ≠ 'f') := by
  have hall : ∀ n : Fin 16, hexDigit? (hexChar n) = some (n : Nat).toUInt8 ∧
      (hexChar n).utf8Size = 1 ∧ Text.continuesName (hexChar n) ∧ hexChar n ≠ '.' ∧
        ((hexChar n).isDigit = false → Mark.ofChar? (hexChar n) = none ∧ Text.startsName (hexChar n) ∧
          hexChar n ≠ 't' ∧ hexChar n ≠ 'f') := by decide +kernel
  exact hall ⟨n, h⟩

theorem toList_hex2 (b : UInt8) : (hex2 b).toList = [hexChar (b.toNat / 16), hexChar (b.toNat % 16)] := by
  have hlt : b.toNat < 256 := b.toNat_lt
  rw [hex2, String.toList_ofList]
  rcases Nat.lt_or_ge b.toNat 16 with hsmall | hlarge
  · rw [Nat.toDigits_of_lt_base hsmall, Nat.div_eq_of_lt hsmall, Nat.mod_eq_of_lt hsmall]
    rfl
  · rw [Nat.toDigits_of_base_le (by decide) hlarge, Nat.toDigits_of_lt_base (by omega)]
    rfl

/-- Hexadecimal digits that begin with a letter are a name. -/
theorem isName_hexChars {c : Char} {cs : List Char} (hcs : ∀ d ∈ c :: cs, ∃ n < 16, d = hexChar n)
    (hdigit : c.isDigit = false) : IsName (String.ofList (c :: cs)) := by
  obtain ⟨n, hn, rfl⟩ := hcs c List.mem_cons_self
  obtain ⟨-, -, -, -, hletter⟩ := hexChar_spec hn
  obtain ⟨hmark, hstart, ht, hf⟩ := hletter hdigit
  refine isName_ofList _ _ hmark hdigit hstart (List.all_eq_true.mpr fun d hd => ?_) ?_
  · obtain ⟨m, hm, rfl⟩ := hcs d (List.mem_cons_of_mem _ hd)
    exact (hexChar_spec hm).2.2.1
  · have hfirst : ∀ (word : String) (d : Char) (ds : List Char), word.toList = d :: ds →
        hexChar n ≠ d → String.ofList (hexChar n :: cs) ≠ word := by
      rintro word d ds hword hne rfl
      rw [String.toList_ofList] at hword
      exact hne (List.cons.inj hword).1
    rw [Token.ofWord, if_neg (hfirst "true" 't' _ rfl ht), if_neg (hfirst "false" 'f' _ rfl hf)]

/-- Hexadecimal digits have one byte each. -/
theorem utf8ByteSize_hexChars {cs : List Char} (hcs : ∀ c ∈ cs, ∃ n < 16, c = hexChar n) :
    (String.ofList cs).utf8ByteSize = cs.length := by
  induction cs with
  | nil => rfl
  | cons c cs ih =>
    obtain ⟨n, hn, rfl⟩ := hcs c List.mem_cons_self
    rw [String.ofList_cons, String.utf8ByteSize_append, String.utf8ByteSize_singleton,
      (hexChar_spec hn).2.1, ih fun c hc => hcs c (List.mem_cons_of_mem _ hc), List.length_cons,
      Nat.add_comm]

/-- One word is all the digits. -/
theorem hexPieces_single {w : Word} {text : String} (hgap : w.gap = [])
    (hw : piece? w.token = some text) : HexPieces 6 "" [w] text := by
  refine .more (by decide) hgap hw ?_
  rw [String.empty_append]
  exact .stop _ _

/-- Digits before a letter are a number before a name. -/
theorem shown_hexDigits_mixed {digits cs : List Char} {c : Char}
    (hlength : (digits ++ c :: cs).length = 6) (hcs : ∀ d ∈ digits ++ c :: cs, ∃ n < 16, d = hexChar n)
    (hne : digits ≠ []) (hdigits : ∀ d ∈ digits, d.isDigit) (hletter : c.isDigit = false) :
    ∃ ws, Shown (digits ++ c :: cs) ws ∧ HexPieces 6 "" ws (String.ofList (digits ++ c :: cs)) := by
  have hname : IsName (String.ofList (c :: cs)) :=
    isName_hexChars (fun d hd => hcs d (List.mem_append_right _ hd)) hletter
  obtain ⟨hwritten, hcut⟩ := hname.shown
  rw [String.toList_ofList] at hwritten
  have hpoint : c ≠ '.' := by
    obtain ⟨n, hn, hc⟩ := hcs c (List.mem_append_right _ List.mem_cons_self)
    rw [hc]
    exact (hexChar_spec hn).2.2.2.1
  refine ⟨⟨[], .number (String.ofList digits), digits⟩ :: [nameWord (String.ofList (c :: cs))],
    ⟨by rw [written_cons, hwritten]; rfl, fun {last} hlast => ⟨?_, hcut hlast⟩⟩, ?_⟩
  · rw [hwritten]
    have hspells : Token.Spells digits (.number (String.ofList digits)) (c :: cs ++ last) := by
      refine .whole hne hdigits (fun d hd => ?_) fun d ds hds => ?_
      · cases hd
        exact hletter
      · exact absurd (List.cons.inj hds).1 hpoint
    exact ⟨.done, hspells.starts fun _ => Token.noConfusion, hspells⟩
  · -- the number alone is shorter than six digits, so the name is read as well
    have hshort : (String.ofList digits).utf8ByteSize < 6 := by
      rw [utf8ByteSize_hexChars fun d hd => hcs d (List.mem_append_left _ hd)]
      rw [List.length_append, List.length_cons] at hlength
      omega
    refine .more (by decide) rfl rfl (.more (by rwa [String.empty_append]) rfl rfl ?_)
    rw [String.empty_append, ← String.ofList_append]
    exact .stop _ _

/-- Hexadecimal digits are a number, a name, or a number before a name. -/
theorem shown_hexDigits (cs : List Char) (hlength : cs.length = 6) (hcs : ∀ c ∈ cs, ∃ n < 16, c = hexChar n) :
    ∃ ws, Shown cs ws ∧ HexPieces 6 "" ws (String.ofList cs) := by
  have hsplit : cs.takeWhile Char.isDigit ++ cs.dropWhile Char.isDigit = cs :=
    List.takeWhile_append_dropWhile
  have hdigits : ∀ c ∈ cs.takeWhile Char.isDigit, c.isDigit := fun c hc => Token.of_mem_takeWhile hc
  have hrest : ∀ c, (cs.dropWhile Char.isDigit).head? = some c → c.isDigit = false :=
    fun c hc => Token.not_of_head?_dropWhile hc
  generalize cs.takeWhile Char.isDigit = digits at hsplit hdigits
  generalize cs.dropWhile Char.isDigit = rest at hsplit hrest
  subst hsplit
  by_cases hnumber : digits = []
  · subst hnumber
    rw [List.nil_append] at hlength hcs ⊢
    obtain ⟨c, cs, rfl⟩ := List.exists_cons_of_length_eq_add_one hlength
    have hname := isName_hexChars hcs (hrest c rfl)
    have hshown := hname.shown
    rw [String.toList_ofList] at hshown
    exact ⟨_, hshown, hexPieces_single rfl rfl⟩
  · cases rest with
    | nil =>
      rw [List.append_nil]
      exact ⟨_, shown_digits hnumber hdigits, hexPieces_single rfl rfl⟩
    | cons c cs => exact shown_hexDigits_mixed hlength hcs hnumber hdigits (hrest c rfl)

/-- The two digits of a channel. -/
theorem hexDigits_channel (b : UInt8) : ∃ high low, hexDigit? (hexChar (b.toNat / 16)) = some high ∧
    hexDigit? (hexChar (b.toNat % 16)) = some low ∧ 16 * high + low = b := by
  have hlt : b.toNat < 256 := b.toNat_lt
  refine ⟨_, _, (hexChar_spec (by omega)).1, (hexChar_spec (by omega)).1, UInt8.toNat_inj.mp ?_⟩
  rw [UInt8.toNat_add, UInt8.toNat_mul, Nat.toUInt8_eq, Nat.toUInt8_eq, UInt8.toNat_ofNat',
    UInt8.toNat_ofNat']
  show (16 * (b.toNat / 16 % 2 ^ 8) % 2 ^ 8 + b.toNat % 16 % 2 ^ 8) % 2 ^ 8 = b.toNat
  omega

/-- Six digits behind their mark are the text of a color. -/
theorem factorText_hexColor (r g b : UInt8) :
    FactorText ('#' :: ((hex2 r).toList ++ ((hex2 g).toList ++ (hex2 b).toList)))
      (.atom (.color ⟨r, g, b, 255⟩) .none) := by
  have hchars : ∀ b : UInt8, ∀ c ∈ (hex2 b).toList, ∃ n < 16, c = hexChar n := by
    intro b c hc
    have hlt : b.toNat < 256 := b.toNat_lt
    rw [toList_hex2, List.mem_cons, List.mem_singleton] at hc
    rcases hc with rfl | rfl
    · exact ⟨_, by omega, rfl⟩
    · exact ⟨_, by omega, rfl⟩
  obtain ⟨ws, hshown, hpieces⟩ :=
    shown_hexDigits ((hex2 r).toList ++ ((hex2 g).toList ++ (hex2 b).toList))
      (by rw [toList_hex2, toList_hex2, toList_hex2]; rfl) (by
        simp only [List.mem_append]
        rintro c (hc | hc | hc)
        · exact hchars r c hc
        · exact hchars g c hc
        · exact hchars b c hc)
  refine ⟨Mark.hash.word :: ws, hshown.behind_mark (m := .hash) (by decide),
    isFactor_hexColor (d := none) rfl hpieces ?_, rfl⟩
  obtain ⟨r₁, r₂, hr₁, hr₂, hr⟩ := hexDigits_channel r
  obtain ⟨g₁, g₂, hg₁, hg₂, hg⟩ := hexDigits_channel g
  obtain ⟨b₁, b₂, hb₁, hb₂, hb⟩ := hexDigits_channel b
  rw [colorOf?, String.toList_ofList, toList_hex2, toList_hex2, toList_hex2]
  simp [List.mapM_cons, hr₁, hr₂, hg₁, hg₂, hb₁, hb₂, hr, hg, hb]

/-- A channel of a color as an argument. -/
theorem expressionText_channel (b : UInt8) :
    ExpressionText (toString b.toNat).toList (.atom (.int (Int32.ofNat b.toNat)) .none) ∧
      channel? (.atom (.int (Int32.ofNat b.toNat)) .none) = some b := by
  have hlt : b.toNat < 256 := b.toNat_lt
  have htext : (toString b.toNat).toList = Nat.toDigits 10 b.toNat := by
    rw [← String.toList_ofList (l := Nat.toDigits 10 b.toNat), ← Nat.repr_eq_ofList_toDigits]
    rfl
  rw [htext, channel?, literalInt?, Int32.toInt_ofNat_of_lt (by omega)]
  refine ⟨(factorText_digits (by rw [maxInt]; omega)).expression, ?_⟩
  dsimp only
  rw [if_pos ⟨by omega, by omega⟩, Int.toNat_natCast, Nat.toUInt8_eq, UInt8.ofNat_toNat]

/-- **The text of a color** is that of a factor: six digits, or a constructor if it has an opacity. -/
theorem factorText_color (c : Color) : FactorText c.text.toList (.atom (.color c) .none) := by
  obtain ⟨r, g, b, a⟩ := c
  rw [Color.text]
  split
  next halpha =>
    dsimp only at halpha ⊢
    subst halpha
    have hcolor := factorText_hexColor r g b
    simpa [String.toList_append] using hcolor
  next =>
    have hname : IsName "Color" := isName_ofList 'C' ['o', 'l', 'o', 'r'] rfl rfl (by decide)
      (by decide) rfl
    have harguments : arguments "Color" "integer channels between 0 and 255" channel?
        ([r, g, b, a].map fun b => .atom (.int (Int32.ofNat b.toNat)) .none) = .ok [r, g, b, a] := by
      simp only [arguments_ok, List.map_cons, List.map_nil, (expressionText_channel _).2]
    have hconstruct : construct "Color" ([r, g, b, a].map fun b => .atom (.int (Int32.ofNat b.toNat)) .none)
        .none = .ok (.atom (.color ⟨r, g, b, a⟩) .none) := by
      unfold construct
      rw [if_pos rfl, if_pos (.inr rfl), harguments]
      rfl
    have htexts : List.Forall₂ ExpressionText
        (([r, g, b, a].map fun b => toString b.toNat).map String.toList)
        (([r, g, b, a].map fun b => Value.atom (.int (Int32.ofNat b.toNat)) .none).map Value.bare) :=
      .cons (expressionText_channel r).1 (.cons (expressionText_channel g).1
        (.cons (expressionText_channel b).1 (.cons (expressionText_channel a).1 .nil)))
    exact (toList_enclose "Color(" ")" _) ▸
      factorText_constructor hname (by decide) htexts hconstruct

/-- The literal of a float as an argument. -/
theorem literalNumber?_spelled (x : Binary32) : literalNumber? (Atom.float x).spelled = some x := by
  rw [Atom.spelled]
  split
  · rfl
  · rw [literalNumber?, literalNumber?, Option.map_some, Binary32.neg_neg]

/-- **The text of a coordinate** with finite numbers is that of a factor. -/
theorem factorText_coord {c : Coord} (hplane : c.spatial = false → c.z = .zero false)
    (hx : c.x.isFinite) (hy : c.y.isFinite) (hz : c.z.isFinite) :
    FactorText c.text.toList (.atom (.coord c) .none) := by
  obtain ⟨x, y, z, spatial⟩ := c
  have hname : IsName "Coord" := isName_ofList 'C' ['o', 'o', 'r', 'd'] rfl rfl (by decide)
    (by decide) rfl
  have hbare : ∀ x : Binary32, (Atom.float x).spelled.bare = (Atom.float x).spelled := fun x =>
    Value.bare_spelled (.atom (.float x) .none)
  have haxis : ∀ {x : Binary32}, x.isFinite →
      ExpressionText x.literal.toList (Atom.float x).spelled.bare := fun {x} h => by
    rw [hbare]
    exact (factorText_float h).expression
  have harguments : ∀ axes : List Binary32, arguments "Coord" "numeric literals" literalNumber?
      (axes.map fun x => (Atom.float x).spelled) = .ok axes := by
    intro axes
    rw [arguments_ok, List.map_map]
    exact List.map_congr_left fun x _ => literalNumber?_spelled x
  -- a plane coordinate is printed without its third axis, which is zero then and is read back as such
  cases spatial with
  | true =>
    have hconstruct : construct "Coord" ([x, y, z].map fun x => (Atom.float x).spelled) .none
        = .ok (.atom (.coord ⟨x, y, z, true⟩) .none) := by
      unfold construct
      rw [if_neg (by decide), if_pos rfl, if_pos (.inr rfl), harguments]
      rfl
    exact (toList_enclose "Coord(" ")" _) ▸ factorText_constructor hname (by decide)
      (.cons (haxis hx) (.cons (haxis hy) (.cons (haxis hz) .nil))) hconstruct
  | false =>
    obtain rfl : z = .zero false := hplane rfl
    have hconstruct : construct "Coord" ([x, y].map fun x => (Atom.float x).spelled) .none
        = .ok (.atom (.coord ⟨x, y, .zero false, false⟩) .none) := by
      unfold construct
      rw [if_neg (by decide), if_pos rfl, if_pos (.inl rfl), harguments]
      rfl
    exact (toList_enclose "Coord(" ")" _) ▸ factorText_constructor hname (by decide)
      (.cons (haxis hx) (.cons (haxis hy) .nil)) hconstruct

/-- **The text of a path** is that of a factor. -/
theorem factorText_path (path : String) :
    FactorText ("Path(" ++ quote path ++ ")").toList (.atom (.path path) .none) := by
  have hname : IsName "Path" := isName_ofList 'P' ['a', 't', 'h'] rfl rfl (by decide)
    (by decide) rfl
  have hquote : ExpressionText (quote path).toList (.atom (.string path) .none) :=
    ⟨_, shown_quote path, (isFactor_string (d := none) rfl).isExpression⟩
  have hconstruct : construct "Path" [.atom (.string path) .none] .none
      = .ok (.atom (.path path) .none) := rfl
  have hpath := factorText_constructor hname (by decide) (.cons hquote .nil) hconstruct
  rw [List.intercalate_singleton] at hpath
  rw [String.toList_append, String.toList_append, List.append_assoc]
  exact hpath

/-! ## References and deferred expressions -/

/-- One more part is put behind the others with a point. -/
theorem DottedParts.concat {part? : Token → Option String} {first all part : String} {point w : Word}
    (h : DottedParts part? first ws all) (hpoint : point.token = .mark .point)
    (hw : part? w.token = some part) :
    DottedParts part? first (ws ++ [point, w]) (all ++ "." ++ part) := by
  induction h with
  | nil => exact .cons hpoint hw (.nil _)
  | cons hpoint' hw' _ ih => exact .cons hpoint' hw' ih

/-- The words of a name with points in it, before anything that does not continue a name. -/
theorem words_of_dotted {s : String} (h : Dotted s) : ∃ first ws,
    written (nameWord first :: ws) = s.toList ∧ DottedParts name? first ws s ∧
      ∀ last, (∀ c, last.head? = some c → Text.continuesName c = false) →
        Cut (nameWord first :: ws) last := by
  induction h with
  | @one s h =>
    exact ⟨s, [], by simp [nameWord], .nil s, fun last hlast => ⟨h.before hlast, trivial⟩⟩
  | @more s t _ ht ih =>
    obtain ⟨first, ws, htext, hparts, hcut⟩ := ih
    refine ⟨first, ws ++ [Mark.point.word, nameWord t], ?_, hparts.concat rfl rfl, fun last hlast => ?_⟩
    · rw [← List.cons_append, written_append, htext]
      simp [Mark.word, nameWord, Mark.text, String.toList_append]
    · rw [← List.cons_append, cut_append]
      refine ⟨hcut _ fun c hc => ?_, Mark.before (by decide) _, ht.before hlast, trivial⟩
      obtain rfl : '.' = c := Option.some.inj hc
      decide

/-- **The text of a reference** with legible names is that of a factor. -/
theorem factorText_reference {r : Reference} (h : r.Legible) :
    FactorText r.text.toList (.atom (.reference r) .none) := by
  obtain ⟨kind, target⟩ := r
  cases kind with
  | environment =>
    have hclosed := (IsName.shown h).before_mark (m := .closeBrace) (by decide)
    refine ⟨[Mark.dollar.word, Mark.openBrace.word, nameWord target, Mark.closeBrace.word], ?_,
      isFactor_environment (d := none) rfl rfl rfl rfl, rfl⟩
    have hopened := (hclosed.behind_mark (m := .openBrace) (by decide)).behind_mark (m := .dollar) (by decide)
    simpa [Reference.text, String.toList_append, Mark.text] using hopened
  | macroName =>
    have hopened := (IsName.shown h).behind_mark (m := .atSign) (by decide)
    refine ⟨[Mark.atSign.word, nameWord target], ?_, isFactor_macro (d := none) rfl rfl, rfl⟩
    simpa [Reference.text, String.toList_append, Mark.text] using hopened
  | localization =>
    obtain ⟨first, ws, htext, hparts, hcut⟩ := words_of_dotted h
    have hshown : Shown target.toList (nameWord first :: ws) :=
      ⟨htext, fun hlast => hcut _ fun c hc => (hlast c hc).1⟩
    have hclosed := hshown.before_mark (m := .closeBrace) (by decide)
    refine ⟨Mark.percent.word :: Mark.openBrace.word :: nameWord first :: (ws ++ [Mark.closeBrace.word]),
      ?_, isFactor_localization (d := none) rfl rfl rfl hparts rfl, rfl⟩
    have hopened := (hclosed.behind_mark (m := .openBrace) (by decide)).behind_mark (m := .percent) (by decide)
    simpa [Reference.text, String.toList_append, Mark.text] using hopened
  | crossSection =>
    obtain ⟨name, key, hname, hkey, rfl⟩ := h
    have hclosed := (hkey.shown.before_mark (m := .closeBrace) (by decide)).behind_mark (m := .point)
      (by decide)
    -- the point is a word of its own: the name before it ends there, and so does the one behind it
    have hparts : Shown (name.toList ++ (Mark.point.text.toList ++ (key.toList ++ Mark.closeBrace.text.toList)))
        (nameWord name :: Mark.point.word :: ([nameWord key] ++ [Mark.closeBrace.word])) := by
      refine ⟨by rw [written_cons, hclosed.written]; rfl, fun hlast => ⟨hname.before ?_, hclosed.cut hlast⟩⟩
      rintro c ⟨⟩
      decide
    have hopened := (hparts.behind_mark (m := .openBrace) (by decide)).behind_mark (m := .atSign) (by decide)
    refine ⟨[Mark.atSign.word, Mark.openBrace.word, nameWord name, Mark.point.word, nameWord key,
      Mark.closeBrace.word], ?_, isFactor_property (d := none) rfl rfl rfl rfl rfl rfl, rfl⟩
    simpa [Reference.text, String.toList_append, Mark.text] using hopened

/-- **The text of a deferred expression** is that of a factor. -/
theorem factorText_dyna {text : String} (h : Deferred text) :
    FactorText ("Dyna(" ++ text ++ ")").toList (.atom (.dyna text) .none) := by
  obtain ⟨w, ws, v, last, htext, hexpression, hcut⟩ := h
  have hname : IsName "Dyna" := isName_ofList 'D' ['y', 'n', 'a'] rfl rfl (by decide)
    (by decide) rfl
  have hshown : Shown text.toList ({ w with gap := [] } :: ws) :=
    ⟨by rw [htext, written_cons]; rfl, fun hlast => hcut.quiet hlast⟩
  have hclosed := hname.shown.append ((hshown.before_mark (m := .closeParen) (by decide)).behind_mark
    (m := .openParen) (by decide)) (quiet_cons (by decide) (by decide) _)
  have hfactor : IsFactor none (nameWord "Dyna" :: Mark.openParen.word ::
      ({ w with gap := [] } :: ws ++ [Mark.closeParen.word])) _ :=
    isFactor_dyna (d := none) rfl rfl (hexpression.any.regap []) rfl
  rw [hcut.trim_eq, ← htext, String.ofList_toList] at hfactor
  refine ⟨_, ?_, hfactor, rfl⟩
  simpa [String.toList_append, Mark.text] using hclosed

/-! ## Values -/

/-- **The text of an atom** that is legible and finite is that of a factor. -/
theorem factorText_atom {a : Atom} (h : a.Legible false) (hfinite : a.isFinite) :
    FactorText a.text.toList a.spelled := by
  cases a with
  | int n => exact factorText_int n
  | float x => exact factorText_float hfinite
  | bool b =>
    have hword : ∀ {cs : List Char} {t : Token}, Token.Spells cs t [] → t = .bool b →
        FactorText cs (.atom (.bool b) .none) := by
      rintro cs t hspells rfl
      exact ⟨_, .token hspells fun _ => Token.noConfusion, isFactor_bool (d := none) rfl, rfl⟩
    cases b with
    | true =>
      have hspells : Token.Spells ['t', 'r', 'u', 'e'] (Token.ofWord "true") [] :=
        .word rfl rfl (by decide) (List.all_eq_true.mp rfl) nofun
      exact hword hspells rfl
    | false =>
      have hspells : Token.Spells ['f', 'a', 'l', 's', 'e'] (Token.ofWord "false") [] :=
        .word rfl rfl (by decide) (List.all_eq_true.mp rfl) nofun
      exact hword hspells rfl
  | string s => exact ⟨_, shown_quote s, isFactor_string (d := none) rfl, rfl⟩
  | color c => exact factorText_color c
  | coord c =>
    rw [Atom.isFinite, Bool.and_eq_true, Bool.and_eq_true] at hfinite
    exact factorText_coord h hfinite.1.1 hfinite.1.2 hfinite.2
  | path p => exact factorText_path p
  | reference r => exact factorText_reference h
  | dyna text => exact factorText_dyna h

/-- **The words of a text** of a value: an expression, and more where the value needs no parentheses. -/
structure Printed (v : Value) (ws : List Word) : Prop where
  shown : Shown v.text.toList ws
  expression : IsExpression none ws v.spelled
  term : v.needsGroup (.left .mul) = false → IsTerm none ws v.spelled
  factor : v.needsGroup .negated = false → IsFactor none ws v.spelled
  least : isLeastNumeral (front ws) = false

/-- What is the text of a factor needs no parentheses anywhere. -/
theorem FactorText.printed (h : FactorText v.text.toList v.spelled) : ∃ ws, Printed v ws := by
  obtain ⟨ws, hshown, hfactor, hleast⟩ := h
  exact ⟨ws, hshown, hfactor.isExpression, fun _ => hfactor.isTerm, fun _ => hfactor, hleast⟩

/-- What has been printed is the text of an expression. -/
theorem Printed.expressionText (h : Printed v ws) : ExpressionText v.text.toList v.spelled :=
  ⟨ws, h.shown, h.expression⟩

theorem toList_group (text : String) : (group true text).toList = '(' :: (text.toList ++ [')']) := by
  rw [group, if_pos rfl, String.toList_append, String.toList_append, List.append_assoc]
  rfl

/-- An operand in parentheses, if it is none that may stand beside `*`. -/
theorem Printed.term_operand (h : Printed v ws) (needed : Bool)
    (hneeded : needed = false → v.needsGroup (.left .mul) = false) :
    ∃ ws', Shown (group needed v.text).toList ws' ∧ IsTerm none ws' v.spelled ∧
      isLeastNumeral (front ws') = false := by
  cases needed with
  | true =>
    rw [toList_group]
    obtain ⟨ws', hshown, hfactor, hleast⟩ := h.expressionText.group
    exact ⟨ws', hshown, hfactor.isTerm, hleast⟩
  | false => exact ⟨ws, h.shown, h.term (hneeded rfl), h.least⟩

/-- An operand in parentheses, if it is none that may stand behind a minus sign. -/
theorem Printed.factor_operand (h : Printed v ws) (needed : Bool)
    (hneeded : needed = false → v.needsGroup .negated = false) :
    FactorText (group needed v.text).toList v.spelled := by
  cases needed with
  | true =>
    rw [toList_group]
    exact h.expressionText.group
  | false => exact ⟨ws, h.shown, h.factor (hneeded rfl), h.least⟩

/-- The mark of an operator. -/
def opMark : BinaryOp → Mark
  | .add => .plus
  | .sub => .minus
  | .mul => .star
  | .div => .slash
  | .mod => .percent

/-- Two texts with an operator between them are shown by their words. -/
theorem shown_operation {op : BinaryOp} {left right : List Char} {ws ws' : List Word}
    (h : Shown left ws) (h' : Shown right ws') (hne : ws' ≠ []) :
    Shown (left ++ ' ' :: (op.symbol.toList ++ ' ' :: right))
      (ws ++ { (opMark op).word with gap := [' '] } :: Yini.indent [' '] ws') := by
  have hsymbol : op.symbol = (opMark op).text := by cases op <;> rfl
  have hright := (Shown.mark (opMark op)).append (h'.indent [' '] hne (by decide))
    (quiet_blank (by decide) _)
  rw [hsymbol]
  exact h.append (hright.indent [' '] (List.cons_ne_nil _ _) (by decide))
    (quiet_blank (by decide) _)

/-- The text of an operation: the texts of its operands, in parentheses where these are needed. -/
theorem text_binary (l r : Value) (op : BinaryOp) (span : Span) :
    (Value.binary l op r span).text.toList = (group (l.needsGroup (.left op)) l.text).toList ++
      ' ' :: (op.symbol.toList ++ ' ' :: (group (r.needsGroup (.right op)) r.text).toList) := by
  rw [Value.text]
  simp [String.toList_append]

/-- What may stand to the right of `+` may stand beside `*`. -/
theorem needsGroup_right {v : Value} {op : BinaryOp} (hop : op.precedence = 1)
    (h : v.needsGroup (.right op) = false) : v.needsGroup (.left .mul) = false := by
  cases v with
  | binary l op' r span =>
    simp only [Value.needsGroup, hop, decide_eq_false_iff_not] at h ⊢
    show ¬op'.precedence < 2
    omega
  | _ => rfl

/-- **Operations are printed as they are read**: parentheses stand where an operand would be torn apart. -/
theorem printed_binary {l r : Value} {op : BinaryOp} {span : Span} {wl wr : List Word}
    (hl : Printed l wl) (hr : Printed r wr) : ∃ ws, Printed (.binary l op r span) ws := by
  by_cases hop : op.precedence = 1
  · -- a sum: an expression on the left, a term on the right
    have hleft : l.needsGroup (.left op) = false := by
      cases l with
      | binary l op' r span =>
        rw [Value.needsGroup, hop]
        cases op' <;> rfl
      | _ => rfl
    obtain ⟨ws', hshown, hterm, -⟩ := hr.term_operand _ (needsGroup_right hop)
    have hne := ne_nil_of_opens (IsTerm.opens hterm)
    have hmark : termOp? (Token.mark (opMark op)) = some op := by
      cases op <;> first | rfl | cases hop
    have hsum : IsExpression none (wl ++ { (opMark op).word with gap := [' '] } :: Yini.indent [' '] ws')
        (.binary l.spelled op r.spelled .none) := .more hl.expression hmark (hterm.indent [' '])
    refine ⟨_, ?_, hsum, ?_, nofun, ?_⟩
    · rw [text_binary, hleft]
      exact shown_operation hl.shown hshown hne
    · intro hgroup
      rw [Value.needsGroup, hop] at hgroup
      cases hgroup
    · rw [front_append (ne_nil_of_opens (IsExpression.opens hl.expression))]
      exact hl.least
  · -- a product: a term on the left, a factor on the right
    have htwo : op.precedence = 2 := by cases op <;> first | rfl | exact absurd rfl hop
    obtain ⟨ws, hshown, hterm, hleast⟩ := hl.term_operand (l.needsGroup (.left op)) fun hl => by
      cases l with
      | binary l op' r span => rwa [Value.needsGroup, htwo] at hl
      | _ => rfl
    obtain ⟨ws', hshown', hfactor, -⟩ := hr.factor_operand (r.needsGroup (.right op)) fun hr => by
      cases r with
      | binary l op' r span =>
        rw [Value.needsGroup, htwo] at hr
        cases op' <;> cases hr
      | _ => rfl
    have hne := ne_nil_of_opens hfactor.opens
    have hmark : factorOp? (Token.mark (opMark op)) = some op := by
      cases op <;> first | rfl | cases htwo
    have hproduct : IsTerm none (ws ++ { (opMark op).word with gap := [' '] } :: Yini.indent [' '] ws')
        (.binary l.spelled op r.spelled .none) := .more hterm hmark (hfactor.indent [' '])
    refine ⟨_, ?_, hproduct.isExpression, fun _ => hproduct, nofun, ?_⟩
    · rw [text_binary]
      exact shown_operation hshown hshown' hne
    · rw [front_append (ne_nil_of_opens (IsTerm.opens hterm))]
      exact hleast

/-- The texts of fields with their names. -/
theorem fieldTexts_forall₂ {fields : Entries Value}
    (h : ∀ e ∈ fields, IsName e.1 ∧ ExpressionText e.2.text.toList e.2.spelled) :
    List.Forall₂ FieldText ((Value.fieldTexts fields).map String.toList) (Value.spelledFields fields) := by
  induction fields with
  | nil => exact .nil
  | cons e fields ih =>
    obtain ⟨hname, htext⟩ := h e List.mem_cons_self
    refine .cons ⟨hname, _, ?_, htext⟩ (ih fun f hf => h f (List.mem_cons_of_mem _ hf))
    simp [String.toList_append]

/-- The texts of a list are those of its items. -/
theorem itemTexts_forall₂ (vs : List Value) (h : ∀ v ∈ vs, ExpressionText v.text.toList v.spelled) :
    List.Forall₂ ExpressionText ((Value.itemTexts vs).map String.toList) (Value.spelledItems vs) := by
  induction vs with
  | nil => exact .nil
  | cons v vs ih =>
    exact .cons (h v List.mem_cons_self) (ih fun w hw => h w (List.mem_cons_of_mem _ hw))

/-- **The text of a record** is that of a factor: the braces say by a comma at the end which kind it is. -/
theorem factorText_record {kind : RecordKind} {fields : Entries Value} {span : Span}
    (hnodup : fields.keys.Nodup) (hkind : kind = .struct → fields ≠ [])
    (h : ∀ e ∈ fields, IsName e.1 ∧ ExpressionText e.2.text.toList e.2.spelled) :
    FactorText (Value.record kind fields span).text.toList (Value.record kind fields span).spelled := by
  have htexts := fieldTexts_forall₂ h
  have hkeys : Entries.keys (Value.spelledFields fields) = fields.keys := by
    rw [Value.spelledFields_eq_map, Entries.keys, List.map_map]
    rfl
  have hlist : Entries.ofList (Value.spelledFields fields) = Value.spelledFields fields := by
    refine Entries.ofList_of_nodup ?_
    rwa [hkeys]
  have hempty : Value.spelledFields fields = [] ↔ fields = [] := by
    rw [Value.spelledFields_eq_map, List.map_eq_nil_iff]
  rw [Value.spelled]
  -- a struct has no comma at the end; a map has one, unless it is empty, and an empty record is a map
  cases kind with
  | struct =>
    have hne := mt hempty.mp (hkind rfl)
    obtain ⟨ws, -, hshown, hfields⟩ := shown_structFields htexts hne
    have hfactor : IsFactor none (Mark.openBrace.word :: (ws ++ [Mark.closeBrace.word])) _ :=
      isFactor_record rfl hfields rfl
    rw [hlist, recordKind, List.isEmpty_eq_false_iff.mpr hne] at hfactor
    refine ⟨_, ?_, hfactor, rfl⟩
    rw [Value.text, toList_enclose]
    exact (hshown.before_mark (m := .closeBrace) (by decide)).behind_mark (m := .openBrace) (by decide)
  | map =>
    have htext : (Value.record .map fields span).text.toList
        = '{' :: (((Value.fieldTexts fields).map String.toList).flatMap (· ++ [',', ' ']) ++ ['}']) := by
      rw [Value.text, String.toList_append, String.toList_append, String.toList_join, List.flatMap_map,
        List.flatMap_map, List.append_assoc]
      simp [String.toList_append]
    rw [htext]
    by_cases hnone : fields = []
    · subst hnone
      exact ⟨[Mark.openBrace.word, Mark.closeBrace.word],
        (Shown.mark .closeBrace).behind_mark (m := .openBrace) (by decide),
        isFactor_record (d := none) rfl (.nil false) rfl, rfl⟩
    · obtain ⟨ws, text, hne, htail, hshown, hfields⟩ := shown_mapFields htexts (mt hempty.mp hnone)
      have hfactor : IsFactor none (Mark.openBrace.word :: (ws ++ [{ Mark.closeBrace.word with gap := [' '] }])) _ :=
        isFactor_record rfl hfields rfl
      rw [hlist, recordKind, Bool.true_or, if_pos rfl] at hfactor
      refine ⟨_, ?_, hfactor, rfl⟩
      have hclose := (Shown.mark .closeBrace).indent [' '] (List.cons_ne_nil _ _) (by decide)
      have hclosed := hshown.append hclose (quiet_blank (by decide) _)
      rw [htail, List.append_assoc]
      exact hclosed.behind_mark (m := .openBrace) (by decide)

/-- **The text of a value** that can be written is an expression of what it stands for. -/
theorem exists_printed (h : v.Legible false) (hfinite : v.isFinite) : ∃ ws, Printed v ws := by
  induction h with
  | @atom a span h => exact FactorText.printed (v := .atom a span) (factorText_atom h hfinite)
  | @sequence kind vs span _ ih =>
    rw [Value.isFinite, Value.allFinite_iff] at hfinite
    have htexts := itemTexts_forall₂ vs fun v hv => by
      obtain ⟨ws, hws⟩ := ih v hv (hfinite v hv)
      exact hws.expressionText
    refine FactorText.printed (factorText_sequence htexts ?_)
    rw [← Value.bareItems_eq_map]
    exact (Value.sequence.inj (Value.bare_spelled (.sequence kind vs span))).2.1
  | @record kind fields span hnodup hnames hkind _ ih =>
    rw [Value.isFinite, Value.allFieldsFinite_iff] at hfinite
    refine FactorText.printed (factorText_record hnodup hkind fun e he => ⟨hnames e he, ?_⟩)
    obtain ⟨ws, hws⟩ := ih e he (hfinite e he)
    exact hws.expressionText
  | binary _ _ ihl ihr =>
    rw [Value.isFinite, Bool.and_eq_true] at hfinite
    obtain ⟨wl, hl⟩ := ihl hfinite.1
    obtain ⟨wr, hr⟩ := ihr hfinite.2
    exact printed_binary hl hr
  | @neg v span _ ih =>
    obtain ⟨ws, hws⟩ := ih hfinite
    refine FactorText.printed ?_
    rw [Value.text, String.toList_append]
    exact (hws.factor_operand _ id).neg

/-- **The text of a value is an expression of that value.** -/
theorem expressionText_text (h : v.Legible false) (hfinite : v.isFinite) :
    ExpressionText v.text.toList v.spelled := by
  obtain ⟨ws, hws⟩ := exists_printed h hfinite
  exact hws.expressionText

end Grammar

end Yini
