import Yini.Dyna.Evaluator
import Yini.Proofs.Dyna.Argument
import Yini.Proofs.Token.Printing

/-!
How large an expression a program can hold.

An operand has two bytes.  So a program has room for 65536 constants, and a sequence or a record can be
made of 65535 parts at most.  `Value.constants` and `Value.width` say how much of both an expression
needs.  Every step of lowering adds the constants that it should, or fails because one of the two is
exceeded (`Program.Adds`); from this, for one kind of node after the other, an expression that can be
read has a program exactly if it keeps to both bounds (`lowers_iff_fits`).  Evaluating on the tree knows
no such bounds.
-/

namespace Yini

/-! ## What an expression needs -/

namespace Value

mutual

/-- How many constants an expression needs: one for each atom and for each name of a field. -/
def constants : Value → Nat
  | atom _ _ => 1
  | sequence _ items _ => itemConstants items
  | record _ fields _ => fieldConstants fields
  | binary l _ r _ => constants l + constants r
  | neg v _ => constants v
  | rule .. => 0
termination_by structural v => v

/-- How many constants the expressions of a list need. -/
def itemConstants : List Value → Nat
  | [] => 0
  | v :: vs => constants v + itemConstants vs
termination_by structural vs => vs

/-- How many constants names and their expressions need. -/
def fieldConstants : List (String × Value) → Nat
  | [] => 0
  | (_, v) :: fs => 1 + (constants v + fieldConstants fs)
termination_by structural fs => fs

end

mutual

/-- How many parts the widest sequence or record in an expression has. -/
def width : Value → Nat
  | atom _ _ => 0
  | sequence _ items _ => max (itemWidth items) items.length
  | record _ fields _ => max (fieldWidth fields) fields.length
  | binary l _ r _ => max (width l) (width r)
  | neg v _ => width v
  | rule .. => 0
termination_by structural v => v

/-- The greatest width in a list of expressions. -/
def itemWidth : List Value → Nat
  | [] => 0
  | v :: vs => max (width v) (itemWidth vs)
termination_by structural vs => vs

/-- The greatest width in the expressions of fields. -/
def fieldWidth : List (String × Value) → Nat
  | [] => 0
  | (_, v) :: fs => max (width v) (fieldWidth fs)
termination_by structural fs => fs

end

/-- **The expression is not too large** for a program. -/
structure Fits (v : Value) : Prop where
  constants : v.constants ≤ 65536
  width : v.width ≤ 65535

instance (v : Value) : Decidable v.Fits :=
  decidable_of_iff (v.constants ≤ 65536 ∧ v.width ≤ 65535)
    ⟨fun h => ⟨h.1, h.2⟩, fun h => ⟨h.constants, h.width⟩⟩

end Value

/-! ## Adding to a program -/

namespace Program

variable {p q : Program} {c c' w w' : Nat} {x : Except Fault Program}

/-- The fault of an expression that is too large. -/
def IsTooLarge (f : Fault) : Prop := ∃ span, f = .evaluation .tooLarge (some span)

/-- **Adding to a program**: there are `c` constants more and all parts keep to the bounds, where no
    width is greater than `w`; or one of the bounds is exceeded, and this is the fault. -/
def Adds (p : Program) (c w : Nat) : Except Fault Program → Prop
  | .ok q => q.constants.size = p.constants.size + c ∧ q.constants.size ≤ maxOperand + 1 ∧ w ≤ maxOperand
  | .error f => IsTooLarge f ∧ (maxOperand + 1 < p.constants.size + c ∨ maxOperand < w)

/-- What is added by one step after the other. -/
theorem Adds.bind {f : Program → Except Fault Program} (h : Adds p c w x)
    (hf : ∀ q, q.constants.size ≤ maxOperand + 1 → Adds q c' w' (f q)) :
    Adds p (c + c') (max w w') (x >>= f) := by
  cases x with
  | error fault =>
    obtain ⟨hfault, hbound⟩ := h
    refine ⟨hfault, ?_⟩
    omega
  | ok q =>
    obtain ⟨hsize, hroom, hwidth⟩ := h
    have hrest := hf q hroom
    show Adds p _ _ (f q)
    cases hq : f q with
    | error fault =>
      rw [hq] at hrest
      obtain ⟨hfault, hbound⟩ := hrest
      refine ⟨hfault, ?_⟩
      omega
    | ok r =>
      rw [hq] at hrest
      obtain ⟨hsize', hroom', hwidth'⟩ := hrest
      refine ⟨?_, hroom', ?_⟩ <;> omega

theorem adds_self (hp : p.constants.size ≤ maxOperand + 1) : Adds p 0 0 (.ok p) :=
  ⟨rfl, hp, Nat.zero_le _⟩

/-- An operator takes no constant and has no parts. -/
theorem Adds.emit (h : Adds p c w x) (o : Opcode) (span : Span) :
    Adds p c w (x >>= fun q => return q.emit o span) := by
  cases x with
  | error fault => exact h
  | ok q => exact h

/-- A count takes no constant, and has to keep to the bound itself. -/
theorem Adds.count (h : Adds p c w x) (o : Opcode) (n : Nat) (span : Span) :
    Adds p c (max w n) (x >>= fun q => do return q.emitWith o (← operand n span) span) := by
  have hcount : ∀ q : Program, q.constants.size ≤ maxOperand + 1 →
      Adds q 0 n (do return q.emitWith o (← operand n span) span) := by
    intro q hq
    unfold operand
    by_cases hn : n ≤ maxOperand
    · rw [if_pos hn]
      exact ⟨rfl, hq, hn⟩
    · rw [if_neg hn]
      exact ⟨⟨span, rfl⟩, .inr (Nat.lt_of_not_le hn)⟩
  exact h.bind hcount

/-- An instruction that pushes adds one constant, or there is no room for it. -/
theorem adds_emitPush (p : Program) (k : Push) (constant : Value) :
    Adds p 1 0 (p.emitPush k constant) := by
  unfold emitPush operand
  by_cases hsize : p.constants.size ≤ maxOperand
  · rw [if_pos hsize]
    have hpush : (p.constants.push constant).size = p.constants.size + 1 := Array.size_push _
    exact ⟨hpush, by show (p.constants.push constant).size ≤ _; omega, Nat.zero_le _⟩
  · rw [if_neg hsize]
    exact ⟨⟨constant.span, rfl⟩, .inl (by omega)⟩

/-! ## Lowering -/

theorem lowerItems_cons (v : Value) (vs : List Value) (p : Program) :
    lowerItems (v :: vs) p = lower v p >>= lowerItems vs := by
  rw [lowerItems]
  cases lower v p <;> rfl

theorem lowerFields_cons (span : Span) (k : String) (v : Value) (fs : Entries Value) (p : Program) :
    lowerFields span ((k, v) :: fs) p =
      p.emitPush .string (.atom (.string k) span) >>= fun p => lower v p >>= lowerFields span fs := by
  have hvalue : ∀ q : Program, (match lower v q with
      | .ok r => lowerFields span fs r
      | .error fault => .error fault) = lower v q >>= lowerFields span fs := by
    intro q
    cases lower v q <;> rfl
  rw [lowerFields]
  cases p.emitPush .string (.atom (.string k) span) with
  | error => rfl
  | ok q => exact hvalue q

/-- **Items add their constants**, one after the other, or there is no room for one of them. -/
theorem adds_items {vs : List Value}
    (h : ∀ v ∈ vs, ∀ p : Program, p.constants.size ≤ maxOperand + 1 →
      Adds p v.constants v.width (lower v p))
    (hp : p.constants.size ≤ maxOperand + 1) :
    Adds p (Value.itemConstants vs) (Value.itemWidth vs) (lowerItems vs p) := by
  induction vs generalizing p with
  | nil => exact adds_self hp
  | cons v vs ih =>
    obtain ⟨hv, hvs⟩ := List.forall_mem_cons.mp h
    rw [lowerItems_cons]
    exact (hv p hp).bind fun q hq => ih hvs hq

/-- **Fields add their constants** and one for each name, or there is no room for one of them. -/
theorem adds_fields {span : Span} {fs : Entries Value}
    (h : ∀ e ∈ fs, ∀ p : Program, p.constants.size ≤ maxOperand + 1 →
      Adds p e.2.constants e.2.width (lower e.2 p))
    (hp : p.constants.size ≤ maxOperand + 1) :
    Adds p (Value.fieldConstants fs) (Value.fieldWidth fs) (lowerFields span fs p) := by
  induction fs generalizing p with
  | nil => exact adds_self hp
  | cons e fs ih =>
    obtain ⟨he, hfs⟩ := List.forall_mem_cons.mp h
    rw [lowerFields_cons, Value.fieldConstants, Value.fieldWidth, ← Nat.zero_max (max _ _)]
    exact (adds_emitPush p _ _).bind fun q hq => (he q hq).bind fun r hr => ih hfs hr

/-- **Lowering adds the constants of the expression**, unless it is too large. -/
theorem adds_lower {unsigned : Bool} {v : Value} (hv : v.Legible unsigned)
    (hp : p.constants.size ≤ maxOperand + 1) : Adds p v.constants v.width (lower v p) := by
  induction hv generalizing p with
  | atom => exact adds_emitPush p _ _
  | sequence _ ih =>
    rw [lower]
    exact (adds_items (fun v hv p hp => ih v hv hp) hp).count _ _ _
  | record _ _ _ _ ih =>
    rw [lower]
    exact (adds_fields (fun e he p hp => ih e he hp) hp).count _ _ _
  | binary _ _ ihl ihr =>
    rw [lower]
    exact (ihl hp).bind fun q hq => (ihr hq).emit _ _
  | neg _ ih =>
    rw [lower]
    exact (ih hp).emit _ _

/-- A legible expression has a program exactly if it is not too large. -/
theorem ofValue_cases {unsigned : Bool} {v : Value} (hv : v.Legible unsigned) :
    (v.Fits ∧ ∃ p, ofValue v = .ok p) ∨ (¬v.Fits ∧ ∃ f, IsTooLarge f ∧ ofValue v = .error f) := by
  have hadds := adds_lower (p := {}) hv (Nat.zero_le _)
  have hzero : ({} : Program).constants.size + v.constants = v.constants := Nat.zero_add _
  cases hlower : lower v {} with
  | ok q =>
    rw [hlower] at hadds
    obtain ⟨hsize, hroom, hwidth⟩ := hadds
    rw [hsize, hzero] at hroom
    refine .inl ⟨⟨hroom, hwidth⟩, { q with code := q.code.push Opcode.halt.byte }, ?_⟩
    rw [ofValue, hlower]
    rfl
  | error f =>
    rw [hlower] at hadds
    obtain ⟨hfault, hbound⟩ := hadds
    rw [hzero] at hbound
    refine .inr ⟨?_, f, hfault, ?_⟩
    · rintro ⟨hconstants, hwidth⟩
      rcases hbound with hbound | hbound
      · exact Nat.not_le_of_lt hbound hconstants
      · exact Nat.not_le_of_lt hbound hwidth
    · rw [ofValue, hlower]
      rfl

end Program

/-! ## Both ways of evaluating -/

/-- What evaluating by a program comes to, for a text that can be read. -/
theorem Evaluator.evaluate_bytecode {text : String} {v : Value} (h : Value.ofSource text = .ok v)
    (c : Context) :
    (Evaluator.evaluate {} text c .bytecode).1 = (Program.ofValue v).bind fun p => p.run c := by
  have hprogram : Program.ofSource text = Program.ofValue v := by
    rw [Program.ofSource, h]
    rfl
  have hnone : ({} : Evaluator).programs.get? text = none := rfl
  rw [evaluate, program, hnone]
  dsimp only
  rw [hprogram]
  cases Program.ofValue v <;> rfl

/-- **An expression has a program exactly if it is not too large.**  Then evaluating it by the program
    comes to the same end as evaluating it on the tree, in every context; if it is too large, it can be
    evaluated on the tree only. -/
theorem lowers_iff_fits {text : String} {v : Value} (h : Value.ofSource text = .ok v) :
    ((∃ p, Program.ofValue v = .ok p) ↔ v.Fits) ∧
      (∀ f, Program.ofValue v = .error f → Program.IsTooLarge f ∧ f.code = 507) ∧
      ∀ c, if v.Fits
        then (Evaluator.evaluate {} text c .bytecode).1 = (Evaluator.evaluate {} text c .treeWalk).1
        else ∃ f, Program.IsTooLarge f ∧ (Evaluator.evaluate {} text c .bytecode).1 = .error f := by
  have hlegible := Value.legible_of_ofSource h
  rcases Program.ofValue_cases hlegible with ⟨hfits, p, hp⟩ | ⟨hfits, f, hf, hp⟩
  · refine ⟨iff_of_true ⟨p, hp⟩ hfits, fun f hf => ?_, fun c => ?_⟩
    · rw [hp] at hf
      cases hf
    · have htree : (Evaluator.evaluate {} text c .treeWalk).1 = v.evaluate c := by
        show evaluateTree text c = _
        rw [evaluateTree, h]
        rfl
      rw [if_pos hfits, Evaluator.evaluate_bytecode h, hp, htree]
      exact Program.run_eq_evaluate hlegible.wellFormed hp c
  · refine ⟨iff_of_false ?_ hfits, fun g hg => ?_, fun c => ?_⟩
    · rintro ⟨p, hp'⟩
      rw [hp] at hp'
      cases hp'
    · rw [hp] at hg
      cases hg
      obtain ⟨span, rfl⟩ := hf
      exact ⟨⟨span, rfl⟩, rfl⟩
    · rw [if_neg hfits, Evaluator.evaluate_bytecode h, hp]
      exact ⟨f, hf, rfl⟩

theorem lowers_iff_fits_nested : ∃ v, Value.ofSource "\x7ba: 1, b: [x, -2]\x7d" = .ok v ∧ v.Fits ∧
    (∃ p, Program.ofValue v = .ok p) ∧ ∀ c,
      (Evaluator.evaluate {} "\x7ba: 1, b: [x, -2]\x7d" c .bytecode).1
        = (Evaluator.evaluate {} "\x7ba: 1, b: [x, -2]\x7d" c .treeWalk).1 := by
  have hread : ((Value.ofSource "\x7ba: 1, b: [x, -2]\x7d").toOption.filter fun v => decide v.Fits).isSome := by
    decide +kernel
  obtain ⟨v, hv⟩ := Option.isSome_iff_exists.mp hread
  obtain ⟨hv, hfits⟩ := Option.filter_eq_some_iff.mp hv
  have h := eq_ok_of_toOption hv
  have hfits : v.Fits := of_decide_eq_true hfits
  obtain ⟨hlowers, -, hruns⟩ := lowers_iff_fits h
  refine ⟨v, h, hfits, hlowers.mpr hfits, fun c => ?_⟩
  have hrun := hruns c
  rwa [if_pos hfits] at hrun

/-! ## An array that is too wide -/

section Wide

open Grammar

/-- `n + 1` zeros with commas between them. -/
def zeros : Nat → List Char
  | 0 => ['0']
  | n + 1 => '0' :: ',' :: zeros n

/-- The text of an array of 65536 zeros. -/
def wideText : String := String.ofList ('[' :: (zeros 65535 ++ [']']))

/-- The word of a zero. -/
def zeroWord : Word := ⟨[], .number "0", ['0']⟩

/-- Zeros with commas between them are the items of an array. -/
theorem items_zeros (n : Nat) : ∃ ws, Shown (zeros n) ws ∧
    Items (some 1) ws (List.replicate (n + 1) (.atom (.int 0) .none)) := by
  have hdigits : ∀ c ∈ ['0'], c.isDigit := by
    intro c hc
    rw [List.mem_singleton.mp hc]
    rfl
  have hzero : Shown ['0'] [zeroWord] := shown_digits (List.cons_ne_nil _ _) hdigits
  have hexpression : IsExpression (some 1) [zeroWord] (.atom (.int 0) .none) :=
    (isFactor_number (d := some 0) rfl (by decide +kernel)).isExpression
  induction n with
  | zero => exact ⟨_, hzero, .last hexpression⟩
  | succ n ih =>
    obtain ⟨ws, hws, hitems⟩ := ih
    have hmore : Shown (',' :: zeros n) (Mark.comma.word :: ws) :=
      hws.behind_mark (m := .comma) (by decide)
    exact ⟨_, hzero.append hmore (quiet_cons (by decide) (by decide) _), .cons hexpression rfl hitems⟩

/-- The array is read. -/
theorem ofSource_wideText : ∃ v, Value.ofSource wideText = .ok v ∧
    v.bare = .sequence .array (List.replicate 65536 (.atom (.int 0) .none)) .none := by
  obtain ⟨ws, hws, hitems⟩ := items_zeros 65535
  have hshown : Shown ('[' :: (zeros 65535 ++ [']']))
      (Mark.openBracket.word :: (ws ++ [Mark.closeBracket.word])) :=
    (hws.before_mark (m := .closeBracket) (by decide)).behind_mark (m := .openBracket) (by decide)
  have hfactor : IsFactor (some 2) (Mark.openBracket.word :: (ws ++ [Mark.closeBracket.word]))
      (.sequence .array (List.replicate 65536 (.atom (.int 0) .none)) .none) :=
    isFactor_array (d := some 1) rfl hitems rfl
  refine Value.ofSource_of_words ?_ (hshown.cut quiet_nil) (hfactor.isExpression.mono fun n hn => ?_)
  · rw [wideText, String.toList_ofList, hshown.written]
  · exact Nat.lt_of_lt_of_le hn (by decide)

/-- Zeros are their own values. -/
theorem evaluateItems_zeros (c : Context) {n : Nat} {vs : List Value}
    (h : vs.map Value.bare = List.replicate n (.atom (.int 0) .none)) :
    Value.evaluateItems c vs = .ok vs := by
  induction n generalizing vs with
  | zero =>
    rw [List.map_eq_nil_iff.mp h]
    rfl
  | succ n ih =>
    obtain ⟨v, us, rfl, hv, hus⟩ := List.map_eq_cons_iff.mp h
    obtain ⟨span, rfl⟩ : ∃ span, v = .atom (.int 0) span := by
      cases v <;> cases hv
      exact ⟨_, rfl⟩
    have hvalue : Value.evaluate c (.atom (.int 0) span) = .ok (.atom (.int 0) span) := rfl
    rw [Value.evaluateItems, hvalue, ih hus]
    rfl

/-- **Not every expression has a program**: an array of 65536 zeros can be read, and evaluated on the
    tree in every context, but it is too large to be lowered. -/
theorem wideText_not_lowered : ∃ v, Value.ofSource wideText = .ok v ∧
    (∀ c, ∃ w, (Evaluator.evaluate {} wideText c .treeWalk).1 = .ok w) ∧
      ∀ p, Program.ofValue v ≠ .ok p := by
  obtain ⟨v, hv, hbare⟩ := ofSource_wideText
  obtain ⟨kind, items, span, rfl⟩ : ∃ kind items span, v = .sequence kind items span := by
    cases v <;> first | exact ⟨_, _, _, rfl⟩ | cases hbare
  rw [Value.bare, Value.bareItems_eq_map] at hbare
  injection hbare with _ hitems
  refine ⟨_, hv, fun c => ⟨.sequence kind items span, ?_⟩, fun p hp => ?_⟩
  · show evaluateTree wideText c = _
    rw [evaluateTree, hv]
    show Value.evaluate c (.sequence kind items span) = _
    rw [Value.evaluate, evaluateItems_zeros c hitems]
    rfl
  · rcases Program.ofValue_cases (Value.legible_of_ofSource hv) with ⟨hfits, -⟩ | ⟨-, f, -, hf⟩
    · have hlength : items.length = 65536 := by
        rw [← List.length_map (f := Value.bare), hitems, List.length_replicate]
      have hwidth := Nat.le_trans (Nat.le_max_right _ _) hfits.width
      omega
    · rw [hf] at hp
      cases hp

end Wide

end Yini
