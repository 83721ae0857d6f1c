import Yini.Proofs.Grammar.Run

/-!
What stays true while a source is read, and what reading costs.

A `Pace` is a property of the states of a parser that every step keeps.  It may count: an operator that
is taken leads to the next count, and nothing else does.  A rule `Leads` from each state of the pace to
another one, and gives a result with a property in which the difference of the counts may occur.

Rules that give no value take no operator, whatever the pace is (`Passes`).
-/

namespace Yini

namespace Parser

variable {p : Parser}

theorem rest_advance : p.advance.rest = p.rest.tail := by
  cases hrest : p.rest with
  | nil => rw [advance_of_nil hrest, hrest, List.tail_nil]
  | cons l ls => exact (advance_of_rest hrest).1

theorem finish_advance : p.advance.finish = p.finish := by
  cases hrest : p.rest with
  | nil => rw [advance_of_nil hrest]
  | cons l ls => exact (advance_of_rest hrest).2.2.2.1

theorem file_advance : p.advance.file = p.file := by
  cases hrest : p.rest with
  | nil => rw [advance_of_nil hrest]
  | cons l ls => exact (advance_of_rest hrest).2.2.2.2.2

end Parser

namespace Grammar

variable {α β : Type} {Q : α → Nat → Prop} {R : β → Nat → Prop} {x : Grammar α} {f : α → Grammar β}

/-! ## Paces -/

/-- Whether a token joins two operands. -/
def joins (t : Token) : Bool := (termOp? t).isSome || (factorOp? t).isSome

/-- **What every step of reading keeps**, with a count of the operators on the way. -/
structure Pace where
  At : Nat → Parser → Prop
  advance : ∀ {k p}, At k p → At k p.advance
  /-- The kind of the sections to come makes no difference. -/
  turn : ∀ {k p} (mode : Bool), At k p → At k { p with schemaMode := mode }
  spend : ∀ {k p}, joins p.current.token → At k p → At (k + 1) p.advance

variable {K : Pace}

/-- What does not count operators. -/
def Pace.steady (S : Parser → Prop) (advance : ∀ {p}, S p → S p.advance)
    (turn : ∀ {p} (mode : Bool), S p → S { p with schemaMode := mode }) : Pace where
  At _ := S
  advance := advance
  turn := turn
  spend _ := advance

/-- **Reading on.**  From a state of the pace the rule leads to one with another count, and its result
    and the difference have the property. -/
def Leads (K : Pace) (x : Grammar α) (Q : α → Nat → Prop) : Prop :=
  ∀ k p a q, K.At k p → x p = .ok a q → ∃ j, K.At (k + j) q ∧ Q a j

/-- A rule that takes no operator, and whose result does not matter. -/
abbrev Passes (K : Pace) (x : Grammar α) : Prop := Leads K x fun _ j => j = 0

/-- **One rule after the other**: the second goes on with the count that the first has come to. -/
theorem Leads.bind (h : Leads K x Q) (hf : ∀ a j, Q a j → Leads K (f a) fun b i => R b (j + i)) :
    Leads K (x >>= f) R := by
  intro k p b q hp hrun
  obtain ⟨a, q₁, ha, hrun⟩ := bind_eq_ok.mp hrun
  obtain ⟨j, hq₁, hj⟩ := h k p a q₁ hp ha
  obtain ⟨i, hq, hi⟩ := hf a j hj (k + j) q₁ b q hq₁ hrun
  exact ⟨j + i, Nat.add_assoc k j i ▸ hq, hi⟩

/-- A rule that takes no operator may come first. -/
theorem Leads.then (h : Passes K x) (hf : ∀ a, Leads K (f a) R) : Leads K (x >>= f) R := by
  refine h.bind ?_
  rintro a j rfl
  simp only [Nat.zero_add]
  exact hf a

theorem Leads.imp {Q' : α → Nat → Prop} (h : Leads K x Q) (hQ : ∀ a j, Q a j → Q' a j) :
    Leads K x Q' := by
  intro k p a q hp hrun
  obtain ⟨j, hq, hj⟩ := h k p a q hp hrun
  exact ⟨j, hq, hQ a j hj⟩

theorem leads_pure {a : α} (h : Q a 0) : Leads K (pure a) Q := by
  intro k p b q hp hrun
  cases hrun
  exact ⟨0, hp, h⟩

theorem leads_fail {cause : ParseCause} : Leads K (fail cause) Q :=
  fun _ _ _ _ _ hrun => by cases hrun

/-- Nothing follows what fails. -/
theorem leads_fail_bind {cause : ParseCause} : Leads K (fail cause >>= f) R :=
  (leads_fail (Q := fun _ _ => False)).bind fun _ _ hno => hno.elim

theorem leads_throw {fault : Fault} : Leads K (throw fault) Q := by
  intro k p a q _ hrun
  cases hrun

/-! ## Rules without values -/

theorem passes_bump : Passes K bump := by
  intro k p a q hp hrun
  cases hrun
  exact ⟨0, K.advance hp, rfl⟩

theorem passes_turn (mode : Bool) : Passes K (modify ({ · with schemaMode := mode })) := by
  intro k p a q hp hrun
  cases hrun
  exact ⟨0, K.turn mode hp, rfl⟩

theorem passes_get : Passes K get := by
  intro k p a q hp hrun
  cases hrun
  exact ⟨0, hp, rfl⟩

theorem passes_peek : Passes K peek := passes_get.then fun _ => leads_pure rfl

theorem passes_here : Passes K here := passes_get.then fun _ => leads_pure rfl

theorem passes_remaining : Passes K remaining := passes_get.then fun _ => leads_pure rfl

theorem passes_sees (m : Mark) : Passes K (sees m) := passes_peek.then fun _ => leads_pure rfl

/-- Taking a mark that may be there keeps the count. -/
theorem passes_eat (m : Mark) : Passes K (eat m) := by
  refine (passes_sees m).then fun seen => ?_
  cases seen with
  | true => exact passes_bump.then fun _ => leads_pure rfl
  | false => exact leads_pure rfl

/-- Taking a mark that must be there keeps the count. -/
theorem passes_expect (m : Mark) (wanted : Wanted) : Passes K (expect m wanted) := by
  refine (passes_eat m).then fun eaten => ?_
  cases eaten with
  | true => exact leads_pure rfl
  | false => exact leads_fail

/-- Taking a name that must be there keeps the count. -/
theorem passes_expectName (wanted : Wanted) : Passes K (expectName wanted) := by
  refine passes_peek.then fun t => ?_
  cases t with
  | ident => exact passes_here.then fun _ => passes_bump.then fun _ => leads_pure rfl
  | _ => exact leads_fail

/-- The pieces of a color keep the count, round by round. -/
theorem passes_hexDigits (n : Nat) (digits : String) : Passes K (hexDigits n digits) := by
  induction n generalizing digits with
  | zero => exact leads_pure rfl
  | succ n ih =>
    refine passes_get.then fun p => ?_
    dsimp only
    generalize (if digits.utf8ByteSize < 6 && p.isAdjacent then _ else none : Option String) = piece
    cases piece with
    | none => exact leads_pure rfl
    | some text => exact passes_bump.then fun _ => ih _

/-- The parts of a key keep the count, round by round. -/
theorem passes_keyParts (n : Nat) (key : String) : Passes K (keyParts n key) := by
  induction n generalizing key with
  | zero => exact leads_pure rfl
  | succ n ih =>
    refine (passes_eat _).then fun more => ?_
    cases more with
    | true => exact (passes_expectName _).then fun _ => ih _
    | false => exact leads_pure rfl

/-- The parts of a name keep the count, round by round. -/
theorem passes_nameParts (n : Nat) (name : String) : Passes K (nameParts n name) := by
  induction n generalizing name with
  | zero => exact leads_pure rfl
  | succ n ih =>
    refine passes_get.then fun p => ?_
    dsimp only
    generalize (if p.current.token = .mark .point then _ else none : Option String) = part
    cases part with
    | none => exact leads_pure rfl
    | some text => exact passes_bump.then fun _ => passes_bump.then fun _ => ih _

theorem passes_elementType (name : String) : Passes K (elementType name) := by
  refine (passes_sees _).then fun opened => passes_get.then fun p => ?_
  dsimp only
  split
  · refine passes_bump.then fun _ => (passes_expectName _).then fun _ => ?_
    exact (passes_expect _ _).then fun _ => leads_pure rfl
  · exact leads_pure rfl

/-- The names of parents keep the count, one after the other. -/
theorem passes_parentsFrom (n : Nat) (before : List String) : Passes K (parentsFrom n before) := by
  induction n generalizing before with
  | zero => exact leads_pure rfl
  | succ n ih =>
    refine (passes_expectName _).then fun name => (passes_eat _).then fun more => ?_
    cases more with
    | true => exact ih _
    | false => exact leads_pure rfl

theorem passes_parents : Passes K parents := by
  refine (passes_eat _).then fun more => ?_
  cases more with
  | true => exact passes_remaining.then fun n => passes_parentsFrom (n + 1) []
  | false => exact leads_pure rfl

end Grammar

end Yini
