import Yini.Arithmetic
import Yini.Fault.Report

/-!
What the operations give.  A result is a number or a text at the place of the operation, so an
operation never gives a reference (`Value.combine_eq_ok`, `Value.opposite_eq_ok`).  The codes of its
faults are those from 501 to 504, so it never fails for a reason that is not its own.
-/

namespace Yini

/-- A number or a text: what an operation can give. -/
def Atom.isResult : Atom → Bool
  | .int _ => true
  | .float _ => true
  | .string _ => true
  | _ => false

namespace Value

/-- **An operation on two values gives a number or a text**, at its own place. -/
theorem combine_eq_ok {l r v : Value} {op : BinaryOp} {span : Span}
    (h : l.combine op r span = .ok v) : ∃ a : Atom, a.isResult ∧ v = .atom a span := by
  unfold combine at h
  split at h
  · -- both are integers
    split at h
    · cases h
    · split at h
      · cases h; exact ⟨_, rfl, rfl⟩
      · cases h
  · split at h
    · -- one of them is a text
      split at h
      · cases h; exact ⟨_, rfl, rfl⟩
      · cases h
    · split at h
      · split at h
        · cases h
        · cases h; exact ⟨_, rfl, rfl⟩
      · cases h

/-- **The opposite of a value is a number**, at its own place. -/
theorem opposite_eq_ok {v w : Value} {span : Span} (h : v.opposite span = .ok w) :
    ∃ a : Atom, a.isResult ∧ w = .atom a span := by
  unfold opposite at h
  split at h
  · split at h
    · cases h; exact ⟨_, rfl, rfl⟩
    · cases h
  · cases h; exact ⟨_, rfl, rfl⟩
  · cases h

theorem code_of_combine_eq_error {l r : Value} {op : BinaryOp} {span : Span} {f : Fault}
    (h : l.combine op r span = .error f) : 501 ≤ f.code ∧ f.code ≤ 503 := by
  unfold combine at h
  split at h
  · split at h
    · cases h; simp [Fault.code, EvaluationCause.code]
    · split at h
      · cases h
      · cases h; simp [Fault.code, EvaluationCause.code]
  · split at h
    · split at h
      · cases h
      · cases h; simp [Fault.code, EvaluationCause.code]
    · split at h
      · split at h
        · cases h; simp [Fault.code, EvaluationCause.code]
        · cases h
      · cases h; simp [Fault.code, EvaluationCause.code]

theorem code_of_opposite_eq_error {v : Value} {span : Span} {f : Fault}
    (h : v.opposite span = .error f) : 503 ≤ f.code ∧ f.code ≤ 504 := by
  unfold opposite at h
  split at h
  · split at h
    · cases h
    · cases h; simp [Fault.code, EvaluationCause.code]
  · cases h
  · cases h; simp [Fault.code, EvaluationCause.code]

end Value

end Yini
