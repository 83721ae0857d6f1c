import Yini.Proofs.Resolve.Whole

/-!
The check for cycles is exact: a document that cannot be resolved because something depends on itself
has a cycle that can be reached from a root, and a document with such a cycle cannot be resolved
(`resolve_detects_cycles`).  The rules of schemas belong to the roots: a cycle that only they lead to
is found as well (`schemaLoop_refused`).
-/

namespace Yini

namespace Document

/-- In a document that can be resolved, every root is grounded. -/
theorem grounded_of_resolve {p : Providers} {d r : Document} (h : d.resolve p = .ok r) :
    ∀ n ∈ d.gatherMacros.roots, d.gatherMacros.Grounded n := by
  obtain ⟨q, -, hsound, hcomplete⟩ := resolve_sound h
  exact fun n hn => hsound.grounded n (hcomplete.done_of_root hn)

/-- **Cycle detection is exact.**  A document with a cycle that can be reached from a root cannot be
    resolved; and if it cannot be resolved because something depends on itself, there is such a
    cycle. -/
theorem resolve_detects_cycles (p : Providers) (d : Document) :
    (d.gatherMacros.Cyclic → ∃ f, d.resolve p = .error f) ∧
      ∀ f, d.resolve p = .error f → f.code = 302 ∨ f.code = 304 → d.gatherMacros.Cyclic := by
  refine ⟨fun hcyclic => ?_, fun f hf hcode => cyclic_of_resolve_error hf ?_⟩
  · cases h : d.resolve p with
    | error f => exact ⟨f, rfl⟩
    | ok r => exact absurd hcyclic (not_cyclic_of_grounded (grounded_of_resolve h))
  · simpa [Fault.circular] using hcode

/-- A section with special meaning that refers to itself, and a schema whose rule refers to it. -/
def schemaLoop : Document where
  sections := .ofList [("#x", { name := "#x", properties := .ofList [("a", loop)] })]
  schemas := .ofList [("T", {
    name := "T",
    properties := .ofList [("y", .rule ⟨.optional, some "int", .ignore⟩ (some loop) none none .none)] })]
where
  /-- The reference to the section. -/
  loop : Value := .atom (.reference ⟨.crossSection, "#x.a"⟩) .none

/-- A cycle that only the rules of schemas lead to is found as well. -/
theorem schemaLoop_refused :
    (∃ f, schemaLoop.resolve .none = .error f ∧ f.code = 304) ∧
      ¬schemaLoop.gatherMacros.CyclicFrom schemaLoop.gatherMacros.dataRoots := by
  constructor
  · have hcode : (fault? (schemaLoop.resolve .none)).map Fault.code = some 304 := by decide +kernel
    obtain ⟨f, hf, hcode⟩ := Option.map_eq_some_iff.mp hcode
    exact ⟨f, eq_error_of_fault? hf, hcode⟩
  · have hroots : schemaLoop.gatherMacros.dataRoots = [] := by decide +kernel
    rw [hroots]
    rintro ⟨start, hstart, -⟩
    exact absurd hstart List.not_mem_nil

end Document

end Yini
