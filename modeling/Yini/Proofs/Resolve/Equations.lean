import Yini.Proofs.Resolve.Whole

/-!
What a resolved document holds.

A section without special meaning holds the values of its own expressions, read from the resolved
document itself, and under every other name what its first parent with that name holds
(`resolve_equations`).  In which order the resolver came to them does not show, with one exception:
when a macro has the name of a property that `[#define]` inherits, the property is overwritten when
the macro is resolved, and those who read it before have another value (`overwritten_resolve`).
-/

namespace Yini

namespace Document

/-! ## Contested properties of a declared document -/

/-- Gathering the macros contests nothing new: the macros that come in are declared. -/
theorem contested_gatherMacros (d : Document) (k : String) :
    d.gatherMacros.contested k = d.contested k := by
  have hget : d.gatherMacros.get? defineName k = d.get? defineName k := by
    rw [get?, sections_gatherMacros, ← get?]
  rw [contested, contested, hget, Table.contains, Table.contains, get?_macros_gatherMacros]
  cases d.get? defineName k <;> simp

theorem steady_gatherMacros (d : Document) (v : Value) : v.steady d.gatherMacros = v.steady d :=
  Value.steady_congr (contested_gatherMacros d) v

/-! ## The equations -/

/-- The section `t` of the resolved document `r` solves the equations of its declaration `s` in the
    document `d`.  An expression that refers to a contested property of `[#define]` may have another
    value, and so may a contested property that comes from there. -/
structure Solves (p : Providers) (d r : Document) (s t : Section) : Prop where
  /-- The registry is the declared one, evaluated entry by entry; nothing is inherited. -/
  registry : List.Forall₂ (fun e v => e.steady d → e.meaning (r.read p) = .ok v)
    s.registry t.registry
  /-- A declared property is there, with the value of its expression. -/
  declared : ∀ k e, s.properties.get? k = some e → ∃ v, t.properties.get? k = some v ∧
    (e.steady d → e.meaning (r.read p) = .ok v)
  /-- A name that no parent has is not there. -/
  absent : ∀ k, s.properties.get? k = none →
    s.parents.find? (fun parent => (r.get? parent k).isSome) = none → t.properties.get? k = none
  /-- Any other name stands for what the first parent has under it. -/
  inherited : ∀ k, s.properties.get? k = none → ∀ parent,
    s.parents.find? (fun parent => (r.get? parent k).isSome) = some parent →
      (t.properties.get? k).isSome ∧
        ((parent = defineName → d.contested k = false) → t.properties.get? k = r.get? parent k)

/-- **A resolved document solves the equations that were declared**, in every section without special
    meaning. -/
theorem resolve_equations {p : Providers} {d r : Document} (h : d.resolve p = .ok r) {n : String}
    {s : Section} (hs : d.sections.get? n = some s) (hn : Section.isSpecialName n = false) :
    ∃ t, r.sections.get? n = some t ∧ Solves p d r s t := by
  obtain ⟨q, rfl, hsound, hcomplete⟩ := resolve_sound h
  have hs' : d.gatherMacros.sections.get? n = some s := by rwa [sections_gatherMacros]
  have hmem : n ∈ d.gatherMacros.sections.keys :=
    Table.contains_iff.mp (by rw [Table.contains, hs']; rfl)
  obtain ⟨s', t, hs'', ht, hsolved⟩ := hsound.doneSection n (hcomplete.sections n hmem hn)
  obtain rfl : s = s' := Option.some.inj (hs'.symm.trans hs'')
  refine ⟨t, ht, ?_, fun k e he => ?_, fun k hnone hfirst => ?_, fun k hnone parent hfirst => ?_⟩
  · exact hsolved.registry.imp fun e v heval hsteady => heval.means (by rwa [steady_gatherMacros])
  · obtain ⟨v, hv, heval⟩ := hsolved.declared k e he
    exact ⟨v, hv, fun hsteady => heval.means (by rwa [steady_gatherMacros])⟩
  · -- no parent has the name
    have hinherited := hsolved.inherited k hnone
    rwa [Progress.Inherited, hfirst] at hinherited
  · -- `parent` is the first one that has it
    have hinherited := hsolved.inherited k hnone
    rw [Progress.Inherited, hfirst] at hinherited
    obtain ⟨v, hv, -, hvalue⟩ := hinherited
    refine ⟨by rw [hv]; rfl, fun hparent => ?_⟩
    have hdefine : n ≠ defineName := by
      rintro rfl
      exact absurd hn (by decide)
    have hsettled : d.gatherMacros.contested k → n ≠ defineName ∧ parent ≠ defineName := by
      intro hcontested
      refine ⟨hdefine, fun heq => ?_⟩
      rw [contested_gatherMacros, hparent heq] at hcontested
      cases hcontested
    rw [hv, hvalue hsettled]

/-- A section that adds to what its parent holds, and inherits it as well. -/
def window : Document where
  sections := .ofList [("Window", inner), ("Base", base)]
where
  /-- The section. -/
  inner : Section := {
    name := "Window"
    parents := ["Base"]
    properties := .ofList [("outer", .binary (.atom (.reference ⟨.crossSection, "Base.width"⟩) .none)
      .add (.atom (.int 2) .none) .none)] }
  /-- Its parent. -/
  base : Section := { name := "Base", properties := .ofList [("width", .atom (.int 8) .none)] }

/-- A section that uses a property of its parent and inherits it as well. -/
theorem resolve_equations_window : ∃ r, window.resolve .none = .ok r ∧
    window.sections.get? "Window" = some window.inner ∧ Section.isSpecialName "Window" = false ∧
      ∃ t, r.sections.get? "Window" = some t ∧ Solves .none window r window.inner t := by
  have hok : (window.resolve .none).toOption.isSome := by decide +kernel
  obtain ⟨r, hr⟩ := Option.isSome_iff_exists.mp hok
  have h := eq_ok_of_toOption hr
  exact ⟨r, h, rfl, rfl, resolve_equations h rfl rfl⟩

/-- A section that inherits from `[#define]`, which inherits a property with the name of a macro.  The
    macro that is resolved first refers to the section. -/
def overwritten : Document where
  sections := .ofList [
    ("#define", { name := "#define", parents := ["Base"] }),
    ("S", { name := "S", parents := ["#define"] }),
    ("Base", { name := "Base", properties := .ofList [("x", .atom (.int 1) .none)] })]
  macros := .ofList [
    ("a", .atom (.reference ⟨.crossSection, "S.x"⟩) .none),
    ("x", .atom (.int 5) .none)]

/-- What is inherited from a contested property need not be what it ends with. -/
theorem overwritten_resolve :
    overwritten.get? "S" "x" = none ∧
      (overwritten.sections.get? "S").map (·.parents) = some ["#define"] ∧
        ∃ r, overwritten.resolve .none = .ok r ∧ (r.get? "S" "x").bind Value.int? = some 1 ∧
          (r.get? "#define" "x").bind Value.int? = some 5 := by
  have hvalues : (overwritten.resolve .none).toOption.map
      (fun r => ((r.get? "S" "x").bind Value.int?, (r.get? "#define" "x").bind Value.int?))
        = some (some 1, some 5) := by decide +kernel
  obtain ⟨r, hr, hvalues⟩ := Option.map_eq_some_iff.mp hvalues
  obtain ⟨hs, hdefine⟩ := Prod.mk.inj hvalues
  exact ⟨rfl, rfl, r, eq_ok_of_toOption hr, hs, hdefine⟩

end Document

end Yini
