import Yini.Proofs.Resolve.Again

/-!
What is kept in a resolved document, and what is left.

No section, no property and no entry of a registry is lost (`kept_of_resolve`).  Neither a reference
nor an operation is left in a macro, in a section without a special name, or in a rule of a schema
(`resolve_plain`).  The table of macros agrees with `[#define]` on all that `[#define]` declares.  It
need not agree on what `[#define]` inherits, for the macros are gathered before anything is inherited
(`inheritedMacro_lacking`).
-/

namespace Yini

/-! ## What resolving keeps -/

/-- Nothing of the first section is missing in the second. -/
structure Section.Kept (s t : Section) : Prop where
  name : t.name = s.name
  parents : t.parents = s.parents
  properties : ∀ k, s.properties.contains k → t.properties.contains k
  registry : t.registry.length = s.registry.length

namespace Progress

variable {p : Providers} {d : Document} {q : Progress} {s t : Section}

/-- A schema section keeps its rules, with values in them. -/
theorem SchemaEvaluated.kept (h : SchemaEvaluated d p q s t) : s.Kept t := by
  obtain ⟨hname, hparents⟩ := Prod.mk.inj h.heading
  refine ⟨hname, hparents, fun k hk => ?_, by rw [h.registry]⟩
  obtain ⟨v, hv⟩ := Option.isSome_iff_exists.mp hk
  have hrule := h.rules k
  rw [hv] at hrule
  obtain ⟨w, hw, -⟩ := hrule
  rw [Table.contains, hw]
  rfl

/-- A section keeps what it declares, whether it is done or still waits. -/
theorem Sound.kept (h : Sound d p (.all d) q) {n : String} (hs : d.sections.get? n = some s)
    (ht : q.document.sections.get? n = some t) : s.Kept t := by
  have hheading := h.headings n
  rw [hs, ht] at hheading
  obtain ⟨hname, hparents⟩ := Prod.mk.inj (Option.some.inj hheading)
  refine ⟨hname, hparents, fun k hk => ?_, ?_⟩
  · obtain ⟨v, hv⟩ := Option.isSome_iff_exists.mp hk
    have hdeclared := Document.isSome_of_declared h hs hv
    rwa [Document.get?, ht] at hdeclared
  · by_cases hdone : n ∈ q.doneSections
    · obtain ⟨s', t', hs', ht', hsolved⟩ := h.doneSection n hdone
      obtain rfl := Option.some.inj (hs.symm.trans hs')
      obtain rfl := Option.some.inj (ht.symm.trans ht')
      exact hsolved.registry.length_eq.symm
    · have hidle : n ∈ (Idle.all d).sections :=
        Table.contains_iff.mp (by rw [Table.contains, hs]; rfl)
      rw [(h.waitingSection n hidle hdone s t hs ht).registry]

end Progress

namespace Document

open Progress

variable {p : Providers} {d r : Document}

/-- **Resolving takes no section away and nothing out of one.** -/
theorem kept_of_resolve (h : d.resolve p = .ok r) :
    d.sections.Match Section.Kept r.sections ∧ d.schemas.Match Section.Kept r.schemas := by
  obtain ⟨q, rfl, hsound, hcomplete⟩ := resolve_sound h
  rw [← d.sections_gatherMacros, ← d.schemas_gatherMacros]
  refine ⟨fun n => ?_, hcomplete.schemas.imp fun _ _ _ _ _ hst => hst.kept⟩
  cases hs : d.gatherMacros.sections.get? n with
  | none =>
    rw [hsound.get?_of_missing hs]
    exact .none
  | some s =>
    obtain ⟨t, ht, -⟩ := hsound.exists_section hs
    rw [ht]
    exact .some (hsound.kept hs ht)

/-! ## What resolving leaves -/

section Resolved

variable {q : Progress} (hsound : Sound d p (.all d) q) (hcomplete : Complete d p q)

include hsound hcomplete

/-- In a state that is complete, the contents of a section without special meaning are plain. -/
theorem plain_of_section {n : String} {t : Section} (ht : q.document.sections.get? n = some t)
    (hn : Section.isSpecialName n = false) : ∀ v ∈ t.contents, v.plain := by
  intro v hv
  obtain ⟨_, u, -, hu, hsolved⟩ := hsound.doneSection n (section_done hsound hcomplete ht hn)
  rw [ht] at hu
  cases hu
  exact hsolved.plain_contents hv

/-- What `[#define]` declares is there in the end, and it is the macro. -/
theorem agrees_of_declared (hd : d.Gathered) {k : String} (hk : (d.get? defineName k).isSome) :
    ∃ v, q.document.get? defineName k = some v ∧ q.document.macros.get? k = some v := by
  obtain ⟨e, he⟩ := Option.isSome_iff_exists.mp hk
  obtain ⟨s, hs, hget⟩ := Option.bind_eq_some_iff.mp he
  obtain ⟨v, hv⟩ := Option.isSome_iff_exists.mp (isSome_of_declared hsound hs hget)
  exact ⟨v, hv, macro_of_declared hsound hcomplete hd hs hget hv⟩

end Resolved

/-- **What resolving leaves.**  No reference and no operation is left in the macros, in the sections
    without a special name, and in the rules of schemas; and what `[#define]` declares is in the table
    of macros with the same value.  If `[#define]` has no parents, that is all it holds. -/
theorem resolve_plain (h : d.resolve p = .ok r) :
    (∀ v ∈ r.macros.values, v.plain) ∧
      (∀ n s, r.sections.get? n = some s → Section.isSpecialName n = false →
        ∀ v ∈ s.contents, v.plain) ∧
      (∀ s ∈ r.schemas.values, ∀ v ∈ s.properties.values, v.plain) ∧
      (∀ k, (d.get? defineName k).isSome →
        ∃ v, r.get? defineName k = some v ∧ r.macros.get? k = some v) ∧
      ((∀ s, d.sections.get? defineName = some s → s.parents = []) →
        ∀ k v, r.get? defineName k = some v → r.macros.get? k = some v) := by
  obtain ⟨q, rfl, hsound, hcomplete⟩ := resolve_sound h
  have hd := d.gathered_gatherMacros
  refine ⟨fun v hv => ?_, fun n t ht hn => plain_of_section hsound hcomplete ht hn,
    fun s hs => ?_, fun k hk => ?_, fun horphan => ?_⟩
  · obtain ⟨k, hk⟩ := Table.mem_values_iff.mp hv
    exact plain_of_macro hsound hcomplete hk
  · have hsettled := settled_of_complete hsound hcomplete hd
    rw [← schemas_gatherMacros] at hs
    exact hsettled.schemas s hs
  · apply agrees_of_declared hsound hcomplete hd
    rwa [get?, sections_gatherMacros]
  · apply gathered_of_orphan hsound hcomplete hd
    rwa [sections_gatherMacros]

/-- A document with a macro, a section that makes a list of what it adds to the macro, and a schema with
    a default value that is taken from the section. -/
def measured : Document where
  sections := .ofList [
    (defineName, { name := defineName, properties := .ofList [("unit", .atom (.int 4) .none)] }),
    ("Size", { name := "Size", properties := .ofList [("sides", .sequence .list [twice] .none)] })]
  schemas := .ofList [("Size", { name := "Size", properties := .ofList [("sides", sides)] })]
where
  /-- Twice the macro. -/
  twice : Value := .binary (.atom (.reference ⟨.macroName, "unit"⟩) .none) .mul (.atom (.int 2) .none) .none
  /-- The rule. -/
  sides : Value := .rule ⟨.optional, some "List", .fill⟩
    (some (.atom (.reference ⟨.crossSection, "Size.sides"⟩) .none)) none none .none

/-- A macro with a unit and a section that uses it. -/
theorem resolve_plain_measured : ∃ r, measured.resolve .none = .ok r ∧
    (measured.get? defineName "unit").isSome ∧
      (∃ v, r.get? defineName "unit" = some v ∧ r.macros.get? "unit" = some v) ∧
        ∃ s, r.sections.get? "Size" = some s ∧ ∀ v ∈ s.contents, v.plain := by
  have hok : ((measured.resolve .none).toOption.bind fun r => r.sections.get? "Size").isSome := by
    decide +kernel
  obtain ⟨s, hs⟩ := Option.isSome_iff_exists.mp hok
  obtain ⟨r, hr, hs⟩ := Option.bind_eq_some_iff.mp hs
  have h := eq_ok_of_toOption hr
  obtain ⟨-, hsections, -, hdefine, -⟩ := resolve_plain h
  exact ⟨r, h, rfl, hdefine "unit" rfl, s, hs, hsections "Size" s hs (by decide)⟩

/-- What `[#define]` inherits is not in the table of macros. -/
theorem inheritedMacro_lacking : ∃ r, inheritedMacro.resolve .none = .ok r ∧
    (r.get? defineName "x").bind Value.int? = some 1 ∧ r.macros.get? "x" = none := by
  have hvalues : (inheritedMacro.resolve .none).toOption.map
      (fun r => ((r.get? defineName "x").bind Value.int?, (r.macros.get? "x").isNone))
        = some (some 1, true) := by decide +kernel
  obtain ⟨r, hr, hvalues⟩ := Option.map_eq_some_iff.mp hvalues
  obtain ⟨hdefine, hmacro⟩ := Prod.mk.inj hvalues
  exact ⟨r, eq_ok_of_toOption hr, hdefine, Option.isNone_iff_eq_none.mp hmacro⟩

end Document

end Yini
