import Yini.Compile.Compiler
import Yini.Proofs.Compile.Include
import Yini.Proofs.Resolve.Legible

/-!
What a compiled document is like, whatever text or file it comes from: it can be written, its macros
are the properties of `[#define]`, and nothing is left in it to resolve (`Document.Compiled`).
-/

namespace Yini

/-- A document as it is when it has been compiled. -/
structure Document.Compiled (d : Document) : Prop where
  legible : d.Legible
  macros : ∀ k, d.macros.get? k = d.get? defineName k
  settled : ∃ ready, d.Settled ready ∧
    ∀ n ∈ d.sections.keys, Section.isSpecialName n = false → n ∈ ready

/-- What a walk goes to has been read. -/
theorem Walked.read {source : Source} {paths seen seen' : List String} {ds : List Document}
    (h : Walked source paths seen seen' ds) : ∀ e ∈ ds, e.Read := by
  obtain ⟨order, -, hdocuments, -⟩ := h
  intro e he
  obtain ⟨path, -, hpath⟩ := exists_of_forall₂ hdocuments.flip he
  obtain ⟨text, -, hparse⟩ := except_bind_eq_ok.mp hpath
  exact Document.read_of_ofSource hparse

/-- Documents that have been read are merged into one. -/
theorem Document.read_foldl {ds : List Document} (h : ∀ e ∈ ds, e.Read) : (ds.foldl merge .empty).Read :=
  List.foldlRecOn _ _ read_empty fun _ hd e he => hd.merge (h e he)

/-- A text with its includes is read like one text. -/
theorem read_of_gather {source : Source} {file : Option String} {text : String} {d : Document}
    {loaded : List String} (h : gather source file text = .ok (d, loaded)) : d.Read := by
  obtain ⟨current, ds, hcurrent, hwalked, rfl⟩ := expand_ok h
  refine Document.read_foldl fun e he => ?_
  rcases List.mem_append.mp he with he | he
  · exact hwalked.read e he
  · rw [List.mem_singleton.mp he]
    exact Document.read_of_ofSource hcurrent

namespace Document

variable {p : Providers} {d r : Document}

/-- Nothing that is read gives `[#define]` a parent. -/
theorem Read.orphan (h : d.Read) : ∀ s, d.sections.get? defineName = some s → s.parents = [] := by
  intro s hs
  rcases (h.sections _ s hs).header with hname | ⟨-, hparents⟩
  · have hspecial := hname.not_special
    rw [h.named.sections _ s hs] at hspecial
    cases hspecial
  · exact hparents

open Progress in
/-- Every macro is there as a property of `[#define]`. -/
theorem isSome_define_of_macro (hmacros : d.macros = ∅) {q : Progress}
    (hsound : Sound d.gatherMacros p (.all d.gatherMacros) q) (hcomplete : Complete d.gatherMacros p q)
    {k : String} {v : Value} (hv : q.document.macros.get? k = some v) :
    (q.document.get? defineName k).isSome := by
  obtain ⟨e, -, he, -, -⟩ := hsound.doneMacro k (macro_done hsound hcomplete hv)
  rw [get?_macros_gatherMacros, hmacros] at he
  rcases Option.or_eq_some_iff.mp he with he | ⟨-, he⟩
  · obtain ⟨s, hs, hget⟩ := Option.bind_eq_some_iff.mp he
    rw [← sections_gatherMacros] at hs
    exact isSome_of_declared hsound hs hget
  · cases he

/-- **What resolving makes of a document that has been read.** -/
theorem Read.compiled (hd : d.Read) (h : d.resolve p = .ok r) : r.Compiled := by
  have hlegible := hd.legible.resolve h
  obtain ⟨q, rfl, hsound, hcomplete⟩ := resolve_sound h
  have hgathered : q.document.Gathered := by
    refine gathered_of_orphan hsound hcomplete d.gathered_gatherMacros fun s hs => hd.orphan s ?_
    rwa [sections_gatherMacros] at hs
  have hsettled := settled_of_complete hsound hcomplete d.gathered_gatherMacros
  rw [gatherMacros_eq_self_iff.mpr hgathered] at hsettled
  refine ⟨hlegible, fun k => ?_, q.doneSections, hsettled, fun n hn hspecial => ?_⟩
  · cases hk : q.document.get? defineName k with
    | some v => exact hgathered k v hk
    | none =>
      cases hv : q.document.macros.get? k with
      | none => rfl
      | some v =>
        have hdefine := isSome_define_of_macro hd.macros hsound hcomplete hv
        rw [hk] at hdefine
        cases hdefine
  · obtain ⟨t, ht⟩ := Option.isSome_iff_exists.mp (Table.contains_iff.mpr hn)
    exact section_done hsound hcomplete ht hspecial

/-! ## What is left to resolve -/

namespace Compiled

variable (h : d.Compiled)

include h

/-- Nothing is left to resolve in a section without a special name. -/
theorem plain_contents {n : String} {s : Section} (hs : d.sections.get? n = some s)
    (hn : Section.isSpecialName n = false) : ∀ v ∈ s.contents, v.plain := by
  obtain ⟨ready, hsettled, hready⟩ := h.settled
  have hmem : n ∈ d.sections.keys := Table.contains_iff.mp (by rw [Table.contains, hs]; rfl)
  obtain ⟨t, ht, hplain⟩ := hsettled.contents n (hready n hmem hn)
  rw [hs] at ht
  cases ht
  exact hplain

theorem plain_macros {k : String} {v : Value} (hv : d.macros.get? k = some v) : v.plain := by
  obtain ⟨ready, hsettled, -⟩ := h.settled
  exact hsettled.macros v (Table.mem_values_iff.mpr ⟨k, hv⟩)

/-- Nothing is left to resolve in a property of `[#define]`. -/
theorem plain_define {k : String} {v : Value} (hv : d.get? defineName k = some v) : v.plain :=
  h.plain_macros ((h.macros k).trans hv)

theorem plain_schemas {n k : String} {s : Section} (hs : d.schemas.get? n = some s) {v : Value}
    (hv : s.properties.get? k = some v) : v.plain := by
  obtain ⟨ready, hsettled, -⟩ := h.settled
  exact hsettled.schemas s (Table.mem_values_iff.mpr ⟨n, hs⟩) v (Table.mem_values_iff.mpr ⟨k, hv⟩)

end Compiled

end Document

namespace Compiler

variable {c : Compiler} {d : Document}

/-- Without an include list, compiling is reading and resolving. -/
theorem compile_of_ofSource {text : String} (h : Document.ofSource c.fileName text = .ok d)
    (hinclude : d.sections.get? includeName = none) : c.compile text = d.resolve c.providers := by
  have hexpand : gather c.source c.fileName text
      = .ok (d, c.fileName.toList.map Path.normalize) := by
    rw [gather, expand_names]
    refine stateT_bind_eq_ok.mpr ⟨d, _, stateT_lift_eq_ok.mpr ⟨h, rfl⟩, ?_⟩
    rw [hinclude]
    rfl
  rw [compile, hexpand]
  rfl

/-- **What a text is compiled to is a compiled document.** -/
theorem compiled_of_compile {text : String} (h : c.compile text = .ok d) : d.Compiled := by
  obtain ⟨⟨e, loaded⟩, hgather, hresolve⟩ := except_bind_eq_ok.mp h
  exact (read_of_gather hgather).compiled hresolve

/-- What a file is compiled to is a compiled document. -/
theorem compiled_of_compileFile {path : String} (h : c.compileFile path = .ok d) : d.Compiled := by
  unfold compileFile at h
  split at h
  next => cases h
  next =>
    obtain ⟨text, -, h⟩ := except_bind_eq_ok.mp h
    obtain ⟨⟨e, loaded⟩, hgather, hresolve⟩ := except_bind_eq_ok.mp h
    exact (read_of_gather hgather).compiled hresolve

end Compiler

end Yini
