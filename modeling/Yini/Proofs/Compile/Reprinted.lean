import Yini.Proofs.Compile.Compiled
import Yini.Proofs.Resolve.Respelled

/-!
A compiled document, written out as a text, compiles to itself (`Compiler.compile_text`).

The text is read as what the document spells (`Document.ofSource_text`), which is near the document
itself, and resolving stays near (`Document.Settled.resolve_near`).  The result is compiled as well, so
nothing is left in it that could be spelled in another way, and only places are different.
-/

namespace Yini

namespace Document

variable {d e r : Document}

/-- Every macro of a compiled document stands in `[#define]`. -/
theorem Compiled.macrosText_eq (h : d.Compiled) : d.macrosText = "" := by
  unfold macrosText
  split
  next => rfl
  next hnone =>
    rw [Bool.or_eq_true, not_or] at hnone
    obtain ⟨e, he⟩ := List.exists_mem_of_ne_nil _ (mt List.isEmpty_iff.mpr hnone.1)
    have hdefine := (h.macros e.1).symm.trans (Table.mem_entries_iff.mp he)
    obtain ⟨s, hs, -⟩ := Option.bind_eq_some_iff.mp hdefine
    exact absurd (by rw [Table.contains, hs]; rfl) hnone.2

/-! ## Near a document -/

/-- A section that is spelled as another one is near that. -/
theorem near_of_bare_eq {s t : Section} (h : t.bare = s.spelled) : s.Match Value.Near t where
  name := show t.bare.name = s.spelled.name by rw [h]
  parents := show t.bare.parents = s.spelled.parents by rw [h]
  properties := (Table.Match.of_mapValues_eq (congrArg Section.properties h)).imp fun _ _ _ _ _ => .inr
  registry := (forall₂_of_map_eq (congrArg Section.registry h)).imp fun _ _ => .inr

/-- A document without macros, with sections near those of a compiled one, is near it once the macros
    have been gathered. -/
theorem Compiled.near_gatherMacros (hd : d.Compiled)
    (hsections : d.sections.Match (Section.Match Value.Near) e.sections)
    (hschemas : d.schemas.Match (Section.Match Value.Near) e.schemas)
    (hnone : ∀ k, e.macros.get? k = none) : d.Match Value.Near e.gatherMacros := by
  refine ⟨by rwa [sections_gatherMacros], fun k => ?_, by rwa [schemas_gatherMacros]⟩
  rw [hd.macros, get?_macros_gatherMacros, hnone, Option.or_none]
  exact rel_get? hsections defineName k

/-- What is read off the text of a document has sections near its own. -/
theorem near_sections {t u : Table Section} (h : u.mapValues Section.bare = t.mapValues Section.spelled) :
    t.Match (Section.Match Value.Near) u :=
  (Table.Match.of_mapValues_eq h).imp fun _ _ _ _ _ => near_of_bare_eq

/-- The text of a document has no macros apart from `[#define]`. -/
theorem get?_macros_of_bare_eq (he : e.bare = d.spelled) (k : String) : e.macros.get? k = none := by
  have hmacros : (e.macros.mapValues Value.bare).get? k = d.spelled.macros.get? k := by
    rw [← he]
    rfl
  rw [Table.get?_mapValues] at hmacros
  exact Option.map_eq_none_iff.mp hmacros

/-- What is read off the text of a compiled document is near it once the macros have been gathered. -/
theorem Compiled.near (hd : d.Compiled) (he : e.bare = d.spelled) : d.Match Value.Near e.gatherMacros :=
  hd.near_gatherMacros (near_sections (congrArg sections he)) (near_sections (congrArg schemas he))
    (get?_macros_of_bare_eq he)

/-! ## Nothing but places -/

/-- The sections of a compiled document by their names. -/
theorem Compiled.name_cases (h : d.Compiled) {n : String} {s : Section} (hs : d.sections.get? n = some s) :
    Section.isSpecialName n = false ∨ n = defineName ∨ n = includeName := by
  have hname := h.legible.named.sections n s hs
  rcases (h.legible.sections n s hs).header with hheader | ⟨hheader | hheader, -⟩
  · exact .inl (hname ▸ hheader.not_special)
  · exact .inr (.inl (hname.symm.trans hheader))
  · exact .inr (.inr (hname.symm.trans hheader))

/-- No property of a compiled document is left to resolve, unless it is one of `[#include]`: those of
    `[#define]` are the macros. -/
theorem Compiled.plain_property (h : d.Compiled) {n k : String} (hn : n ≠ includeName) {s : Section}
    (hs : d.sections.get? n = some s) {v : Value} (hv : s.properties.get? k = some v) : v.plain := by
  rcases h.name_cases hs with hspecial | rfl | hinclude
  · exact h.plain_contents hs hspecial v (List.mem_append_left _ (Table.mem_values_iff.mpr ⟨k, hv⟩))
  · exact h.plain_define (by rw [get?, hs]; exact hv)
  · exact absurd hinclude hn

/-- What was read and has not been resolved is spelled as it is. -/
theorem bare_eq_of_unsigned {v w : Value} (hv : v.Legible true) (h : v.Near w) : w.bare = v.bare := by
  rcases h with h | h
  · exact h
  · rw [h, Value.spelled_eq_bare hv]

/-- **Compiled documents that are near differ in their places only**, if the properties of `[#include]`,
    which nothing resolves, are as they were read. -/
theorem Compiled.match_of_unsigned (hd : d.Compiled) (hr : r.Compiled)
    (hinclude : ∀ s, d.sections.get? includeName = some s → ∀ v ∈ s.properties.values, v.Legible true)
    (h : d.Match Value.Near r) : d.Match (fun v w => w.bare = v.bare) r := by
  -- what resolving leaves alone, the entries of special sections, is as it was read
  have hregistry : ∀ n s, d.sections.get? n = some s → Section.isSpecialName n = true →
      ∀ v ∈ s.registry, ∀ w, v.Near w → w.bare = v.bare := by
    intro n s hs hspecial v hv w hvw
    have hlegible := (hd.legible.sections _ s hs).registry v hv
    rw [Section.isSpecial, hd.legible.named.sections _ s hs, hspecial] at hlegible
    exact bare_eq_of_unsigned hlegible hvw
  -- everything else is plain on both sides, so that values near each other differ in places only
  have hsection : ∀ n s t, d.sections.get? n = some s → r.sections.get? n = some t →
      s.Match Value.Near t → s.Match (fun v w => w.bare = v.bare) t := by
    intro n s t hs ht hst
    refine hst.imp (fun k v w hv hw hvw => ?_) fun v hv w hw hvw => ?_
    · by_cases hn : n = includeName
      · subst hn
        exact bare_eq_of_unsigned (hinclude s hs v (Table.mem_values_iff.mpr ⟨k, hv⟩)) hvw
      · exact hvw.bare_eq (hd.plain_property hn hs hv) (hr.plain_property hn ht hw)
    · rcases hd.name_cases hs with hspecial | rfl | rfl
      · exact hvw.bare_eq (hd.plain_contents hs hspecial v (Section.mem_contents_of_entry hv))
          (hr.plain_contents ht hspecial w (Section.mem_contents_of_entry hw))
      · exact hregistry _ s hs rfl v hv w hvw
      · exact hregistry _ s hs rfl v hv w hvw
  have hschema : ∀ n s t, d.schemas.get? n = some s → r.schemas.get? n = some t →
      s.Match Value.Near t → s.Match (fun v w => w.bare = v.bare) t := by
    intro n s t hs ht hst
    refine hst.imp (fun k v w hv hw hvw => ?_) fun v hv w _ hvw => ?_
    · exact hvw.bare_eq (hd.plain_schemas hs hv) (hr.plain_schemas ht hw)
    · exact bare_eq_of_unsigned ((hd.legible.schemas n s hs).registry v hv) hvw
  exact ⟨h.sections.imp hsection,
    h.macros.imp fun k v w hv hw hvw => hvw.bare_eq (hd.plain_macros hv) (hr.plain_macros hw),
    h.schemas.imp hschema⟩

/-- Without an include list there is nothing that is not resolved. -/
theorem Compiled.match_of_near (hd : d.Compiled) (hr : r.Compiled)
    (hinclude : d.sections.get? includeName = none) (h : d.Match Value.Near r) :
    d.Match (fun v w => w.bare = v.bare) r := by
  refine hd.match_of_unsigned hr (fun s hs => ?_) h
  rw [hinclude] at hs
  cases hs

/-- **A document of finite numbers is equal** to one that differs from it in places only. -/
theorem Legible.same_of_match (hd : d.Legible) (hfinite : ∀ v ∈ d.values, v.isFinite)
    (h : d.Match (fun v w => w.bare = v.bare) r) : d.same r := by
  have hsame : ∀ v ∈ d.values, ∀ w : Value, w.bare = v.bare → v.same w := by
    intro v hv w hw
    have hwell := (hd.of_mem_values hv).elim Value.Legible.wellFormed Value.LegibleRule.wellFormed
    exact Value.same_of_bare_eq (hfinite v hv) hwell hw
  have hsection : ∀ s t : Section, (∀ v ∈ s.contents, v ∈ d.values) →
      s.Match (fun v w => w.bare = v.bare) t → s.Match (fun v w => v.same w = true) t := by
    intro s t hs hst
    exact hst.imp
      (fun k v w hv _ hvw =>
        hsame v (hs v (List.mem_append_left _ (Table.mem_values_iff.mpr ⟨k, hv⟩))) w hvw)
      fun v hv w _ hvw => hsame v (hs v (Section.mem_contents_of_entry hv)) w hvw
  exact Match.same ⟨
    h.sections.imp fun _ s t hs _ => hsection s t fun _ => mem_values_of_section hs,
    h.macros.imp fun _ v w hv _ => hsame v (mem_values_of_macros hv) w,
    h.schemas.imp fun _ s t hs _ => hsection s t fun _ => mem_values_of_schema hs⟩

end Document

namespace Compiler

variable {c : Compiler} {d : Document} {text : String}

/-- A text that cannot be read cannot be compiled. -/
theorem compile_of_ofSource_error {fault : Fault} (h : Document.ofSource c.fileName text = .error fault) :
    c.compile text = .error fault := by
  have hgather : gather c.source c.fileName text = .error fault := by
    rw [gather, expand_names, expandWith, h]
    rfl
  rw [compile, hgather]
  rfl

/-- **A compiled document compiles to itself** when it is written out, unless its text is nested too deep
    to be read; no number in it may be infinite or missing, and it may have no include list. -/
theorem compile_text (h : c.compile text = .ok d) (hinclude : d.sections.get? includeName = none)
    (hfinite : ∀ v ∈ d.values, v.isFinite) :
    (∃ fault, c.compile d.text = .error fault ∧ fault.code = 217) ∨
      ∃ e, c.compile d.text = .ok e ∧ d.same e := by
  have hd := compiled_of_compile h
  rcases Document.ofSource_text hd.legible hfinite hd.macrosText_eq c.fileName with
    ⟨fault, hfault, hcode⟩ | ⟨e, he, hbare⟩
  · exact .inl ⟨fault, compile_of_ofSource_error hfault, hcode⟩
  -- what is read is near the document, so it is resolved, and what is resolved is near as well
  have hnear := hd.near hbare
  obtain ⟨ready, hsettled, hall⟩ := hd.settled
  obtain ⟨r, hr, hmatch⟩ := hsettled.resolve_near (p := c.providers) hall hnear
  have hnone : e.sections.get? includeName = none := by
    rw [← e.sections_gatherMacros]
    exact hnear.sections.get?_eq_none_iff.mp hinclude
  have hcompiled := (Document.read_of_ofSource he).compiled hr
  refine .inr ⟨r, by rw [compile_of_ofSource he hnone, hr], ?_⟩
  exact hd.legible.same_of_match hfinite (hd.match_of_near hcompiled hinclude hmatch)

/-- A text with a negative macro, a section that inherits what is made from it, and a schema. -/
def printedText : String := "[#define]\na = -3\n[B]\nb = @a * 2\n[S] : B\n[#schema]\n[S]\nb = !\n"

/-- The inherited property is the number `-6`, there and in the document that the text is compiled to. -/
theorem compile_text_printedText : ∃ d, compile ⟨.ofTexts ∅, .none, none⟩ printedText = .ok d ∧
    (d.get? "S" "b").bind Value.int? = some (-6) ∧
    d.sections.get? includeName = none ∧ (∀ v ∈ d.values, v.isFinite) ∧
      ∃ e, compile ⟨.ofTexts ∅, .none, none⟩ d.text = .ok e ∧
        (e.get? "S" "b").bind Value.int? = some (-6) ∧ d.same e := by
  have hok : ((compile ⟨.ofTexts ∅, .none, none⟩ printedText).toOption.bind fun d =>
      (compile ⟨.ofTexts ∅, .none, none⟩ d.text).toOption.map fun e =>
        ((d.get? "S" "b").bind Value.int?, (d.sections.get? includeName).isNone, d.values.all Value.isFinite,
          (e.get? "S" "b").bind Value.int?)) = some (some (-6), true, true, some (-6)) := by
    decide +kernel
  obtain ⟨d, hd, hok⟩ := Option.bind_eq_some_iff.mp hok
  obtain ⟨e, he, hok⟩ := Option.map_eq_some_iff.mp hok
  obtain ⟨hvalue, hok⟩ := Prod.mk.inj hok
  obtain ⟨hnone, hok⟩ := Prod.mk.inj hok
  obtain ⟨hall, hvalue'⟩ := Prod.mk.inj hok
  have h := eq_ok_of_toOption hd
  have hagain := eq_ok_of_toOption he
  have hinclude := Option.isNone_iff_eq_none.mp hnone
  have hfinite := List.all_eq_true.mp hall
  refine ⟨d, h, hvalue, hinclude, hfinite, e, hagain, hvalue', ?_⟩
  rcases compile_text h hinclude hfinite with ⟨fault, hfault, -⟩ | ⟨e', he', hsame⟩
  · rw [hfault] at hagain
    cases hagain
  · rwa [Except.ok.inj (hagain.symm.trans he')]

end Compiler

end Yini
