import Yini.Proofs.Ybin.Cache

/-!
How far a compiled document is resolved.

Two special sections can be written in a source text, and resolving passes by what they hold: the
registry of `[#define]` and all of `[#include]` stay as they were read (`mem_setAside_iff`).
Everything else is plain.  So a compiled document is resolved, and has bytes, exactly if what has been
set aside is (`compile_resolved`), and there are texts where it is not
(`unresolvedRegistry_not_encoded`).
-/

namespace Yini

/-- What is plain is resolved. -/
theorem Value.isResolved_of_plain (v : Value) (h : v.plain) : v.isResolved := by
  induction v using Value.induction with
  | atom a span => cases a <;> first | rfl | exact h
  | sequence kind items span ih =>
    rw [plain, allPlain_iff] at h
    exact allResolved_iff.mpr fun v hv => ih v hv (h v hv)
  | record kind fields span ih =>
    rw [plain, allFieldsPlain_iff] at h
    exact allFieldsResolved_iff.mpr fun e he => ih e he (h e he)
  | binary => cases h
  | neg => cases h
  | rule => rfl

namespace Document

/-- What resolving sets aside: the registry of `[#define]`, and all that `[#include]` holds. -/
def setAside (d : Document) : List Value :=
  (d.sections.get? defineName).elim [] Section.registry ++
    (d.sections.get? includeName).elim [] Section.contents

variable {d : Document} {p : Providers}

/-- Set aside are the registry of `[#define]` and the contents of `[#include]`. -/
theorem mem_setAside {v : Value} : v ∈ d.setAside ↔
    (∃ s, d.sections.get? defineName = some s ∧ v ∈ s.registry) ∨
      ∃ s, d.sections.get? includeName = some s ∧ v ∈ s.contents := by
  rw [setAside, List.mem_append]
  apply or_congr
  · cases d.sections.get? defineName <;> simp
  · cases d.sections.get? includeName <;> simp

/-! ## What is set aside -/

section Waiting

open Progress

variable {q : Progress} {n : String} {s t : Section}

/-- As long as a section other than `[#define]` waits, it holds what it declares. -/
theorem mem_contents_of_waiting (h : Adopting d q n s t []) (hn : n ≠ defineName) (v : Value) :
    v ∈ t.contents ↔ v ∈ s.contents := by
  have hproperties : ∀ k, t.properties.get? k = s.properties.get? k := by
    intro k
    cases hk : s.properties.get? k with
    | none => exact h.inherited k hk
    | some e =>
      obtain ⟨w, hw, rfl | ⟨heq, -⟩⟩ := h.declared k e hk
      · exact hw
      · exact absurd heq hn
  unfold Section.contents
  rw [List.mem_append, List.mem_append, h.registry, Table.mem_values_iff, Table.mem_values_iff]
  simp only [hproperties]

/-- No special section of a document that could be written is ever resolved. -/
theorem adopting_of_special (hsound : Sound d p (.all d) q) (hq : q.Legible)
    (hn : Section.isSpecialName n = true) (hs : d.sections.get? n = some s)
    (ht : q.document.sections.get? n = some t) : Adopting d q n s t [] := by
  have hidle : n ∈ (Idle.all d).sections :=
    Table.contains_iff.mp (by rw [Table.contains, hs]; rfl)
  refine hsound.waitingSection n hidle (fun hdone => ?_) s t hs ht
  rw [hq.ordinary n hdone] at hn
  cases hn

/-- **What is set aside stays as it was read**, if the document could be written. -/
theorem mem_setAside_iff (hsound : Sound d p (.all d) q) (hq : q.Legible) (v : Value) :
    v ∈ q.document.setAside ↔ v ∈ d.setAside := by
  rw [mem_setAside, mem_setAside]
  constructor
  · rintro (⟨t, ht, hv⟩ | ⟨t, ht, hv⟩)
    · obtain ⟨s, hs, -⟩ := hsound.declared_section ht
      exact .inl ⟨s, hs, by rwa [← (adopting_of_special hsound hq rfl hs ht).registry]⟩
    · obtain ⟨s, hs, -⟩ := hsound.declared_section ht
      have hwaiting := adopting_of_special hsound hq rfl hs ht
      exact .inr ⟨s, hs, (mem_contents_of_waiting hwaiting (by decide) v).mp hv⟩
  · rintro (⟨s, hs, hv⟩ | ⟨s, hs, hv⟩)
    · obtain ⟨t, ht, -⟩ := hsound.exists_section hs
      exact .inl ⟨t, ht, by rwa [(adopting_of_special hsound hq rfl hs ht).registry]⟩
    · obtain ⟨t, ht, -⟩ := hsound.exists_section hs
      have hwaiting := adopting_of_special hsound hq rfl hs ht
      exact .inr ⟨t, ht, (mem_contents_of_waiting hwaiting (by decide) v).mpr hv⟩

end Waiting

/-! ## All the rest -/

namespace Compiled

variable (h : d.Compiled)

include h

/-- What holds of plain values that can be written holds everywhere if it holds of what is set
    aside. -/
theorem forall_contents_iff {P : Value → Prop} (hP : ∀ v, v.plain → v.Legible false → P v) :
    (∀ s ∈ d.sections.values, ∀ v ∈ s.contents, P v) ↔ ∀ v ∈ d.setAside, P v := by
  constructor
  · intro hall v hv
    rcases mem_setAside.mp hv with ⟨s, hs, hv⟩ | ⟨s, hs, hv⟩
    · exact hall s (Table.mem_values_iff.mpr ⟨_, hs⟩) v (Section.mem_contents_of_entry hv)
    · exact hall s (Table.mem_values_iff.mpr ⟨_, hs⟩) v hv
  · intro haside s hs v hv
    obtain ⟨n, hn⟩ := Table.mem_values_iff.mp hs
    have hlegible := h.legible.contents hs v hv
    have hname := h.legible.named.sections n s hn
    rcases (h.legible.sections n s hn).header with hheader | ⟨hdefine | hinclude, -⟩
    · exact hP v (h.plain_contents hn (hname ▸ hheader.not_special) v hv) hlegible
    · rw [← hname, hdefine] at hn
      rcases List.mem_append.mp hv with hv | hv
      · obtain ⟨k, hk⟩ := Table.mem_values_iff.mp hv
        exact hP v (h.plain_define (by rw [get?, hn]; exact hk)) hlegible
      · exact haside v (mem_setAside.mpr (.inl ⟨s, hn, hv⟩))
    · rw [← hname, hinclude] at hn
      exact haside v (mem_setAside.mpr (.inr ⟨s, hn, hv⟩))

/-- A compiled document is resolved exactly if what has been set aside is. -/
theorem isResolved_iff : d.isResolved ↔ ∀ v ∈ d.setAside, v.isResolved := by
  rw [← h.forall_contents_iff fun v hv _ => v.isResolved_of_plain hv]
  simp [Document.isResolved, Section.isResolved, Section.contents, or_imp, forall_and]

/-- A compiled document can be encoded exactly if what has been set aside can. -/
theorem encodable_iff : d.encodable ↔ ∀ v ∈ d.setAside, v.encodable := by
  rw [← h.forall_contents_iff fun v hv hlegible => hlegible.encodable (v.isResolved_of_plain hv)]
  simp [Document.encodable]

end Compiled

end Document

open Ybin in
/-- **How far compiling resolves.**  What `[#define]` appends and all that `[#include]` holds is set
    aside as it was read; whatever else a section holds is plain.  So the document is resolved if all
    that was set aside is, and it has bytes if no operation is left there. -/
theorem Compiler.compile_resolved {c : Compiler} {text : String} {d : Document}
    (h : c.compile text = .ok d) :
    ∃ e loaded, gather c.source c.fileName text = .ok (e, loaded) ∧
      (∀ v, v ∈ d.setAside ↔ v ∈ e.setAside) ∧
      (∀ n s, d.sections.get? n = some s → Section.isSpecialName n = false →
        ∀ v ∈ s.contents, v.plain) ∧
      (∀ k v, d.get? defineName k = some v → v.plain) ∧
      (d.isResolved ↔ ∀ v ∈ e.setAside, v.isResolved) ∧
      (documentFits d → ((∃ bytes, encode d = .ok bytes) ↔ ∀ v ∈ e.setAside, v.encodable)) := by
  obtain ⟨⟨e, loaded⟩, hgather, hresolve⟩ := except_bind_eq_ok.mp h
  have hread := read_of_gather hgather
  have hcompiled := hread.compiled hresolve
  -- resolving neither adds to what is set aside nor takes from it
  have haside : ∀ v, v ∈ d.setAside ↔ v ∈ e.setAside := by
    intro v
    obtain ⟨q, hrun, rfl⟩ := Document.resolve_eq_ok.mp hresolve
    have hlegible := hread.legible.resolveAll hrun
    rw [Document.mem_setAside_iff (Document.resolveAll_sound hrun).1 hlegible]
    simp only [Document.setAside, Document.sections_gatherMacros]
  refine ⟨e, loaded, hgather, haside, fun n s hs hn => hcompiled.plain_contents hs hn,
    fun k v hv => hcompiled.plain_define hv, ?_, fun hfits => ?_⟩
  · simp only [hcompiled.isResolved_iff, haside]
  · simp only [← haside, ← hcompiled.encodable_iff]
    constructor
    · rintro ⟨bytes, hbytes⟩
      by_contra hencodable
      obtain ⟨fault, hfault⟩ := encode_of_not_encodable (Bool.eq_false_iff.mpr hencodable)
      rw [hbytes] at hfault
      cases hfault
    · intro hencodable
      exact ⟨_, encode_of_encodable hfits hencodable⟩

namespace Ybin

/-- A macro that is also appended to the registry of its section. -/
def appendedText : String := "[#define]\nk = 2 * 3\n+= @k\n[A]\nx = [@k]\n"

theorem compile_resolved_appended : ∃ d, plainCompiler.compile appendedText = .ok d ∧ documentFits d ∧
    ∃ e : Document, (∀ v, v ∈ d.setAside ↔ v ∈ e.setAside) ∧ (d.isResolved ↔ ∀ v ∈ e.setAside, v.isResolved) ∧
      ((∃ bytes, encode d = .ok bytes) ↔ ∀ v ∈ e.setAside, v.encodable) := by
  have hok : ((plainCompiler.compile appendedText).toOption.filter documentFits).isSome := by
    decide +kernel
  obtain ⟨d, hd⟩ := Option.isSome_iff_exists.mp hok
  obtain ⟨hd, hfits⟩ := Option.filter_eq_some_iff.mp hd
  have hcompile := eq_ok_of_toOption hd
  obtain ⟨e, -, -, haside, -, -, hresolved, hencode⟩ := Compiler.compile_resolved hcompile
  exact ⟨d, hcompile, hfits, e, haside, hresolved, hencode hfits⟩

/-- A sum in the registry of `[#define]`. -/
def unresolvedRegistry : String := "[#define]\n+= 1 + 2\n"

/-- The sum is not carried out, and so the compiled document has no bytes. -/
theorem unresolvedRegistry_not_encoded : ∃ d fault, plainCompiler.compile unresolvedRegistry = .ok d ∧
    d.isResolved = false ∧ encode d = .error fault ∧ fault.code = 606 := by
  have hvalues : ((plainCompiler.compile unresolvedRegistry).toOption.bind fun d =>
      (fault? (encode d)).map fun fault => (d.isResolved, fault.code)) = some (false, 606) := by
    decide +kernel
  obtain ⟨d, hd, hvalues⟩ := Option.bind_eq_some_iff.mp hvalues
  obtain ⟨fault, hfault, hvalues⟩ := Option.map_eq_some_iff.mp hvalues
  obtain ⟨hresolved, hcode⟩ := Prod.mk.inj hvalues
  exact ⟨d, fault, eq_ok_of_toOption hd, hresolved, eq_error_of_fault? hfault, hcode⟩

end Ybin

end Yini
