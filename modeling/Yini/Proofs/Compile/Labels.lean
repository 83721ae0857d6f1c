import Yini.Proofs.Compile.Compiled
import Yini.Proofs.Grammar.Labels
import Yini.Proofs.Path
import Yini.Proofs.Resolve.Interrupted

/-!
Where the names of a compiled document are written.

Documents that are merged keep their names where they are, each in its own file: no file is loaded
twice, and none has the name of the text that it is included in, for files are included by their normal
paths.  Resolving changes nothing but values.  So in a compiled document no two names overlap
(`Compiler.apart_of_compile`).
-/

namespace Yini

/-! ## Documents that are merged -/

namespace Document

variable {d e : Document} {ds : List Document} {files : List (Option String)}

/-- Merging brings in no names but those of both documents. -/
theorem chart_merge (d : Document) (he : e.IsNamed) : (d.merge e).chart ⊆ d.chart ∪ e.chart := by
  rintro x ⟨u, hu, hplace⟩
  have hget : (mergeTables d.sections e.sections).get? x.1.sectionName = some u := hu
  rw [get?_mergeTables _ he.sections] at hget
  cases hd : d.sections.get? x.1.sectionName with
  | none =>
    rw [hd] at hget
    cases ht : e.sections.get? x.1.sectionName with
    | none => rw [ht] at hget; cases hget
    | some t =>
      rw [ht] at hget
      cases hget
      exact .inr ⟨u, ht, hplace⟩
  | some s =>
    rw [hd] at hget
    cases ht : e.sections.get? x.1.sectionName with
    | none =>
      rw [ht] at hget
      cases hget
      exact .inl ⟨u, hd, hplace⟩
    | some t =>
      rw [ht] at hget
      cases hget
      exact (Section.place?_merge hplace).imp (⟨s, hd, ·⟩) (⟨t, ht, ·⟩)

/-- The names of documents that are merged come from one of them each. -/
theorem chart_foldl (h : ∀ e ∈ ds, e.IsNamed) {x : Label × Span} (hx : x ∈ (ds.foldl merge .empty).chart) :
    ∃ e ∈ ds, x ∈ e.chart := by
  have hfrom : ∀ ds : List Document, (∀ e ∈ ds, e.IsNamed) → ∀ d : Document,
      x ∈ (ds.foldl merge d).chart → x ∈ d.chart ∨ ∃ e ∈ ds, x ∈ e.chart := by
    intro ds
    induction ds with
    | nil => exact fun _ d hx => .inl hx
    | cons e ds ih =>
      intro h d hx
      obtain ⟨he, hds⟩ := List.forall_mem_cons.mp h
      rcases ih hds (d.merge e) hx with hx | ⟨f, hf, hx⟩
      · exact (chart_merge d he hx).imp_right fun hx => ⟨e, List.mem_cons_self, hx⟩
      · exact .inr ⟨f, List.mem_cons_of_mem _ hf, hx⟩
  rcases hfrom ds h .empty hx with hx | hx
  · rw [chart_empty] at hx
    exact hx.elim
  · exact hx

/-- Names are apart if they are so in each document, and each document has a file of its own. -/
theorem apart_of_forall₂ (hnodup : files.Nodup) (h : List.Forall₂ Charted files ds) :
    Chart.Apart {x | ∃ e ∈ ds, x ∈ e.chart} := by
  induction h with
  | nil => exact fun x ⟨e, he, _⟩ => absurd he List.not_mem_nil
  | @cons file d files ds hd hds ih =>
    obtain ⟨hnew, hnodup⟩ := List.nodup_cons.mp hnodup
    -- no name of the other documents is in the file of the first one
    have hother : ∀ e ∈ ds, ∀ x ∈ e.chart, x.2.file ≠ file := by
      intro e he x hx heq
      obtain ⟨file', hfile', hcharted⟩ := exists_of_forall₂ hds.flip he
      rw [hcharted.named x hx] at heq
      exact hnew (heq ▸ hfile')
    rintro x ⟨e, he, hx⟩ y ⟨f, hf, hy⟩ hne hfile
    rcases List.mem_cons.mp he with heq | he'
    · have hxfile := hd.named x (heq ▸ hx)
      rcases List.mem_cons.mp hf with heq' | hf'
      · exact hd.apart x (heq ▸ hx) y (heq' ▸ hy) hne hfile
      · exact absurd (hfile.symm.trans hxfile) (hother f hf' y hy)
    · rcases List.mem_cons.mp hf with heq' | hf'
      · exact absurd (hfile.trans (hd.named y (heq' ▸ hy))) (hother e he' x hx)
      · exact ih hnodup x ⟨e, he', hx⟩ y ⟨f, hf', hy⟩ hne hfile

end Document

/-! ## Texts with their includes -/

/-- A walk visits what it is sent to and what that leads to. -/
theorem PostOrder.forall_mem {P : String → Prop} {next : String → List String} {seen as order : List String}
    (h : PostOrder next seen as order) (has : ∀ a ∈ as, P a) (hnext : ∀ a, ∀ b ∈ next a, P b) :
    ∀ x ∈ order, P x := by
  induction h with
  | nil => exact fun x hx => absurd hx List.not_mem_nil
  | pass _ _ ih => exact ih fun b hb => has b (List.mem_cons_of_mem _ hb)
  | @visit seen a as inner order _ _ _ ihdeep ihrest =>
    intro x hx
    rcases List.mem_append.mp hx with hx | hx
    · exact ihdeep (hnext a) x hx
    rcases List.mem_cons.mp hx with rfl | hx
    · exact has x List.mem_cons_self
    · exact ihrest (fun b hb => has b (List.mem_cons_of_mem _ hb)) x hx

/-- Include lists name files by their normal paths. -/
theorem Document.normalize_of_mem_includes {d : Document} {file : Option String} :
    ∀ path ∈ d.includes file, Path.normalize path = path := by
  intro path hpath
  unfold includes at hpath
  split at hpath
  · cases hpath
  · obtain ⟨name, -, rfl⟩ := List.mem_map.mp hpath
    exact normalize_includePath file name

/-- A file includes others by their normal paths. -/
theorem Source.normalize_of_mem_includes {s : Source} {file : String} :
    ∀ path ∈ s.includes file, Path.normalize path = path := by
  intro path hpath
  unfold includes at hpath
  split at hpath
  · exact Document.normalize_of_mem_includes path hpath
  · cases hpath

/-- **In a text with its includes no two names overlap.** -/
theorem apart_of_gather {source : Source} {file : Option String} {text : String} {d : Document}
    {loaded : List String} (h : gather source file text = .ok (d, loaded)) : d.chart.Apart := by
  obtain ⟨current, ds, hcurrent, hwalked, rfl⟩ := expand_ok h
  have hnamed : ∀ e ∈ ds ++ [current], e.IsNamed := by
    intro e he
    rcases List.mem_append.mp he with he | he
    · exact (hwalked.isNamed e he).2
    · rw [List.mem_singleton.mp he]
      exact (Document.ofSource_shape hcurrent).2
  obtain ⟨order, hwalk, hdocuments, -⟩ := hwalked
  have hcharted : List.Forall₂ Document.Charted (order.map some ++ [file]) (ds ++ [current]) := by
    refine List.rel_append ?_ (.cons ?_ .nil)
    · refine List.forall₂_map_left_iff.mpr (hdocuments.imp fun path e he => ?_)
      obtain ⟨text, -, hparse⟩ := except_bind_eq_ok.mp he
      exact Document.charted_of_ofSource hparse
    · exact Document.charted_of_ofSource hcurrent
  -- the text has been seen by its normal path, which is how it would be included
  have hfresh : file ∉ order.map some := by
    intro hmem
    obtain ⟨path, hpath, rfl⟩ := List.mem_map.mp hmem
    have hnormal := hwalk.forall_mem Document.normalize_of_mem_includes
      (fun _ => Source.normalize_of_mem_includes) path hpath
    refine ((hwalk.mem_iff path).mp hpath).1 ?_
    show path ∈ [Path.normalize path]
    rw [hnormal]
    exact List.mem_singleton_self path
  have hnodup : (order.map some ++ [file]).Nodup := by
    refine List.nodup_append.mpr ⟨?_, List.nodup_singleton file, ?_⟩
    · exact hwalk.nodup.map (Option.some_injective String)
    · rintro f hf _ hfile rfl
      exact hfresh (List.mem_singleton.mp hfile ▸ hf)
  exact (Document.apart_of_forall₂ hnodup hcharted).mono fun x hx => Document.chart_foldl hnamed hx

/-! ## Resolving -/

/-- Where a section is written does not depend on its values. -/
theorem Section.place?_of_hull {s t : Section} (h : t.hull = s.hull) : t.place? = s.place? := by
  show t.hull.place? = s.hull.place?
  rw [h]

namespace Document

variable {p : Providers} {d r : Document}

open Progress in
/-- **Resolving changes nothing in a section but its contents.** -/
theorem hulls_of_resolve (h : d.resolve p = .ok r) :
    r.sections.mapValues Section.hull = d.sections.mapValues Section.hull := by
  obtain ⟨q, fs, q', hnodes, hschemas, rfl⟩ := resolve_phases.mp h
  rw [← sections_gatherMacros d]
  have hd := d.gathered_gatherMacros
  generalize d.gatherMacros = d at hd hnodes hschemas
  have hroots : ∀ n ∈ d.dataRoots, n ∈ d.roots := fun n hn => List.mem_append_left _ hn
  have hmeets := meets_dataRoots hd p
  have hframed := stops_forM (fun n hn q hs => meets_resolveNode hd p (hroots n hn) hs)
    (fun n hn q hs hf => stops_resolveNode hd p (hroots n hn) hs hf) _ (sound_start d p) (framed_start d)
  rw [← resolveNodes_eq, hnodes] at hframed
  rw [Meets, hnodes] at hmeets
  obtain ⟨hsound, hadvance, -⟩ := hmeets
  rw [hadvance.schemas] at hschemas
  have hrules := stops_rules hd p (hsound.withSchemas ∅) (hframed.withSchemas ∅)
  rw [Stops, hschemas] at hrules
  exact hrules.hulls

theorem chart_of_resolve (h : d.resolve p = .ok r) : r.chart ⊆ d.chart := by
  rintro x ⟨t, ht, hplace⟩
  have hget : (r.sections.mapValues Section.hull).get? x.1.sectionName = some t.hull := by
    rw [Table.get?_mapValues, ht]
    rfl
  rw [hulls_of_resolve h, Table.get?_mapValues] at hget
  obtain ⟨s, hs, hhull⟩ := Option.map_eq_some_iff.mp hget
  refine ⟨s, hs, ?_⟩
  rwa [Section.place?_of_hull hhull]

end Document

namespace Compiler

variable {c : Compiler} {d : Document}

/-- **In a compiled document no two names overlap.** -/
theorem apart_of_compile {text : String} (h : c.compile text = .ok d) : d.chart.Apart := by
  obtain ⟨⟨e, loaded⟩, hgather, hresolve⟩ := except_bind_eq_ok.mp h
  exact (apart_of_gather hgather).mono (Document.chart_of_resolve hresolve)

theorem apart_of_compileFile {path : String} (h : c.compileFile path = .ok d) : d.chart.Apart := by
  unfold compileFile at h
  split at h
  next => cases h
  next =>
    obtain ⟨text, -, h⟩ := except_bind_eq_ok.mp h
    obtain ⟨⟨e, loaded⟩, hgather, hresolve⟩ := except_bind_eq_ok.mp h
    exact (apart_of_gather hgather).mono (Document.chart_of_resolve hresolve)

end Compiler

end Yini
