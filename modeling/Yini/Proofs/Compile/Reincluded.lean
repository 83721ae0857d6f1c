import Yini.Proofs.Compile.Reprinted
import Yini.Proofs.Compile.Resolved
import Yini.Proofs.Resolve.Plain

/-!
What becomes of includes when a compiled file is written out and compiled again.

The text of the compiled file still has its include list, so the files are merged in a second time.
That changes no name, no parent and no property, for the document has them already and its own count
(`Section.Within`); but what the files append to a registry is there twice.  So the text compiles to an
equal document exactly if no file that is included appends anything (`Compiler.compileFile_text`).
-/

namespace Yini

/-! ## Registries -/

/-- The registry of a section, if the section is there. -/
def appended (t : Table Section) (n : String) : List Value := (t.get? n).elim [] Section.registry

/-- Merged tables append what both append, one after the other. -/
theorem appended_mergeTables (t : Table Section) {u : Table Section} (hu : Named u) (n : String) :
    appended (mergeTables t u) n = appended t n ++ appended u n := by
  unfold appended
  rw [get?_mergeTables t hu]
  cases t.get? n <;> cases u.get? n <;> simp [Option.merge, Section.merge]

/-- Tables whose sections match append equally much. -/
theorem length_appended {S : Section → Section → Prop} {t u : Table Section} (h : t.Match S u)
    (hS : ∀ s s', S s s' → s'.registry.length = s.registry.length) (n : String) :
    (appended u n).length = (appended t n).length := by
  have hn := h n
  unfold appended
  generalize t.get? n = o at hn ⊢
  generalize u.get? n = o' at hn ⊢
  cases hn with
  | none => rfl
  | some hs => exact hS _ _ hs

/-- Tables whose sections match append values that match. -/
theorem forall₂_appended {R : Value → Value → Prop} {t u : Table Section}
    (h : t.Match (Section.Match R) u) (n : String) :
    List.Forall₂ R (appended t n) (appended u n) := by
  have hn := h n
  unfold appended
  generalize t.get? n = o at hn ⊢
  generalize u.get? n = o' at hn ⊢
  cases hn with
  | none => exact .nil
  | some hst => exact hst.registry

namespace Document

/-- Whether no registry has an entry. -/
def appendsNothing (d : Document) : Bool :=
  (d.sections.values ++ d.schemas.values).all (·.registry.isEmpty)

/-- A document appends nothing exactly if no section and no schema of it does. -/
theorem appendsNothing_iff {d : Document} :
    d.appendsNothing ↔ ∀ n, appended d.sections n = [] ∧ appended d.schemas n = [] := by
  have htable : ∀ t : Table Section, (∀ s ∈ t.values, s.registry = []) ↔ ∀ n, appended t n = [] := by
    intro t
    constructor
    · intro h n
      unfold appended
      cases hn : t.get? n with
      | none => rfl
      | some s => exact h s (Table.mem_values_iff.mpr ⟨n, hn⟩)
    · intro h s hs
      obtain ⟨n, hn⟩ := Table.mem_values_iff.mp hs
      have happended := h n
      rwa [appended, hn] at happended
  simp only [appendsNothing, List.all_append, Bool.and_eq_true, List.all_eq_true, List.isEmpty_iff,
    htable, forall_and]

/-- The registries of merged documents are joined. -/
theorem appended_foldl {ds : List Document} (h : ∀ e ∈ ds, e.IsNamed) (d : Document) (n : String) :
    appended (ds.foldl merge d).sections n
        = appended d.sections n ++ ds.flatMap (appended ·.sections n) ∧
      appended (ds.foldl merge d).schemas n
        = appended d.schemas n ++ ds.flatMap (appended ·.schemas n) := by
  induction ds generalizing d with
  | nil => simp
  | cons e ds ih =>
    have he := h e List.mem_cons_self
    obtain ⟨hsections, hschemas⟩ := ih (fun f hf => h f (List.mem_cons_of_mem _ hf)) (d.merge e)
    have hone : appended (d.merge e).sections n = appended d.sections n ++ appended e.sections n :=
      appended_mergeTables d.sections he.sections n
    have hrules : appended (d.merge e).schemas n = appended d.schemas n ++ appended e.schemas n :=
      appended_mergeTables d.schemas he.schemas n
    rw [List.foldl_cons, hsections, hschemas, hone, hrules, List.flatMap_cons, List.flatMap_cons,
      List.append_assoc, List.append_assoc]
    exact ⟨rfl, rfl⟩

/-- Merged documents append nothing exactly if none of them does. -/
theorem appendsNothing_foldl {ds : List Document} (h : ∀ e ∈ ds, e.IsNamed) :
    (ds.foldl merge .empty).appendsNothing ↔ ∀ e ∈ ds, e.appendsNothing := by
  have hsections : ∀ n, appended (ds.foldl merge .empty).sections n
      = ds.flatMap (appended ·.sections n) := fun n => (appended_foldl h .empty n).1
  have hschemas : ∀ n, appended (ds.foldl merge .empty).schemas n
      = ds.flatMap (appended ·.schemas n) := fun n => (appended_foldl h .empty n).2
  simp only [appendsNothing_iff, hsections, hschemas, List.flatMap_eq_nil_iff]
  exact ⟨fun hall e he n => ⟨(hall n).1 e he, (hall n).2 e he⟩,
    fun hall n => ⟨fun e he => (hall e he n).1, fun e he => (hall e he n).2⟩⟩

end Document

/-! ## What resolving leaves alone -/

namespace Document

variable {p : Providers} {d r : Document}

/-- The include list of a document that is read stays as it was read. -/
theorem Read.include_of_resolve (hd : d.Read) (h : d.resolve p = .ok r) :
    appended r.sections includeName = appended d.sections includeName := by
  obtain ⟨q, hrun, rfl⟩ := resolve_eq_ok.mp h
  have hsound := (resolveAll_sound hrun).1
  unfold appended
  rw [← d.sections_gatherMacros]
  cases hs : d.gatherMacros.sections.get? includeName with
  | none => rw [hsound.get?_of_missing hs]
  | some s =>
    obtain ⟨t, ht, -⟩ := hsound.exists_section hs
    rw [ht]
    exact (adopting_of_special hsound (hd.legible.resolveAll hrun) rfl hs ht).registry

/-- What resolving sets aside is unsigned, as all that is read. -/
theorem Read.unsigned_of_resolve (hd : d.Read) (h : d.resolve p = .ok r) :
    ∀ v ∈ r.setAside, v.Legible true := by
  obtain ⟨q, hrun, rfl⟩ := resolve_eq_ok.mp h
  intro v hv
  rw [mem_setAside_iff (resolveAll_sound hrun).1 (hd.legible.resolveAll hrun), mem_setAside,
    sections_gatherMacros] at hv
  rcases hv with ⟨s, hs, hv⟩ | ⟨s, hs, hv⟩
  · exact (hd.sections _ s hs).registry v hv
  · rcases List.mem_append.mp hv with hv | hv
    · obtain ⟨e, he, rfl⟩ := List.mem_map.mp hv
      exact (hd.sections _ s hs).properties e he
    · exact (hd.sections _ s hs).registry v hv

end Document

/-! ## Merging in what is there already -/

/-- The first section can be merged in before the second one, and nothing changes: its parents stand
    first there already, its properties are there, and its registry is empty. -/
structure Section.Within (x s : Section) : Prop where
  name : x.name = s.name
  parents : joinParents x.parents s.parents = s.parents
  properties : ∀ k, x.properties.contains k → s.properties.contains k
  registry : x.registry = []

namespace Section

variable {x s t : Section}

/-- A section without a registry is within itself. -/
theorem within_self (h : x.registry = []) : x.Within x :=
  ⟨rfl, joinParents_of_subset fun _ hp => hp, fun _ hk => hk, h⟩

/-- A section without a registry is within what is merged into it. -/
theorem within_merge (h : x.registry = []) (s : Section) : x.Within (x.merge s) where
  name := rfl
  parents := by
    show joinParents x.parents (joinParents x.parents s.parents) = joinParents x.parents s.parents
    rw [← joinParents_assoc, joinParents_of_subset fun _ hp => hp]
  properties k hk := by
    show ((x.properties.insertAll s.properties.entries).get? k).isSome
    rw [Table.get?_insertAll, Option.isSome_or, Bool.or_eq_true]
    exact .inr hk
  registry := h

/-- A section stays within another one when that is resolved. -/
theorem Within.kept (h : x.Within s) (hst : s.Kept t) : x.Within t where
  name := h.name.trans hst.name.symm
  parents := by rw [hst.parents, h.parents]
  properties k hk := hst.properties k (h.properties k hk)
  registry := h.registry

/-- **A section within another one is merged in without a trace.** -/
theorem Within.match_merge {R : Value → Value → Prop} (hx : x.Within s) (h : s.Match R t) :
    s.Match R (x.merge t) where
  name := hx.name
  parents := by
    show joinParents x.parents t.parents = s.parents
    rw [h.parents, hx.parents]
  properties k := by
    show Option.Rel R (s.properties.get? k) ((x.properties.insertAll t.properties.entries).get? k)
    have hk := h.properties k
    rw [Table.get?_insertAll]
    cases ht : t.properties.get? k with
    | some w =>
      rw [ht] at hk
      exact hk
    | none =>
      -- `s` has no such property either, and so neither has `x`
      have hnone : x.properties.get? k = none := by
        refine Option.not_isSome_iff_eq_none.mp fun hsome => ?_
        have hcontains := hx.properties k hsome
        rw [h.properties.contains_eq, Table.contains, ht] at hcontains
        cases hcontains
      rw [ht] at hk
      rw [hnone]
      exact hk
  registry := by
    show List.Forall₂ R s.registry (x.registry ++ t.registry)
    rw [hx.registry]
    exact h.registry

end Section

/-- Sections that are merged in without a trace. -/
theorem match_mergeTables {R : Value → Value → Prop} {xs ss ts : Table Section} (hts : Named ts)
    (hxs : ∀ n x, xs.get? n = some x → ∃ s, ss.get? n = some s ∧ x.Within s)
    (h : ss.Match (Section.Match R) ts) : ss.Match (Section.Match R) (mergeTables xs ts) := by
  intro n
  rw [get?_mergeTables xs hts]
  have hn := h n
  cases hx : xs.get? n with
  | none => cases ht : ts.get? n <;> rwa [ht] at hn
  | some x =>
    obtain ⟨s, hs, hwithin⟩ := hxs n x hx
    obtain ⟨t, ht, hst⟩ := h.exists_right hs
    rw [hs, ht]
    exact .some (hwithin.match_merge hst)

/-- What has been merged in without a registry is within what has been made of the whole. -/
theorem within_of_kept {xs ts us : Table Section} (hts : Named ts)
    (hxs : ∀ n, appended xs n = []) (h : (mergeTables xs ts).Match Section.Kept us) (n : String)
    (x : Section) (hx : xs.get? n = some x) : ∃ s, us.get? n = some s ∧ x.Within s := by
  have hregistry : x.registry = [] := by
    have hn := hxs n
    rwa [appended, hx] at hn
  have hmerged := get?_mergeTables xs hts n
  rw [hx] at hmerged
  cases ht : ts.get? n with
  | none =>
    rw [ht] at hmerged
    obtain ⟨s, hs, hkept⟩ := h.exists_right hmerged
    exact ⟨s, hs, (Section.within_self hregistry).kept hkept⟩
  | some t =>
    rw [ht] at hmerged
    obtain ⟨s, hs, hkept⟩ := h.exists_right hmerged
    exact ⟨s, hs, (Section.within_merge hregistry t).kept hkept⟩

/-! ## Include lists -/

/-- The files of an include list depend on its entries' names alone. -/
theorem includeName?_of_near {v w : Value} (h : v.Near w) : includeName? w = includeName? v := by
  have hbare : ∀ v : Value, includeName? v.bare = includeName? v := by
    intro v
    cases v with
    | atom a => cases a <;> rfl
    | _ => rfl
  have hspelled : ∀ v : Value, includeName? v.spelled = includeName? v := by
    intro v
    cases v with
    | atom a =>
      rw [Value.spelled]
      unfold Atom.spelled
      split
      · split <;> rfl
      · split <;> rfl
      · cases a <;> rfl
    | _ => rfl
  rcases h with h | h
  · rw [← hbare w, h, hbare]
  · rw [← hbare w, h, hspelled]

/-- The include list of a document are the names in what `[#include]` appends. -/
theorem includes_eq (d : Document) (file : Option String) : d.includes file
    = ((appended d.sections includeName).filterMap includeName?).map (includePath file) := by
  rw [Document.includes, appended]
  cases d.sections.get? includeName <;> rfl

/-- Whoever has all the entries of an include list includes all its files. -/
theorem includes_subset {d e : Document} (file : Option String)
    (h : (appended d.sections includeName).map includeName?
      ⊆ (appended e.sections includeName).map includeName?) : d.includes file ⊆ e.includes file := by
  have hmem : ∀ (vs : List Value) (name : String),
      name ∈ vs.filterMap includeName? ↔ some name ∈ vs.map includeName? := by
    intro vs name
    rw [List.mem_filterMap, List.mem_map]
  rw [includes_eq, includes_eq]
  refine List.map_subset _ fun name hname => ?_
  exact (hmem _ name).mpr (h ((hmem _ name).mp hname))

variable {source : Source} {file : Option String} {seen seen' : List String}

/-- The documents of the files in an include list with their includes, merged one after the other. -/
def gatherIncludes (source : Source) (file : Option String) (entries : List Value) :
    Loading Document :=
  entries.foldlM (includeEntry source file
    fun path text => expand source source.names (some path) text) .empty

/-- **A text with its includes** is what its include list comes to, and behind it the text's own
    document. -/
theorem gather_eq_ok {text : String} {d : Document} {loaded : List String} :
    gather source file text = .ok (d, loaded) ↔ ∃ current merged,
      Document.ofSource file text = .ok current ∧
      gatherIncludes source file (appended current.sections includeName)
          (file.toList.map Path.normalize) = .ok (merged, loaded) ∧
        d = merged.merge current := by
  rw [gather, expand_names, expandWith, stateT_bind_eq_ok]
  constructor
  · rintro ⟨current, _, hlift, h⟩
    obtain ⟨hparse, rfl⟩ := stateT_lift_eq_ok.mp hlift
    refine ⟨current, ?_⟩
    -- without an include list nothing has been merged, and the empty document changes nothing
    unfold appended
    cases hlist : current.sections.get? includeName with
    | none =>
      simp only [hlist] at h
      cases h
      exact ⟨.empty, hparse, rfl, (Document.empty_merge (Document.ofSource_shape hparse).2).symm⟩
    | some list =>
      simp only [hlist] at h
      obtain ⟨merged, _, hfold, h⟩ := stateT_bind_eq_ok.mp h
      cases h
      exact ⟨merged, hparse, hfold, rfl⟩
  · rintro ⟨current, merged, hparse, hfold, rfl⟩
    refine ⟨current, _, stateT_lift_eq_ok.mpr ⟨hparse, rfl⟩, ?_⟩
    unfold appended at hfold
    cases hlist : current.sections.get? includeName with
    | none =>
      rw [hlist] at hfold
      cases hfold
      rw [Document.empty_merge (Document.ofSource_shape hparse).2]
      rfl
    | some list =>
      rw [hlist] at hfold
      exact stateT_bind_eq_ok.mpr ⟨merged, loaded, hfold, rfl⟩

/-- Lists of the same names come to the same. -/
theorem gatherIncludes_congr {entries entries' : List Value} {merged : Document}
    (hnames : entries'.map includeName? = entries.map includeName?)
    (h : gatherIncludes source file entries seen = .ok (merged, seen')) :
    gatherIncludes source file entries' seen = .ok (merged, seen') := by
  unfold gatherIncludes at h ⊢
  generalize Document.empty = start at h ⊢
  induction entries generalizing entries' start seen with
  | nil =>
    rw [List.map_eq_nil_iff.mp hnames]
    exact h
  | cons entry entries ih =>
    obtain ⟨entry', entries', rfl, hname, hnames⟩ := List.map_eq_cons_iff.mp hnames
    rw [List.foldlM_cons] at h ⊢
    obtain ⟨next, seen₁, hentry, hrest⟩ := stateT_bind_eq_ok.mp h
    refine stateT_bind_eq_ok.mpr ⟨next, seen₁, ?_, ih hnames next hrest⟩
    -- only a fault would tell the two entries apart
    obtain ⟨name, hsome, -⟩ := includeEntry_cases hentry
    unfold includeEntry at hentry ⊢
    rw [hname.trans hsome]
    rwa [hsome] at hentry

/-- An include list comes to the documents of a walk. -/
theorem walked_of_gatherIncludes {entries : List Value} {merged : Document}
    (h : gatherIncludes source file entries seen = .ok (merged, seen')) :
    ∃ ds, Walked source ((entries.filterMap includeName?).map (includePath file)) seen seen' ds ∧
      merged = ds.foldl Document.merge .empty :=
  foldlM_includeEntry (fun _ _ _ _ _ => expand_ok) entries .empty seen h

namespace Source

/-- The file is loaded for the paths of an include list: the list leads to it, past what has been seen. -/
def Loads (s : Source) (seen paths : List String) (path : String) : Prop :=
  path ∉ seen ∧ ∃ first ∈ paths, Reach s.includes seen first path

/-- No file that is loaded for the paths of an include list appends anything to a registry. -/
def AppendsNothing (s : Source) (seen paths : List String) : Prop :=
  ∀ path, s.Loads seen paths path → ∀ d, s.document path = .ok d → d.appendsNothing

/-- A longer include list loads more. -/
theorem AppendsNothing.mono {s : Source} {paths paths' : List String} (h : s.AppendsNothing seen paths')
    (hsub : paths ⊆ paths') : s.AppendsNothing seen paths := by
  rintro path ⟨hnew, first, hfirst, hreach⟩
  exact h path ⟨hnew, first, hsub hfirst, hreach⟩

theorem mem_keys_of_document {texts : Table String} {path : String} {d : Document}
    (h : (ofTexts texts).document path = .ok d) : path ∈ texts.keys := by
  obtain ⟨text, hread, -⟩ := except_bind_eq_ok.mp h
  refine Table.contains_iff.mp ?_
  unfold Table.contains
  cases htext : texts.get? path with
  | some _ => rfl
  | none =>
    simp only [ofTexts, htext] at hread
    cases hread

end Source

/-- What a walk comes to has empty registries exactly if no file on its way appends anything. -/
theorem Walked.appendsNothing_iff {paths : List String} {ds : List Document}
    (h : Walked source paths seen seen' ds) :
    (ds.foldl Document.merge .empty).appendsNothing ↔ source.AppendsNothing seen paths := by
  have hnamed : ∀ e ∈ ds, e.IsNamed := fun e he => (h.isNamed e he).2
  obtain ⟨order, hwalk, hdocuments, -⟩ := h
  rw [Document.appendsNothing_foldl hnamed]
  constructor
  · intro h path hpath d hd
    obtain ⟨e, he, hdocument⟩ := exists_of_forall₂ hdocuments ((hwalk.mem_iff path).mpr hpath)
    rw [hd] at hdocument
    cases hdocument
    exact h d he
  · intro h e he
    obtain ⟨path, hpath, hdocument⟩ := exists_of_forall₂ hdocuments.flip he
    exact h path ((hwalk.mem_iff path).mp hpath) e hdocument

/-! ## Documents merged again -/

namespace Document

variable {p : Providers} {x y d e r : Document}

/-- The include list in the text of a document: first the names of what was merged in, then its own. -/
theorem includeNames_eq (hx : x.Read) (hy : y.Read) (hd : (x.merge y).resolve p = .ok d)
    (hbare : e.bare = d.spelled) : (appended e.sections includeName).map includeName?
      = (appended x.sections includeName ++ appended y.sections includeName).map includeName? := by
  have hjoined : appended (x.merge y).sections includeName
      = appended x.sections includeName ++ appended y.sections includeName :=
    appended_mergeTables x.sections hy.named.sections includeName
  rw [← hjoined, ← (hx.merge hy).include_of_resolve hd]
  have hnear := forall₂_appended (near_sections (congrArg sections hbare)) includeName
  rw [← List.forall₂_eq_eq_eq, List.forall₂_map_left_iff, List.forall₂_map_right_iff]
  exact (hnear.imp fun _ _ => includeName?_of_near).flip

/-- **Merging in again what appends nothing** and resolving gives an equal document. -/
theorem same_of_merge (hx : x.Read) (hy : y.Read) (he : e.Read) (hnothing : x.appendsNothing)
    (hd : (x.merge y).resolve p = .ok d) (hfinite : ∀ v ∈ d.values, v.isFinite)
    (hbare : e.bare = d.spelled) : ∃ r, (x.merge e).resolve p = .ok r ∧ d.same r := by
  have hread := hx.merge hy
  have hcompiled := hread.compiled hd
  obtain ⟨hsections, hschemas⟩ := kept_of_resolve hd
  have hempty := appendsNothing_iff.mp hnothing
  -- the text is near the document, and merging in what is within the document changes nothing
  have hnear : d.Match Value.Near (x.merge e).gatherMacros := by
    refine hcompiled.near_gatherMacros ?_ ?_ fun k => ?_
    · exact match_mergeTables he.named.sections
        (within_of_kept hy.named.sections (fun n => (hempty n).1) hsections)
        (near_sections (congrArg sections hbare))
    · exact match_mergeTables he.named.schemas
        (within_of_kept hy.named.schemas (fun n => (hempty n).2) hschemas)
        (near_sections (congrArg schemas hbare))
    · rw [(hx.merge he).macros]
      rfl
  obtain ⟨ready, hsettled, hall⟩ := hcompiled.settled
  obtain ⟨r, hr, hmatch⟩ := hsettled.resolve_near (p := p) hall hnear
  refine ⟨r, hr, hcompiled.legible.same_of_match hfinite ?_⟩
  refine hcompiled.match_of_unsigned ((hx.merge he).compiled hr) (fun s hs v hv => ?_) hmatch
  exact hread.unsigned_of_resolve hd v (mem_setAside.mpr (.inr ⟨s, hs, List.mem_append_left _ hv⟩))

/-- **Merging in again what appends something** does not: a registry gets longer. -/
theorem appendsNothing_of_same (he : e.Read) (hbare : e.bare = d.spelled)
    (hr : (x.merge e).resolve p = .ok r) (hsame : d.same r) : x.appendsNothing := by
  obtain ⟨hsections, hschemas⟩ := kept_of_resolve hr
  rw [same, Bool.and_eq_true, Bool.and_eq_true] at hsame
  -- in the table `ts` of the text the registries are as long as in the document, and so in the result
  have htable : ∀ xs ts ds us : Table Section, Named ts → ds.Match (Section.Match Value.Near) ts →
      (mergeTables xs ts).Match Section.Kept us → Section.sameTable Section.same ds us →
        ∀ n, appended xs n = [] := by
    intro xs ts ds us hts hnear hkept hsame n
    have htext := (forall₂_appended hnear n).length_eq
    have hresult := length_appended hkept (fun s t hst => hst.registry) n
    have hequal := length_appended (.of_sameTable hsame) (fun s t hst => ?_) n
    · rw [appended_mergeTables xs hts, List.length_append] at hresult
      exact List.eq_nil_of_length_eq_zero (by omega)
    · rw [Section.same, Bool.and_eq_true, Value.sameItems_iff] at hst
      exact hst.2.length_eq.symm
  refine appendsNothing_iff.mpr fun n => ⟨?_, ?_⟩
  · exact htable x.sections e.sections d.sections r.sections he.named.sections
      (near_sections (congrArg sections hbare)) hsections hsame.1.1 n
  · exact htable x.schemas e.schemas d.schemas r.schemas he.named.schemas
      (near_sections (congrArg schemas hbare)) hschemas hsame.2 n

end Document

/-! ## Texts compiled again -/

namespace Compiler

variable {c : Compiler} {d : Document} {text path : String}

/-- **Compiling a text** is reading it, gathering what it includes, merging it in at the end, and resolving.
    -/
theorem compile_eq_ok : c.compile text = .ok d ↔ ∃ current merged loaded,
    Document.ofSource c.fileName text = .ok current ∧
    gatherIncludes c.source c.fileName (appended current.sections includeName)
        (c.fileName.toList.map Path.normalize) = .ok (merged, loaded) ∧
      (merged.merge current).resolve c.providers = .ok d := by
  rw [compile, except_bind_eq_ok]
  constructor
  · rintro ⟨⟨e, loaded⟩, hgather, hresolve⟩
    obtain ⟨current, merged, hparse, hincludes, rfl⟩ := gather_eq_ok.mp hgather
    exact ⟨current, merged, loaded, hparse, hincludes, hresolve⟩
  · rintro ⟨current, merged, loaded, hparse, hincludes, hresolve⟩
    exact ⟨(merged.merge current, loaded), gather_eq_ok.mpr ⟨current, merged, hparse, hincludes, rfl⟩,
      hresolve⟩

/-- Compiling a file is compiling its text under its name. -/
theorem compile_of_compileFile (h : c.compileFile path = .ok d) : ∃ text, c.source.read path = .ok text ∧
    compile { c with fileName := some path } text = .ok d := by
  unfold compileFile at h
  split at h
  next => cases h
  next =>
    obtain ⟨text, hread, h⟩ := except_bind_eq_ok.mp h
    exact ⟨text, hread, h⟩

/-- **A text whose includes append nothing is compiled again from what it is compiled to**, unless that is
    nested too deep to be read; and only then. -/
theorem compile_text_included (h : c.compile text = .ok d) (hfinite : ∀ v ∈ d.values, v.isFinite)
    {current : Document} (hparse : Document.ofSource c.fileName text = .ok current) :
    (c.source.AppendsNothing (c.fileName.toList.map Path.normalize) (current.includes c.fileName) →
      (∃ fault, c.compile d.text = .error fault ∧ fault.code = 217) ∨
        ∃ e, c.compile d.text = .ok e ∧ d.same e) ∧
    ∀ e, c.compile d.text = .ok e → d.same e →
      c.source.AppendsNothing (c.fileName.toList.map Path.normalize) (current.includes c.fileName) := by
  have hcompiled := compiled_of_compile h
  obtain ⟨_, merged, loaded, hcurrent, hincludes, hresolve⟩ := compile_eq_ok.mp h
  obtain rfl := Except.ok.inj (hparse.symm.trans hcurrent)
  obtain ⟨ds, hwalked, rfl⟩ := walked_of_gatherIncludes hincludes
  have hx := Document.read_foldl hwalked.read
  have hy := Document.read_of_ofSource hparse
  rw [← includes_eq] at hwalked
  rcases Document.ofSource_text hcompiled.legible hfinite hcompiled.macrosText_eq c.fileName with
    ⟨fault, hfault, hcode⟩ | ⟨e, he, hbare⟩
  · have herror := compile_of_ofSource_error hfault
    refine ⟨fun _ => .inl ⟨fault, herror, hcode⟩, fun e he => ?_⟩
    rw [herror] at he
    cases he
  have hnames := Document.includeNames_eq hx hy hresolve hbare
  constructor
  · intro hnothing
    have hempty := hwalked.appendsNothing_iff.mpr hnothing
    obtain ⟨r, hr, hsame⟩ := Document.same_of_merge hx hy (Document.read_of_ofSource he) hempty
      hresolve hfinite hbare
    -- nothing has come to the include list, so the same files are merged in
    rw [(Document.appendsNothing_iff.mp hempty includeName).1, List.nil_append] at hnames
    have hagain := gatherIncludes_congr hnames hincludes
    exact .inr ⟨r, compile_eq_ok.mpr ⟨e, _, loaded, he, hagain, hr⟩, hsame⟩
  · intro r hr hsame
    obtain ⟨_, merged, loaded', he', hincludes', hr⟩ := compile_eq_ok.mp hr
    obtain rfl := Except.ok.inj (he.symm.trans he')
    obtain ⟨ds', hwalked', rfl⟩ := walked_of_gatherIncludes hincludes'
    have hempty := Document.appendsNothing_of_same (Document.read_of_ofSource he) hbare hr hsame
    rw [← includes_eq] at hwalked'
    -- all files are merged in that were there before, and perhaps more
    refine (hwalked'.appendsNothing_iff.mp hempty).mono (includes_subset c.fileName ?_)
    rw [hnames, List.map_append]
    exact List.subset_append_right _ _

/-- **A compiled file is compiled again from its text**, with its includes and under its name, exactly if
    no file that it includes appends anything to a registry, or its text is nested too deep to be read.
    What an included file appends stands in the text, and is appended once more when the file is included
    again. -/
theorem compileFile_text (h : c.compileFile path = .ok d) (hfinite : ∀ v ∈ d.values, v.isFinite) :
    (c.source.AppendsNothing [Path.normalize path] (c.source.includes path) →
      (∃ fault, compile { c with fileName := some path } d.text = .error fault ∧ fault.code = 217) ∨
        ∃ e, compile { c with fileName := some path } d.text = .ok e ∧ d.same e) ∧
    ∀ e, compile { c with fileName := some path } d.text = .ok e → d.same e →
      c.source.AppendsNothing [Path.normalize path] (c.source.includes path) := by
  obtain ⟨text, hread, hcompile⟩ := compile_of_compileFile h
  obtain ⟨current, _, _, hparse, -, -⟩ := compile_eq_ok.mp hcompile
  have hdocument : c.source.document path = .ok current := except_bind_eq_ok.mpr ⟨text, hread, hparse⟩
  rw [Source.includes, hdocument]
  exact compile_text_included hcompile hfinite hparse

/-- A file that includes another one, which defines a macro and a parent. -/
def basedFiles : Table String := .ofList [
  ("main.yini", "[#include]\n+= \"base.yini\"\n[S] : B\nx = @a + 1\n+= x\n"),
  ("base.yini", "[#define]\na = -2\n[B]\nb = @a\n")]

/-- The files are compiled, and the text of the document as well. -/
theorem compileFile_text_basedFiles : ∃ d,
    compileFile ⟨.ofTexts basedFiles, .none, none⟩ "main.yini" = .ok d ∧
      (∀ v ∈ d.values, v.isFinite) ∧
        ∃ e, compile ⟨.ofTexts basedFiles, .none, some "main.yini"⟩ d.text = .ok e ∧ d.same e := by
  have hok : ((compileFile ⟨.ofTexts basedFiles, .none, none⟩ "main.yini").toOption.filter fun d =>
      d.values.all Value.isFinite &&
        (compile ⟨.ofTexts basedFiles, .none, some "main.yini"⟩ d.text).toOption.isSome).isSome := by
    decide +kernel
  obtain ⟨d, hd⟩ := Option.isSome_iff_exists.mp hok
  obtain ⟨hd, hall⟩ := Option.filter_eq_some_iff.mp hd
  rw [Bool.and_eq_true, List.all_eq_true] at hall
  obtain ⟨hfinite, hagain⟩ := hall
  have h := eq_ok_of_toOption hd
  refine ⟨d, h, hfinite, ?_⟩
  have hnothing : (Source.ofTexts basedFiles).AppendsNothing [Path.normalize "main.yini"]
      ((Source.ofTexts basedFiles).includes "main.yini") := by
    have hfiles : ∀ n ∈ basedFiles.keys, n ∉ [Path.normalize "main.yini"] →
        ((Source.ofTexts basedFiles).document n).toOption.all Document.appendsNothing := by
      decide +kernel
    rintro n ⟨hn, -⟩ e he
    have hfile := hfiles n (Source.mem_keys_of_document he) hn
    rwa [he] at hfile
  rcases (compileFile_text h hfinite).1 hnothing with ⟨fault, hfault, -⟩ | hsame
  · rw [hfault] at hagain
    cases hagain
  · exact hsame

/-- A file that includes another one, which appends a number to a registry. -/
def appendingFiles : Table String := .ofList [
  ("main.yini", "[#include]\n+= \"a.yini\"\n"),
  ("a.yini", "[S]\n+= 1\n")]

/-- The number is there once in the document, and twice in what its text is compiled to. -/
theorem appendingFiles_not_same : ∃ d e : Document,
    compileFile ⟨.ofTexts appendingFiles, .none, none⟩ "main.yini" = .ok d ∧
      (∀ v ∈ d.values, v.isFinite) ∧
        compile ⟨.ofTexts appendingFiles, .none, some "main.yini"⟩ d.text = .ok e ∧ d.same e = false := by
  have hok : ((compileFile ⟨.ofTexts appendingFiles, .none, none⟩ "main.yini").toOption.bind fun d =>
      (compile ⟨.ofTexts appendingFiles, .none, some "main.yini"⟩ d.text).toOption.map fun e =>
        (d.values.all Value.isFinite, d.same e)) = some (true, false) := by
    decide +kernel
  obtain ⟨d, hd, hok⟩ := Option.bind_eq_some_iff.mp hok
  obtain ⟨e, he, hok⟩ := Option.map_eq_some_iff.mp hok
  obtain ⟨hfinite, hsame⟩ := Prod.mk.inj hok
  exact ⟨d, e, eq_ok_of_toOption hd, List.all_eq_true.mp hfinite, eq_ok_of_toOption he, hsame⟩

end Compiler

end Yini
