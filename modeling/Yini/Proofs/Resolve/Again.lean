import Yini.Proofs.Resolve.Whole

/-!
Resolving a document that is resolved already.

In a document that is *settled* every value is plain, and every section has all the names of its
parents, so each step of resolving leaves it as it is (`Document.Settled`, `Leaves`).  What resolving
makes is settled once the macros have been gathered (`settled_of_resolve`).  So resolving it again
changes nothing but the table of macros, and that only if `[#define]` has inherited a property that
is not a macro of the same value (`resolve_resolve`, `inheritedMacro_resolve_again`).
-/

namespace Yini

open Relation

variable {α β : Type}

/-! ## Plain values -/

namespace Value

variable {lookup : Reference → Span → Resolve Value}

/-- A list is resolved as its items are, if none of them changes the state.  So it is with fields, with a
    value that may be missing, with the properties of a section, and with the rules of schemas. -/
theorem resolveItems_of_forall {vs ws : List Value}
    (h : List.Forall₂ (fun v w => v.resolve lookup = pure w) vs ws) : resolveItems lookup vs = pure ws := by
  induction h with
  | nil => rfl
  | cons h _ ih =>
    rw [resolveItems, h, ih]
    rfl

/-- Fields are resolved as their values are, if none of them changes the state. -/
theorem resolveFields_of_forall {fs gs : Entries Value}
    (h : List.Forall₂ (fun e f => f.1 = e.1 ∧ e.2.resolve lookup = pure f.2) fs gs) :
    resolveFields lookup fs = pure gs := by
  induction h with
  | nil => rfl
  | @cons e f _ _ h _ ih =>
    obtain ⟨k, v⟩ := e
    obtain ⟨l, w⟩ := f
    obtain ⟨rfl, h⟩ := h
    rw [resolveFields, h, ih]
    rfl

theorem resolveOption_eq_pure {o : Option Value} (h : ∀ v ∈ o, v.resolve lookup = pure v) :
    resolveOption lookup o = pure o := by
  cases o with
  | none => rfl
  | some v =>
    rw [resolveOption, h v rfl]
    rfl

/-- **A plain value is resolved to itself**, without a look at the state. -/
theorem resolve_of_plain (v : Value) (h : v.plain) : v.resolve lookup = pure v := by
  induction v using Value.induction with
  | atom a span => cases a <;> first | rfl | cases h
  | sequence k items span ih =>
    rw [plain, allPlain_iff] at h
    rw [resolve, resolveItems_of_forall (List.forall₂_same.mpr fun v hv => ih v hv (h v hv))]
    rfl
  | record k fields span ih =>
    rw [plain, allFieldsPlain_iff] at h
    rw [resolve, resolveFields_of_forall (List.forall₂_same.mpr fun e he => ⟨rfl, ih e he (h e he)⟩)]
    rfl
  | binary l op r span _ _ => cases h
  | neg v span _ => cases h
  | rule m d lo hi span ihd ihlo ihhi =>
    simp only [plain, Bool.and_eq_true, optionPlain_iff] at h
    rw [resolve, resolveOption_eq_pure fun v hv => ihd v hv (h.1 v hv),
      resolveOption_eq_pure fun v hv => ihlo v hv (h.2.1 v hv),
      resolveOption_eq_pure fun v hv => ihhi v hv (h.2.2 v hv)]
    rfl

end Value

theorem resolveTable_of_plain {lookup : Reference → Span → Resolve Value} {t : Table Value}
    (h : ∀ v ∈ t.values, v.plain) : resolveTable lookup t = pure t := by
  have hfields : Value.resolveFields lookup t.entries = pure t.entries :=
    Value.resolveFields_of_forall <| List.forall₂_same.mpr fun e he =>
      ⟨rfl, Value.resolve_of_plain e.2 (h e.2 (List.mem_map.mpr ⟨e, he, rfl⟩))⟩
  rw [resolveTable, hfields, pure_bind, Table.ofList_entries]

/-- Plain rules are left as they are, whatever the lookup does. -/
theorem resolveSchemas_of_plain (lookup : Reference → Span → Resolve Value) (es : Entries Section)
    (h : ∀ e ∈ es, ∀ v ∈ e.2.properties.values, v.plain) :
    resolveSchemas lookup es = pure es := by
  induction es with
  | nil => rfl
  | cons e es ih =>
    rw [resolveSchemas, resolveSchema, resolveTable_of_plain (h e List.mem_cons_self),
      ih fun f hf => h f (List.mem_cons_of_mem _ hf)]
    rfl

/-! ## Steps that keep what holds of the document -/

/-- The step succeeds, and what holds of the document before holds of it afterwards. -/
def Preserves (I : Document → Prop) (x : Resolve α) : Prop :=
  ∀ q, I q.document → ∃ a q', x q = .ok a q' ∧ I q'.document

namespace Preserves

variable {I : Document → Prop}

theorem pure (a : α) : Preserves I (pure a) := fun q hq => ⟨a, q, rfl, hq⟩

/-- One step after another keeps what both of them keep. -/
theorem bind {x : Resolve α} {f : α → Resolve β} (hx : Preserves I x) (hf : ∀ a, Preserves I (f a)) :
    Preserves I (x >>= f) := by
  intro q hq
  obtain ⟨a, q₁, hrun, hq₁⟩ := hx q hq
  rw [bind_of_ok hrun]
  exact hf a q₁ hq₁

theorem congr {x y : Resolve α} (h : ∀ q, I q.document → x q = y q) (hy : Preserves I y) :
    Preserves I x := by
  intro q hq
  rw [h q hq]
  exact hy q hq

theorem changeDocument {f : Document → Document} (h : ∀ d, I d → I (f d)) :
    Preserves I (changeDocument f) :=
  fun q hq => ⟨(), { q with document := f q.document }, rfl, h q.document hq⟩

/-- **A loop keeps what its steps keep.** -/
theorem forM {as : List α} {step : α → Resolve Unit} (h : ∀ a ∈ as, Preserves I (step a)) :
    Preserves I (as.forM step) := by
  induction as with
  | nil => exact .pure ()
  | cons a as ih =>
    exact (h a List.mem_cons_self).bind fun _ => ih fun b hb => h b (List.mem_cons_of_mem _ hb)

end Preserves

/-- The step succeeds and leaves this document as it is. -/
def Leaves (d : Document) (x : Resolve α) : Prop := Preserves (· = d) x

/-! ## Sections one after the other -/

/-- What `I` says of documents is kept while the sections that are ready are resolved: they have the
    parents that they have in `d`, adopting their properties keeps it, and so does resolving what is in
    them. -/
structure Stable (p : Providers) (d : Document) (ready : List String) (I : Document → Prop) : Prop where
  declared : ∀ e, I e → ∀ n ∈ ready, ∃ s t, d.sections.get? n = some s ∧ e.sections.get? n = some t ∧
    t.parents = s.parents
  parents : ∀ n ∈ ready, ∀ s, d.sections.get? n = some s → ∀ parent ∈ s.parents,
    parent ∈ ready ∧ ∀ e, I e → I (e.inherit n parent)
  contents : ∀ n ∈ ready, ∀ j, Preserves I (resolveContents p j n)
  grounded : ∀ n ∈ ready, d.Grounded (.ofSection n)

/-- **A section is resolved**, and what holds of the document is kept, if what it leads to is idle. -/
theorem Stable.preserves_resolveSection {p : Providers} {d : Document} {ready : List String}
    {I : Document → Prop} (h : Stable p d ready I) {node : Node} (hgrounded : d.Grounded node) :
    ∀ name ∈ ready, node = .ofSection name → ∀ i : Idle,
      (∀ n ∈ ready, ReflTransGen d.Edge (.ofSection name) (.ofSection n) → n ∈ i.sections) →
        Preserves I (resolveSection p i name) := by
  induction hgrounded with
  | intro node hnode ih =>
    rintro name hname rfl i hidle q hq
    by_cases hdone : name ∈ q.doneSections
    · exact ⟨(), q, resolveSection_of_done hdone, hq⟩
    obtain ⟨s, t, hs, ht, hparents⟩ := h.declared q.document hq name hname
    rw [resolveSection_of_idle hdone ht (hidle name hname .refl)]
    refine (Preserves.bind (.forM fun parent hparent => ?_) fun _ => h.contents name hname _) q hq
    rw [hparents] at hparent
    obtain ⟨hready, hinherit⟩ := h.parents name hname s hs parent hparent
    have hedge := Document.edge_parent hs hparent
    -- what the parent leads to is idle for it: the section is not among its own ancestors
    have hparentIdle : ∀ n ∈ ready, ReflTransGen d.Edge (.ofSection parent) (.ofSection n) →
        n ∈ (i.openSection name).sections := by
      intro n hn hreach
      have hcycle : n ≠ name := by
        rintro rfl
        exact (h.grounded n hname).not_self (.head' hedge hreach)
      exact (List.mem_erase_of_ne hcycle).mpr (hidle n hn (.head hedge hreach))
    have hrun := (ih (.ofSection parent) hedge parent hready rfl _ hparentIdle).bind fun _ =>
      Preserves.changeDocument (f := (·.inherit name parent)) hinherit
    refine .congr (fun q' hq' => ?_) hrun
    obtain ⟨-, u, -, hu, -⟩ := h.declared q'.document hq' parent hready
    exact adoptParent_of_declared (by rw [Table.contains, hu]; rfl)

/-! ## Settled documents -/

namespace Document

variable {p : Providers} {d : Document} {ready : List String}

theorem gatherMacros_eq_self_iff : d.gatherMacros = d ↔ d.Gathered := by
  refine ⟨fun h => h ▸ d.gathered_gatherMacros, fun h => ?_⟩
  unfold gatherMacros
  split
  next s hs =>
    have hmacros : d.macros.insertAll s.properties.entries = d.macros :=
      Table.insertAll_of_get? fun k v hv => h k v (by rw [get?, hs]; exact hv)
    rw [hmacros]
  next => rfl

/-- Nothing is left to resolve: the sections named here lead to no others, and their values, the
    macros and the values of rules are plain. -/
structure Settled (d : Document) (ready : List String) : Prop where
  gathered : d.Gathered
  macros : ∀ v ∈ d.macros.values, v.plain
  schemas : ∀ s ∈ d.schemas.values, ∀ v ∈ s.properties.values, v.plain
  contents : ∀ n ∈ ready, ∃ s, d.sections.get? n = some s ∧ ∀ v ∈ s.contents, v.plain
  parents : ∀ n ∈ ready, ∀ s, d.sections.get? n = some s → ∀ parent ∈ s.parents,
    parent ∈ ready ∧ ∀ k, (d.get? parent k).isSome → s.properties.contains k
  grounded : ∀ n ∈ ready, d.Grounded (.ofSection n)

namespace Settled

/-- Noting the value that a macro has changes nothing: `[#define]` has no other. -/
theorem putMacro_eq (h : d.Settled ready) {name : String} {v : Value}
    (hv : d.macros.get? name = some v) : d.putMacro name v = d := by
  have hmacros : d.macros.insert name v = d.macros := Table.ext (Entries.insert_of_get? hv)
  have hsections : d.sections.modify defineName (Section.note name v) = d.sections := by
    refine Table.modify_eq_self fun s hs => Section.note_eq_self fun w hw => ?_
    have hgathered := h.gathered name w (by rw [get?, hs]; exact hw)
    exact Option.some.inj (hgathered.symm.trans hv)
  show { d with macros := d.macros.insert name v
                sections := d.sections.modify defineName (Section.note name v) } = d
  rw [hmacros, hsections]

/-- A macro of a settled document is resolved to itself. -/
theorem leaves_resolveMacro (h : d.Settled ready) {i : Idle} {name : String}
    (hname : name ∈ d.macros.keys) (hidle : name ∈ i.macros) (span : Span) :
    Leaves d (resolveMacro p i name span) := by
  obtain ⟨v, hv⟩ := Option.isSome_iff_exists.mp (Table.contains_iff.mpr hname)
  have hplain := h.macros v (Table.mem_values_iff.mpr ⟨name, hv⟩)
  rintro q rfl
  by_cases hdone : name ∈ q.doneMacros
  · exact ⟨_, q, resolveMacro_of_done hv hdone, rfl⟩
  · rw [resolveMacro_of_idle hv hdone hidle, Value.resolve_of_plain v hplain]
    exact ⟨_, q.note name v, rfl, h.putMacro_eq hv⟩

/-- Taking plain values out of a section and putting back what they are resolved to changes
    nothing. -/
theorem leaves_resolveContents (h : d.Settled ready) {name : String} (hname : name ∈ ready)
    (j : Idle) : Leaves d (resolveContents p j name) := by
  obtain ⟨s, hs, hplain⟩ := h.contents name hname
  have hproperties : resolveTable (resolveReference p j) s.properties = pure s.properties :=
    resolveTable_of_plain fun v hv => hplain v (List.mem_append_left _ hv)
  have hregistry : Value.resolveItems (resolveReference p j) s.registry = pure s.registry :=
    Value.resolveItems_of_forall <| List.forall₂_same.mpr fun v hv =>
      Value.resolve_of_plain v (hplain v (Section.mem_contents_of_entry hv))
  rintro q rfl
  rw [resolveContents, bind_of_ok (takeContents_of_declared hs)]
  simp only [hproperties, hregistry, pure_bind]
  have hsections : ∀ t, q.document.sections.get? name = some t →
      { t with properties := s.properties, registry := s.registry } = t := by
    intro t ht
    rw [hs] at ht
    cases ht
    rfl
  have htable := (Table.modify_modify q.document.sections name
    ({ · with properties := ∅, registry := [] })
    ({ · with properties := s.properties, registry := s.registry })).trans
      (Table.modify_eq_self hsections)
  exact ⟨(), _, rfl, congrArg (fun sections => { q.document with sections }) htable⟩

/-- A settled document stays as it is while its sections are resolved. -/
theorem stable (h : d.Settled ready) : Stable p d ready (· = d) where
  declared := by
    rintro e rfl n hn
    obtain ⟨s, hs, -⟩ := h.contents n hn
    exact ⟨s, s, hs, hs, rfl⟩
  parents n hn s hs parent hparent := by
    obtain ⟨hready, hnames⟩ := h.parents n hn s hs parent hparent
    obtain ⟨t, ht, -⟩ := h.contents parent hready
    have hadopt : ∀ u, d.sections.get? n = some u → u.adopt t.properties = u := by
      intro u hu
      rw [hs] at hu
      cases hu
      refine Section.adopt_eq_self fun k hk => hnames k ?_
      rw [get?, ht]
      exact Table.contains_iff.mpr hk
    refine ⟨hready, ?_⟩
    rintro e rfl
    rw [inherit_eq ht, Table.modify_eq_self hadopt]
  contents _ hn _ := h.leaves_resolveContents hn _
  grounded := h.grounded

/-- **Resolving a settled document leaves it as it is**, if no section is missing from those that are
    ready. -/
theorem resolve_eq (h : d.Settled ready)
    (hall : ∀ n ∈ d.sections.keys, Section.isSpecialName n = false → n ∈ ready) :
    d.resolve p = .ok d := by
  have hpresent : ∀ n ∈ ready, n ∈ d.sections.keys := by
    intro n hn
    obtain ⟨s, hs, -⟩ := h.contents n hn
    exact Table.contains_iff.mp (by rw [Table.contains, hs]; rfl)
  have hmacros : ∀ m ∈ d.macros.keys,
      Leaves d (do let _ ← resolveMacro p (.all d) m .none) := fun m hm =>
    (h.leaves_resolveMacro hm hm .none).bind fun _ => .pure ()
  have hsections : ∀ n ∈ d.sections.keys.filter (!Section.isSpecialName ·),
      Leaves d (resolveSection p (.all d) n) := by
    intro n hn
    obtain ⟨hn, hspecial⟩ := List.mem_filter.mp hn
    have hready := hall n hn (by simpa using hspecial)
    exact h.stable.preserves_resolveSection (h.grounded n hready) n hready rfl _ fun m hm _ => hpresent m hm
  have hnodes : Leaves d (Progress.resolveNodes p d) := (Preserves.forM hmacros).bind fun _ => .forM hsections
  obtain ⟨_, ⟨e, dones, donem⟩, hrun, hq⟩ := hnodes ⟨d, [], []⟩ rfl
  obtain rfl : e = d := hq
  have hschemas := resolveSchemas_of_plain (resolveReference p (.all e))
    e.schemas.entries fun f hf =>
      h.schemas f.2 (List.mem_map.mpr ⟨f, hf, rfl⟩)
  have hfinal : resolveAll p ⟨e, [], []⟩ = .ok () ⟨e, dones, donem⟩ := by
    have hemptied : changeDocument ({ · with schemas := ∅ }) ⟨e, dones, donem⟩
        = .ok () ⟨{ e with schemas := ∅ }, dones, donem⟩ := rfl
    rw [Progress.resolveAll_eq, gatherMacros_eq_self_iff.mpr h.gathered, bind_of_ok hrun, get_bind,
      bind_of_ok hemptied, hschemas, pure_bind, Table.ofList_entries]
    rfl
  rw [resolve, resolveOrStop, hfinal]

end Settled

/-! ## Resolved documents -/

/-- The macros are gathered first, so it makes no difference if they have been. -/
theorem resolve_gatherMacros (d : Document) : d.gatherMacros.resolve p = d.resolve p := by
  have hgathered : d.gatherMacros.gatherMacros = d.gatherMacros :=
    gatherMacros_eq_self_iff.mpr d.gathered_gatherMacros
  unfold resolve resolveOrStop
  rw [Progress.resolveAll_eq, Progress.resolveAll_eq, hgathered]

section Resolved

open Progress

variable {q : Progress} (hsound : Sound d p (.all d) q)

include hsound

/-- A section that is done leads to its parents only. -/
theorem grounded_of_done {n : Node} (hgrounded : d.Grounded n) : ∀ name ∈ q.doneSections,
    n = .ofSection name → q.document.gatherMacros.Grounded n := by
  induction hgrounded with
  | intro n hnode ih =>
    rintro name hname rfl
    obtain ⟨s, t, hs, ht, hsolved⟩ := hsound.doneSection name hname
    have ht' : q.document.gatherMacros.sections.get? name = some t := by
      rwa [sections_gatherMacros]
    refine grounded_of_edges fun m hedge => ?_
    rcases edge_section_cases ht' hedge with ⟨parent, hparent, rfl⟩ | ⟨v, hv, r, hr, -⟩
    · obtain ⟨t', ht'', hparents⟩ := hsound.exists_section hs
      obtain rfl : t = t' := Option.some.inj (ht.symm.trans ht'')
      rw [hparents] at hparent
      exact ih (.ofSection parent) (edge_parent hs hparent) parent (hsolved.adopted parent hparent)
        rfl
    · rw [Value.references_of_plain v (hsolved.plain_contents hv)] at hr
      exact absurd hr List.not_mem_nil

/-- A section always holds what it declares, unless it is open. -/
theorem isSome_of_declared {n : String} {s : Section} (hs : d.sections.get? n = some s) {k : String}
    {e : Value} (he : s.properties.get? k = some e) : (q.document.get? n k).isSome := by
  obtain ⟨t, ht, -⟩ := hsound.exists_section hs
  have hheld : ∃ v, t.properties.get? k = some v := by
    by_cases hdone : n ∈ q.doneSections
    · obtain ⟨s', u, hs', hu, hsolved⟩ := hsound.doneSection n hdone
      obtain rfl : s = s' := Option.some.inj (hs.symm.trans hs')
      obtain rfl : t = u := Option.some.inj (ht.symm.trans hu)
      obtain ⟨v, hv, -⟩ := hsolved.declared k e he
      exact ⟨v, hv⟩
    · have hidle : n ∈ (Idle.all d).sections :=
        Table.contains_iff.mp (by rw [Table.contains, hs]; rfl)
      obtain ⟨v, hv, -⟩ := (hsound.waitingSection n hidle hdone s t hs ht).declared k e he
      exact ⟨v, hv⟩
  rw [get?, ht]
  exact Option.isSome_iff_exists.mpr hheld

variable (hcomplete : Complete d p q)

include hcomplete

/-- Every section without a special name is done. -/
theorem section_done {n : String} {t : Section} (ht : q.document.sections.get? n = some t)
    (hn : Section.isSpecialName n = false) : n ∈ q.doneSections := by
  obtain ⟨s, hs, -⟩ := hsound.declared_section ht
  exact hcomplete.sections n (Table.contains_iff.mp (by rw [Table.contains, hs]; rfl)) hn

/-- Every macro is done. -/
theorem macro_done {m : String} {v : Value} (hv : q.document.macros.get? m = some v) :
    m ∈ q.doneMacros := by
  by_contra hwait
  rw [hsound.waitingMacro m hwait] at hv
  exact hwait (hcomplete.macros m (Table.contains_iff.mp (by rw [Table.contains, hv]; rfl)))

/-- The macros that a resolved document has are plain. -/
theorem plain_of_macro {m : String} {v : Value} (hv : q.document.macros.get? m = some v) :
    v.plain := by
  obtain ⟨_, w, -, hw, heval⟩ := hsound.doneMacro m (macro_done hsound hcomplete hv)
  rw [hv] at hw
  rw [Option.some.inj hw]
  exact heval.plain

/-- As long as `[#define]` itself waits, it holds what it declares, and that is noted. -/
theorem gathered_of_waiting (hd : d.Gathered) (hwait : defineName ∉ q.doneSections) :
    q.document.Gathered := by
  intro k v hv
  obtain ⟨t, ht, hget⟩ := Option.bind_eq_some_iff.mp hv
  obtain ⟨s, hs, -⟩ := hsound.declared_section ht
  have hidle : defineName ∈ (Idle.all d).sections :=
    Table.contains_iff.mp (by rw [Table.contains, hs]; rfl)
  have hadopting := hsound.waitingSection defineName hidle hwait s t hs ht
  cases hdeclared : s.properties.get? k with
  | none =>
    have habsent : t.properties.get? k = none := hadopting.inherited k hdeclared
    rw [habsent] at hget
    cases hget
  | some e =>
    have hgathered := hd k e (by rw [get?, hs]; exact hdeclared)
    have hdone := hcomplete.macros k (Table.contains_iff.mp (by rw [Table.contains, hgathered]; rfl))
    exact hsound.noted hidle hwait k hdone v hv

/-- What `[#define]` declares has the value of the macro in the end. -/
theorem macro_of_declared (hd : d.Gathered) {s : Section} (hs : d.sections.get? defineName = some s)
    {k : String} {e v : Value} (he : s.properties.get? k = some e)
    (hv : q.document.get? defineName k = some v) : q.document.macros.get? k = some v := by
  by_cases hdone : defineName ∈ q.doneSections
  · obtain ⟨s', t, hs', ht, hsolved⟩ := hsound.doneSection defineName hdone
    obtain rfl : s = s' := Option.some.inj (hs.symm.trans hs')
    obtain ⟨w, hw, heval⟩ := hsolved.declared k e he
    rw [get?, ht, Option.bind_some, hw] at hv
    cases hv
    have hgathered := hd k e (by rw [get?, hs]; exact he)
    have hmem := hcomplete.macros k
      (Table.contains_iff.mp (by rw [Table.contains, hgathered]; rfl))
    obtain ⟨e', v', he', hv', heval'⟩ := hsound.doneMacro k hmem
    rw [hgathered] at he'
    cases he'
    -- both are the value of one expression, which does not refer to `[#define]`
    have hsteady := steady_of_grounded hs he (hsound.grounded (.ofSection defineName) hdone)
    rw [hv', ← Except.ok.inj ((heval.means hsteady).symm.trans (heval'.means hsteady))]
  · exact gathered_of_waiting hsound hcomplete hd hdone k v hv

/-- If `[#define]` has no parents, it declares what it holds, and its properties have the values of
    the macros. -/
theorem gathered_of_orphan (hd : d.Gathered)
    (horphan : ∀ s, d.sections.get? defineName = some s → s.parents = []) :
    q.document.Gathered := by
  by_cases hdone : defineName ∈ q.doneSections
  · intro k v hv
    obtain ⟨s, t, hs, ht, hsolved⟩ := hsound.doneSection defineName hdone
    have hget : t.properties.get? k = some v := by rwa [get?, ht] at hv
    cases hdeclared : s.properties.get? k with
    | none =>
      have hinherited := hsolved.inherited k hdeclared
      rw [horphan s hs, Inherited, hget] at hinherited
      cases hinherited
    | some e => exact macro_of_declared hsound hcomplete hd hs hdeclared hv
  · exact gathered_of_waiting hsound hcomplete hd hdone

/-- **What resolving makes is settled** once the macros have been gathered. -/
theorem settled_of_complete (hd : d.Gathered) :
    q.document.gatherMacros.Settled q.doneSections where
  gathered := gathered_gatherMacros q.document
  macros v hv := by
    obtain ⟨k, hk⟩ := Table.mem_values_iff.mp hv
    rw [get?_macros_gatherMacros] at hk
    -- gathering takes the value of `[#define]` where there is one, and that is plain as well:
    -- `[#define]` is done, or it still has what was gathered
    cases hdefine : q.document.get? defineName k with
    | none =>
      rw [hdefine, Option.none_or] at hk
      exact plain_of_macro hsound hcomplete hk
    | some w =>
      rw [hdefine, Option.some_or] at hk
      obtain rfl : w = v := Option.some.inj hk
      by_cases hdone : defineName ∈ q.doneSections
      · obtain ⟨_, t, -, ht, hsolved⟩ := hsound.doneSection defineName hdone
        rw [get?, ht] at hdefine
        exact hsolved.plain hdefine
      · exact plain_of_macro hsound hcomplete
          (gathered_of_waiting hsound hcomplete hd hdone k w hdefine)
  schemas s hs v hv := by
    rw [schemas_gatherMacros] at hs
    obtain ⟨k, hk⟩ := Table.mem_values_iff.mp hv
    obtain ⟨n, hn⟩ := Table.mem_values_iff.mp hs
    obtain ⟨_, -, hschema⟩ := hcomplete.schemas.exists_left hn
    have hvalue := hschema.rules k
    rw [hk] at hvalue
    exact Value.optionPlain_iff.mp hvalue.plain v rfl
  contents n hn := by
    obtain ⟨s, t, hs, ht, hsolved⟩ := hsound.doneSection n hn
    exact ⟨t, by rwa [sections_gatherMacros], fun v hv => hsolved.plain_contents hv⟩
  parents n hn t ht parent hparent := by
    obtain ⟨s, t', hs, ht', hsolved⟩ := hsound.doneSection n hn
    rw [sections_gatherMacros, ht'] at ht
    obtain rfl : t' = t := Option.some.inj ht
    obtain ⟨t'', ht'', hparents⟩ := hsound.exists_section hs
    obtain rfl : t' = t'' := Option.some.inj (ht'.symm.trans ht'')
    rw [hparents] at hparent
    refine ⟨hsolved.adopted parent hparent, fun k hk => ?_⟩
    rw [get?, sections_gatherMacros, ← get?] at hk
    exact hsolved.contains_of_parent hparent hk
  grounded n hn := grounded_of_done hsound (hsound.grounded (.ofSection n) hn) n hn rfl

end Resolved

/-- **Resolving again** changes nothing but the table of macros: what `[#define]` has inherited is
    gathered into it, and that is a change exactly if it is no macro of that value yet.  If `[#define]`
    has no parents, nothing changes. -/
theorem resolve_resolve {d r : Document} (h : d.resolve p = .ok r) :
    r.resolve p = .ok r.gatherMacros ∧ (r.gatherMacros = r ↔ r.Gathered) ∧
      ((∀ s, d.sections.get? defineName = some s → s.parents = []) → r.Gathered) := by
  obtain ⟨q, rfl, hsound, hcomplete⟩ := resolve_sound h
  have hd := d.gathered_gatherMacros
  refine ⟨?_, gatherMacros_eq_self_iff, fun horphan => ?_⟩
  · have hall : ∀ n ∈ q.document.gatherMacros.sections.keys, Section.isSpecialName n = false →
        n ∈ q.doneSections := by
      intro n hn hspecial
      rw [sections_gatherMacros] at hn
      obtain ⟨t, ht⟩ := Option.isSome_iff_exists.mp (Table.contains_iff.mpr hn)
      obtain ⟨s, hs, -⟩ := hsound.declared_section ht
      exact hcomplete.sections n (Table.contains_iff.mp (by rw [Table.contains, hs]; rfl)) hspecial
    have hagain := (settled_of_complete hsound hcomplete hd).resolve_eq (p := p) hall
    rwa [resolve_gatherMacros] at hagain
  · refine gathered_of_orphan hsound hcomplete hd fun s hs => horphan s ?_
    rwa [sections_gatherMacros] at hs

/-- A document with a macro that takes what a section inherits, which is made from another macro. -/
def chained : Document where
  sections := .ofList [
    (defineName, { name := defineName, properties := .ofList [("a", wide), ("b", three)] }),
    ("S", { name := "S", parents := ["Base"], registry := [.atom (.reference ⟨.macroName, "b"⟩) .none] }),
    ("Base", { name := "Base", properties := .ofList [
      ("x", .binary (.atom (.reference ⟨.macroName, "b"⟩) .none) .mul three .none)] })]
where
  /-- The value of one macro. -/
  wide : Value := .sequence .list [.atom (.reference ⟨.crossSection, "S.x"⟩) .none] .none
  /-- The value of the other. -/
  three : Value := .atom (.int 3) .none

/-- A chain of sections is the same document when it is resolved twice. -/
theorem resolve_resolve_chained : ∃ r, chained.resolve .none = .ok r ∧
    (∀ s, chained.sections.get? defineName = some s → s.parents = []) ∧
      r.gatherMacros = r ∧ r.resolve .none = .ok r := by
  have hok : (chained.resolve .none).toOption.isSome := by decide +kernel
  obtain ⟨r, hr⟩ := Option.isSome_iff_exists.mp hok
  have horphan : ∀ s, chained.sections.get? defineName = some s → s.parents = [] := by
    rintro s ⟨⟩
    rfl
  obtain ⟨hagain, hsame, hgathered⟩ := resolve_resolve (eq_ok_of_toOption hr)
  have hr' := hsame.mpr (hgathered horphan)
  exact ⟨r, eq_ok_of_toOption hr, horphan, hr', by rw [hagain, hr']⟩

/-- A document without macros whose `[#define]` inherits a property. -/
def inheritedMacro : Document where
  sections := .ofList [
    (defineName, { name := defineName, parents := ["Base"] }),
    ("S", { name := "S", parents := [defineName] }),
    ("Base", { name := "Base", properties := .ofList [("x", .atom (.int 1) .none)] })]

/-- What `[#define]` inherits becomes a macro only when the document is resolved again. -/
theorem inheritedMacro_resolve_again : ∃ r, inheritedMacro.resolve .none = .ok r ∧
    ∃ r', r.resolve .none = .ok r' ∧ r.macros.keys = [] ∧ r'.macros.keys = ["x"] := by
  have hkeys : (inheritedMacro.resolve .none).toOption.bind (fun r =>
      (r.resolve .none).toOption.map fun r' => (r.macros.keys, r'.macros.keys))
        = some ([], ["x"]) := by decide +kernel
  obtain ⟨r, hr, hkeys⟩ := Option.bind_eq_some_iff.mp hkeys
  obtain ⟨r', hr', hkeys⟩ := Option.map_eq_some_iff.mp hkeys
  obtain ⟨hfirst, hsecond⟩ := Prod.mk.inj hkeys
  exact ⟨r, eq_ok_of_toOption hr, r', eq_ok_of_toOption hr', hfirst, hsecond⟩

end Document

end Yini
