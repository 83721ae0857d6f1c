import Yini.Proofs.Resolve.Run

/-!
Resolving a whole document: macros, sections, and the rules of schemas.

When it succeeds, the invariant holds and every root is done (`resolve_sound`); when it fails because
something depends on itself, a cycle can be reached from a root (`cyclic_of_resolve_error`).
-/

namespace Yini

namespace Progress

variable {α : Type} {d : Document} {p : Providers} {i : Idle} {q q' : Progress}

/-! ## Schemas -/

/-- The state with other schema sections. -/
def withSchemas (q : Progress) (schemas : Table Section) : Progress :=
  { q with document := { q.document with schemas := schemas } }

theorem Keeps.withSchemas (schemas : Table Section) : Keeps d q (q.withSchemas schemas) :=
  ⟨fun _ h => h, fun _ h => h, fun _ _ => rfl, fun _ _ _ => rfl, fun _ _ _ _ => rfl⟩

/-- The invariant says nothing about schemas. -/
theorem Sound.withSchemas (h : Sound d p i q) (schemas : Table Section) :
    Sound d p i (q.withSchemas schemas) where
  nodupSections := h.nodupSections
  nodupMacros := h.nodupMacros
  idleSection := h.idleSection
  idleMacro := h.idleMacro
  headings := h.headings
  waitingMacro := h.waitingMacro
  doneMacro := h.doneMacro.mono (.withSchemas schemas) rfl
  waitingSection n hn hwait s t hs ht :=
    (h.waitingSection n hn hwait s t hs ht).mono (.withSchemas schemas)
  doneSection n hn := by
    obtain ⟨s, t, hs, ht, hsolved⟩ := h.doneSection n hn
    exact ⟨s, t, hs, ht, hsolved.mono (.withSchemas schemas)⟩
  grounded := h.grounded
  reached := h.reached
  noted := h.noted

/-- A schema section `t` has the values of the expressions in the rules of its declaration `s`, and
    keeps all else. -/
structure SchemaEvaluated (d : Document) (p : Providers) (q : Progress) (s t : Section) : Prop where
  heading : t.heading = s.heading
  registry : t.registry = s.registry
  rules : ∀ k, OptionEvaluated d p q (s.properties.get? k) (t.properties.get? k)

theorem SchemaEvaluated.mono {s t : Section} (h : SchemaEvaluated d p q s t) (hk : Keeps d q q') :
    SchemaEvaluated d p q' s t :=
  ⟨h.heading, h.registry, fun k => (h.rules k).mono hk⟩

/-- **The schemas are evaluated one after the other**: those that have been stay so while the others are. -/
theorem meets_schemas {lookup : Reference → Span → Resolve Value} {es : Entries Section}
    (h : ∀ e ∈ es, ∀ v ∈ e.2.properties.values, Resolves d p i lookup v) :
    ∀ q, Sound d p i q → Meets d p i i q (resolveSchemas lookup es) fun fs q' =>
      List.Forall₂ (fun e f => f.1 = e.1 ∧ SchemaEvaluated d p q' e.2 f.2) es fs := by
  induction es with
  | nil => exact fun q hs => .pure hs .nil
  | cons e es ih =>
    intro q hs
    have htable : ∀ f ∈ e.2.properties.entries, Resolves d p i lookup f.2 := fun f hf =>
      h e List.mem_cons_self f.2 (List.mem_map.mpr ⟨f, hf, rfl⟩)
    have hschema : Meets d p i i q (resolveSchema lookup e.2) fun s q' =>
        SchemaEvaluated d p q' e.2 s :=
      (meets_table htable hs).bind fun new q₁ hs₁ _ hnew => .pure hs₁ ⟨rfl, rfl, hnew⟩
    refine hschema.bind fun s q₁ hs₁ _ hvalues => ?_
    refine (ih (fun f hf => h f (List.mem_cons_of_mem _ hf)) q₁ hs₁).bind
      fun fs q₂ hs₂ ha₂ hfs => ?_
    exact .pure hs₂ (.cons ⟨rfl, hvalues.mono ha₂.keeps⟩ hfs)

/-! ## Everything -/

/-- At the start everything waits. -/
theorem sound_start (d : Document) (p : Providers) : Sound d p (.all d) ⟨d, [], []⟩ where
  nodupSections := d.sections.nodup_keys
  nodupMacros := d.macros.nodup_keys
  idleSection _ hn := absurd hn List.not_mem_nil
  idleMacro _ hm := absurd hm List.not_mem_nil
  headings _ := rfl
  waitingMacro _ _ := rfl
  doneMacro _ hm := absurd hm List.not_mem_nil
  waitingSection n _ _ s t hs ht := by
    obtain rfl : s = t := Option.some.inj (hs.symm.trans ht)
    exact ⟨fun _ hp => absurd hp List.not_mem_nil, rfl, fun k e he => ⟨e, he, .inl rfl⟩,
      fun k hnone => hnone⟩
  doneSection _ hn := absurd hn List.not_mem_nil
  grounded n hn := by cases n <;> exact absurd hn List.not_mem_nil
  reached n hn := by cases n <;> exact absurd hn List.not_mem_nil
  noted _ _ _ hm := absurd hm List.not_mem_nil

/-- Nodes that are resolved one after the other are done in the end. -/
theorem meets_forM {as : List α} {step : α → Resolve Unit} {node : α → Node}
    (h : ∀ a ∈ as, ∀ q, Sound d p i q → Meets d p i i q (step a) fun _ q' => q'.Done (node a)) :
    ∀ q, Sound d p i q →
      Meets d p i i q (as.forM step) fun _ q' => ∀ a ∈ as, q'.Done (node a) := by
  induction as with
  | nil => exact fun q hs => .pure hs fun _ ha => absurd ha List.not_mem_nil
  | cons a as ih =>
    intro q hs
    refine (h a List.mem_cons_self q hs).bind fun _ q₁ hs₁ _ hdone => ?_
    refine (ih (fun b hb => h b (List.mem_cons_of_mem _ hb)) q₁ hs₁).imp
      fun _ q₂ _ ha₂ hrest b hb => ?_
    rcases List.mem_cons.mp hb with rfl | hb
    · exact ha₂.keeps.done hdone
    · exact hrest b hb

/-- What holds when everything is resolved. -/
structure Complete (d : Document) (p : Providers) (q : Progress) : Prop where
  macros : ∀ m ∈ d.macros.keys, q.Done (.ofMacro m)
  sections : ∀ n ∈ d.sections.keys, Section.isSpecialName n = false → q.Done (.ofSection n)
  schemas : d.schemas.Match (SchemaEvaluated d p q) q.document.schemas

/-- When everything is resolved, every root is done. -/
theorem Complete.done_of_root (h : Complete d p q) {n : Node} (hn : n ∈ d.roots) : q.Done n := by
  rcases Document.mem_roots_cases hn with
    ⟨m, hm, rfl⟩ | ⟨m, hm, hspecial, rfl⟩ | ⟨s, hs, v, hv, r, hr, hnode⟩
  · exact h.macros m hm
  · exact h.sections m hm hspecial
  · -- the rule has a value, so all that it refers to is done
    obtain ⟨name, hs⟩ := Table.mem_values_iff.mp hs
    obtain ⟨_, -, hschema⟩ := h.schemas.exists_right hs
    obtain ⟨k, hk⟩ := Table.mem_values_iff.mp hv
    have hvalue := hschema.rules k
    rw [hk] at hvalue
    obtain ⟨w, -, heval⟩ := hvalue
    exact heval.settled r hr n hnode

/-- Macros and sections of the document, resolved one after the other. -/
def resolveNodes (p : Providers) (d : Document) : Resolve Unit := do
  d.macros.keys.forM fun name => do
    let _ ← resolveMacro p (.all d) name .none
  (d.sections.keys.filter (!Section.isSpecialName ·)).forM (resolveSection p (.all d))

/-- To resolve a document is to gather its macros, to resolve its nodes, and then its schemas. -/
theorem resolveAll_eq (p : Providers) (d : Document) :
    resolveAll p ⟨d, [], []⟩ = (resolveNodes p d.gatherMacros >>= fun _ => do
      let schemas := (← get).document.schemas
      changeDocument ({ · with schemas := ∅ })
      let schemas ← resolveSchemas (resolveReference p (.all d.gatherMacros)) schemas.entries
      changeDocument ({ · with schemas := .ofList schemas })) ⟨d.gatherMacros, [], []⟩ := by
  rw [resolveNodes, bind_assoc]
  rfl

/-- Resolves a section or a macro. -/
def resolveNode (p : Providers) (i : Idle) : Node → Resolve Unit
  | .ofMacro name => do let _ ← resolveMacro p i name .none
  | .ofSection name => resolveSection p i name

/-- The macros and sections of a document are its roots, resolved one after the other. -/
theorem resolveNodes_eq (p : Providers) (d : Document) :
    resolveNodes p d = d.dataRoots.forM (resolveNode p (.all d)) := by
  show _ = forM (d.macros.keys.map Node.ofMacro ++ _) _
  rw [List.forM_append, List.forM_map, List.forM_map]
  rfl

theorem meets_resolveNode (hd : d.Gathered) (p : Providers) {n : Node} (hn : n ∈ d.roots)
    (hs : Sound d p (.all d) q) :
    Meets d p (.all d) (.all d) q (resolveNode p (.all d) n) fun _ q' => q'.Done n := by
  obtain ⟨hsection, hnamed, -⟩ := meets_all hd p (.all d)
  cases n with
  | ofMacro name =>
    exact (hnamed name .none (.of_root hn) q hs).bind fun _ q' hs' _ hdone => .pure hs' hdone.1
  | ofSection name => exact hsection name (.of_root hn) q hs

/-- **All roots but those of the schemas are done** when the nodes have been resolved. -/
theorem meets_dataRoots (hd : d.Gathered) (p : Providers) :
    Meets d p (.all d) (.all d) ⟨d, [], []⟩ (resolveNodes p d) fun _ q =>
      ∀ n ∈ d.dataRoots, q.Done n := by
  rw [resolveNodes_eq]
  have hnodes : ∀ n ∈ d.dataRoots, ∀ q, Sound d p (.all d) q →
      Meets d p (.all d) (.all d) q (resolveNode p (.all d) n) fun _ q' => q'.Done n :=
    fun n hn q hs => meets_resolveNode hd p (List.mem_append_left _ hn) hs
  exact meets_forM hnodes _ (sound_start d p)

/-- Macros and sections without special meaning are done when the nodes have been resolved. -/
theorem meets_resolveNodes (hd : d.Gathered) (p : Providers) :
    Meets d p (.all d) (.all d) ⟨d, [], []⟩ (resolveNodes p d) fun _ q =>
      (∀ m ∈ d.macros.keys, q.Done (.ofMacro m)) ∧
        ∀ n ∈ d.sections.keys, Section.isSpecialName n = false → q.Done (.ofSection n) :=
  (meets_dataRoots hd p).imp fun _ _ _ _ hdone =>
    ⟨fun _ hm => hdone _ (Document.macro_mem_dataRoots hm),
      fun _ hn hspecial => hdone _ (Document.section_mem_dataRoots hn hspecial)⟩

/-- The rules of schemas refer to roots. -/
theorem meets_rules (hd : d.Gathered) (p : Providers) : ∀ q, Sound d p (.all d) q →
    Meets d p (.all d) (.all d) q (resolveSchemas (resolveReference p (.all d)) d.schemas.entries)
      fun fs q' => List.Forall₂ (fun e f => f.1 = e.1 ∧ SchemaEvaluated d p q' e.2 f.2)
        d.schemas.entries fs := by
  refine meets_schemas fun e he v hv => ?_
  have hschema : e.2 ∈ d.schemas.values := List.mem_map.mpr ⟨e, he, rfl⟩
  exact resolves v fun r hr => (meets_all hd p (.all d)).2.2 r fun n hn =>
    .of_root (Document.schema_mem_roots hschema hv hr hn)

end Progress

/-! ## Documents -/

namespace Document

theorem gathered_gatherMacros (d : Document) : d.gatherMacros.Gathered := by
  intro k e he
  have hget : d.get? defineName k = some e := by
    rwa [get?, sections_gatherMacros, ← get?] at he
  rw [get?_macros_gatherMacros, hget]
  rfl

open Progress in
/-- **How resolving a document ends.**  If it succeeds, the invariant holds, everything is done, and
    the rules of schemas have their values; and if it fails because something depends on itself, a
    cycle can be reached from a root. -/
theorem resolveAll_spec (p : Providers) (d : Document) :
    match resolveAll p ⟨d, [], []⟩ with
    | .ok _ q => Sound d.gatherMacros p (.all d.gatherMacros) q ∧ Complete d.gatherMacros p q
    | .error f _ => f.circular → d.gatherMacros.Cyclic := by
  have hd := d.gathered_gatherMacros
  rw [resolveAll_eq]
  generalize d.gatherMacros = d at hd ⊢
  have hnodes := meets_resolveNodes hd p
  unfold Meets at hnodes
  cases hrun : resolveNodes p d ⟨d, [], []⟩ with
  | error f q =>
    rw [hrun] at hnodes
    rwa [bind_eq_error.mpr (.inl hrun)]
  | ok u q₁ =>
    rw [hrun] at hnodes
    obtain ⟨hs₁, ha₁, hmacros, hsections⟩ := hnodes
    have hschemas := meets_rules hd p _ (hs₁.withSchemas ∅)
    have hemptied : changeDocument ({ · with schemas := ∅ }) q₁ = .ok () (q₁.withSchemas ∅) := rfl
    rw [bind_of_ok hrun, get_bind, bind_of_ok hemptied, ha₁.schemas]
    unfold Meets at hschemas
    cases hrun₂ : resolveSchemas (resolveReference p (.all d)) d.schemas.entries
        (q₁.withSchemas ∅) with
    | error f q =>
      rw [hrun₂] at hschemas
      rwa [bind_eq_error.mpr (.inl hrun₂)]
    | ok fs q₂ =>
      rw [hrun₂] at hschemas
      obtain ⟨hs₂, ha₂, hvalues⟩ := hschemas
      have hfilled : changeDocument ({ · with schemas := .ofList fs }) q₂
          = .ok () (q₂.withSchemas (.ofList fs)) := rfl
      rw [bind_of_ok hrun₂, hfilled]
      -- the schemas have no part in what is done, so taking them out and putting them back keeps it
      have hk : Keeps d q₁ (q₂.withSchemas (.ofList fs)) :=
        ((Keeps.withSchemas ∅).trans ha₂.keeps).trans (.withSchemas _)
      refine ⟨hs₂.withSchemas _, fun m hm => hk.done (hmacros m hm),
        fun n hn hspecial => hk.done (hsections n hn hspecial), ?_⟩
      exact Table.Match.of_forall₂ (hvalues.imp fun _ _ h => ⟨h.1, h.2.mono (.withSchemas _)⟩)

/-- A document is resolved when the run comes to its end. -/
theorem resolve_eq_ok {p : Providers} {d r : Document} :
    d.resolve p = .ok r ↔ ∃ q, resolveAll p ⟨d, [], []⟩ = .ok () q ∧ q.document = r := by
  unfold resolve resolveOrStop
  cases resolveAll p ⟨d, [], []⟩ <;> simp

/-- The rules of schemas are resolved when the macros and the sections have been. -/
theorem resolve_phases {p : Providers} {d r : Document} :
    d.resolve p = .ok r ↔ ∃ q fs q',
      Progress.resolveNodes p d.gatherMacros ⟨d.gatherMacros, [], []⟩ = .ok () q ∧
        resolveSchemas (resolveReference p (.all d.gatherMacros)) q.document.schemas.entries
          (q.withSchemas ∅) = .ok fs q' ∧ (q'.withSchemas (.ofList fs)).document = r := by
  rw [resolve_eq_ok, Progress.resolveAll_eq]
  constructor
  · rintro ⟨q₂, hrun, rfl⟩
    obtain ⟨_, q, hnodes, hrest⟩ := bind_eq_ok.mp hrun
    rw [get_bind] at hrest
    obtain ⟨_, _, hemptied, hrest⟩ := bind_eq_ok.mp hrest
    cases hemptied
    obtain ⟨fs, q', hschemas, hfilled⟩ := bind_eq_ok.mp hrest
    cases hfilled
    exact ⟨q, fs, q', hnodes, hschemas, rfl⟩
  · rintro ⟨q, fs, q', hnodes, hschemas, rfl⟩
    have hemptied : changeDocument ({ · with schemas := ∅ }) q = .ok () (q.withSchemas ∅) := rfl
    refine ⟨_, ?_, rfl⟩
    rw [bind_of_ok hnodes, get_bind, bind_of_ok hemptied, bind_of_ok hschemas]
    rfl

/-- The last state of a run kept the invariant. -/
theorem resolveAll_sound {p : Providers} {d : Document} {q : Progress}
    (h : resolveAll p ⟨d, [], []⟩ = .ok () q) :
    Progress.Sound d.gatherMacros p (.all d.gatherMacros) q ∧
      Progress.Complete d.gatherMacros p q := by
  have hspec := resolveAll_spec p d
  rwa [h] at hspec

/-- A resolved document is the last state of a run that kept the invariant. -/
theorem resolve_sound {p : Providers} {d r : Document} (h : d.resolve p = .ok r) :
    ∃ q : Progress, q.document = r ∧ Progress.Sound d.gatherMacros p (.all d.gatherMacros) q ∧
      Progress.Complete d.gatherMacros p q := by
  obtain ⟨q, hrun, rfl⟩ := resolve_eq_ok.mp h
  exact ⟨q, rfl, resolveAll_sound hrun⟩

/-- If a document cannot be resolved because something depends on itself, there is a cycle. -/
theorem cyclic_of_resolve_error {p : Providers} {d : Document} {f : Fault}
    (h : d.resolve p = .error f) (hf : f.circular) : d.gatherMacros.Cyclic := by
  have hspec := resolveAll_spec p d
  unfold resolve resolveOrStop at h
  cases hrun : resolveAll p ⟨d, [], []⟩ with
  | ok u q => rw [hrun] at h; cases h
  | error g q =>
    rw [hrun] at h hspec
    cases h
    exact hspec hf

end Document

end Yini
