import Yini.Proofs.Resolve.Equations
import Yini.Proofs.Resolve.Stop

/-!
What a fault leaves of a document that was to be resolved.

Nothing is undone.  The roots before the one where the fault arose have been resolved, and so perhaps
has what they lead to (`Document.Determined`); the nodes of one path from that root are open; and any
other section is as it was, but for the values of macros that are noted in `[#define]`
(`resolveOrStop_error`).
-/

namespace Yini

namespace Progress

variable {α : Type} {d : Document} {p : Providers} {i : Idle} {q : Progress}

/-! ## Roots -/

/-- A root that cannot be resolved stops on a trail that begins with it. -/
theorem stops_resolveNode (hd : d.Gathered) (p : Providers) {n : Node} (hn : n ∈ d.roots)
    (hs : Sound d p (.all d) q) (hf : Framed d (.all d) q) :
    Stops d p (.all d) (.all d) (· = n) q (resolveNode p (.all d) n) := by
  obtain ⟨hsection, hnamed, -⟩ := stops_all hd p (.all d)
  obtain ⟨-, hmeets, -⟩ := meets_all hd p (.all d)
  cases n with
  | ofMacro name =>
    exact .bind (hmeets name .none (.of_root hn) q hs) (hnamed name .none (.of_root hn) q hs hf)
      fun _ q' _ _ _ hf' => .pure hf'
  | ofSection name => exact hsection name (.of_root hn) q hs hf

/-- **Nodes that are resolved one after the other** are done before the one where a fault arises. -/
theorem stops_forM {ns : List Node} {step : Node → Resolve Unit}
    (hmeets : ∀ n ∈ ns, ∀ q, Sound d p i q → Meets d p i i q (step n) fun _ q' => q'.Done n)
    (hstops : ∀ n ∈ ns, ∀ q, Sound d p i q → Framed d i q → Stops d p i i (· = n) q (step n)) :
    ∀ q, Sound d p i q → Framed d i q →
      match ns.forM step q with
      | .ok _ q' => Framed d i q'
      | .error _ q' => ∃ before root after, ns = before ++ root :: after ∧ (∀ n ∈ before, q'.Done n) ∧
          ∃ path k, Stopped d p i (· = root) q q' path k := by
  induction ns with
  | nil => exact fun q _ hf => hf
  | cons n ns ih =>
    intro q hs hf
    have hn := hmeets n List.mem_cons_self q hs
    have hstop := hstops n List.mem_cons_self q hs hf
    unfold Meets at hn
    unfold Stops at hstop
    show match (step n >>= fun _ => ns.forM step) q with
      | .ok _ q' => _
      | .error _ q' => _
    cases hrun : step n q with
    | error f q' =>
      rw [hrun] at hstop
      rw [bind_eq_error.mpr (.inl hrun)]
      exact ⟨[], n, ns, rfl, fun _ h => absurd h List.not_mem_nil, hstop⟩
    | ok _ q₁ =>
      rw [hrun] at hn hstop
      obtain ⟨hs₁, ha₁, hdone⟩ := hn
      -- the first node is done, and stays so until the fault arises
      have hrest := ih (fun m hm => hmeets m (List.mem_cons_of_mem _ hm))
        (fun m hm => hstops m (List.mem_cons_of_mem _ hm)) q₁ hs₁ hstop
      rw [bind_of_ok hrun]
      cases hrun' : ns.forM step q₁ with
      | ok _ q' => rwa [hrun'] at hrest
      | error f q' =>
        rw [hrun'] at hrest
        obtain ⟨before, root, after, rfl, hbefore, path, k, hstopped⟩ := hrest
        refine ⟨n :: before, root, after, rfl, ?_, path, k, hstopped.trail, hstopped.sound,
          hstopped.framed, hstopped.schemas.trans ha₁.schemas, fun m hm =>
            hstopped.done m (ha₁.keeps.done hm)⟩
        exact List.forall_mem_cons.mpr ⟨hstopped.done n hdone, hbefore⟩

/-! ## Schemas -/

/-- **The rules of schemas stop where the first of their values does**: those before it keep the invariant. -/
theorem stops_schemas {lookup : Reference → Span → Resolve Value} {starts : Node → Prop}
    {es : Entries Section} (h : ∀ e ∈ es, ∀ v ∈ e.2.properties.values, Tracks d p i lookup starts v) :
    ∀ q, Sound d p i q → Framed d i q → Stops d p i i starts q (resolveSchemas lookup es) := by
  induction es with
  | nil => exact fun q _ hf => .pure hf
  | cons e es ih =>
    intro q hs hf
    obtain ⟨he, hes⟩ := List.forall_mem_cons.mp h
    have htable : ∀ f ∈ e.2.properties.entries, Tracks d p i lookup starts f.2 :=
      fun f hf => he f.2 (List.mem_map.mpr ⟨f, hf, rfl⟩)
    have hmeets : Meets d p i i q (resolveSchema lookup e.2) fun _ _ => True :=
      (meets_table (fun f hf => (htable f hf).resolves) hs).bind fun _ q₁ hs₁ _ _ => .pure hs₁ trivial
    have hstops : Stops d p i i starts q (resolveSchema lookup e.2) :=
      .bind (meets_table (fun f hf => (htable f hf).resolves) hs) (stops_table htable hs hf)
        fun _ q₁ _ _ _ hf₁ => .pure hf₁
    refine .bind hmeets hstops fun s q₁ hs₁ _ _ hf₁ => ?_
    exact .bind (meets_schemas (fun f hf v hv => (hes f hf v hv).resolves) q₁ hs₁)
      (ih hes q₁ hs₁ hf₁) fun _ q₂ _ _ _ hf₂ => .pure hf₂

/-- The rules of a document stop on a trail from what they refer to. -/
theorem stops_rules (hd : d.Gathered) (p : Providers) (hs : Sound d p (.all d) q)
    (hf : Framed d (.all d) q) : Stops d p (.all d) (.all d) (· ∈ d.schemaRoots) q
      (resolveSchemas (resolveReference p (.all d)) d.schemas.entries) := by
  refine stops_schemas (fun e he v hv => tracks v fun r hr span => ?_) q hs hf
  have hroot : ∀ n, r.node? = some n → n ∈ d.schemaRoots := fun n hn =>
    List.mem_flatMap.mpr ⟨e.2, List.mem_map.mpr ⟨e, he, rfl⟩,
      List.mem_flatMap.mpr ⟨v, hv, List.mem_filterMap.mpr ⟨r, hr, hn⟩⟩⟩
  have hlead : ∀ n, r.node? = some n → d.Leads (.all d) n := fun n hn =>
    .of_root (List.mem_append_right _ (hroot n hn))
  exact ⟨fun q hs => (meets_all hd p _).2.2 r hlead span q hs,
    fun q hs hf => ((stops_all hd p _).2.2 r hlead span q hs hf).mono hroot⟩

/-! ## The whole run -/

/-- **Where a run stops**: at a root, with those before it done and the schemas as they were, or in a
    rule of a schema, with all roots done. -/
theorem resolveAll_stops {f : Fault} (h : resolveAll p ⟨d, [], []⟩ = .error f q) : ∃ path k,
    (∃ before root after, d.gatherMacros.dataRoots = before ++ root :: after ∧
      (∀ n ∈ before, q.Done n) ∧ Stopped d.gatherMacros p (.all d.gatherMacros) (· = root)
        ⟨d.gatherMacros, [], []⟩ q path k) ∨
    ((∀ n ∈ d.gatherMacros.dataRoots, q.Done n) ∧ ∃ q₁, Stopped d.gatherMacros p
      (.all d.gatherMacros) (· ∈ d.gatherMacros.schemaRoots) q₁ q path k) := by
  have hd := d.gathered_gatherMacros
  rw [resolveAll_eq] at h
  generalize d.gatherMacros = d at h hd ⊢
  have hroots : ∀ n ∈ d.dataRoots, n ∈ d.roots := fun n hn => List.mem_append_left _ hn
  have hnodes := stops_forM (fun n hn q hs => meets_resolveNode hd p (hroots n hn) hs)
    (fun n hn q hs hf => stops_resolveNode hd p (hroots n hn) hs hf) _ (sound_start d p)
    (framed_start d)
  rw [← resolveNodes_eq] at hnodes
  rcases bind_eq_error.mp h with hrun | ⟨_, q₁, hrun, hrest⟩
  · rw [hrun] at hnodes
    obtain ⟨before, root, after, hsplit, hbefore, path, k, hstopped⟩ := hnodes
    exact ⟨path, k, .inl ⟨before, root, after, hsplit, hbefore, hstopped⟩⟩
  · have hmeets := meets_dataRoots hd p
    rw [Meets, hrun] at hmeets
    rw [hrun] at hnodes
    obtain ⟨hs₁, ha₁, hdone⟩ := hmeets
    -- the schemas are out of the document while their rules are resolved
    have hrules := stops_rules hd p (hs₁.withSchemas ∅) (hnodes.withSchemas ∅)
    have hemptied : changeDocument ({ · with schemas := ∅ }) q₁ = .ok () (q₁.withSchemas ∅) := rfl
    rw [get_bind, bind_of_ok hemptied, ha₁.schemas] at hrest
    rcases bind_eq_error.mp hrest with hrun₂ | ⟨_, _, _, hfilled⟩
    · rw [Stops, hrun₂] at hrules
      obtain ⟨path, k, hstopped⟩ := hrules
      exact ⟨path, k, .inr ⟨fun n hn => hstopped.done n (hdone n hn), _, hstopped⟩⟩
    · cases hfilled

end Progress

/-- A section with the same hull and the same registry differs in its properties at most. -/
theorem Section.eq_of_hull {s t : Section} (h : t.hull = s.hull)
    (hregistry : t.registry = s.registry) : t = { s with properties := t.properties } := by
  obtain ⟨_, _, _, _, _, _⟩ := s
  obtain ⟨_, _, _, _, _, _⟩ := t
  simp only [Section.hull, Section.mk.injEq, true_and] at h hregistry ⊢
  exact ⟨h.1, h.2.1, hregistry, h.2.2⟩

namespace Document

variable {d e : Document} {p : Providers}

/-! ## What is left -/

/-- Whether a node of `d` has been resolved when `e` is what has become of it: a macro has the value of
    its expression, and a section holds nothing but values, which solve its equations.  The values of
    `[#define]` may be overwritten by macros, and so its equations are left out. -/
def Determined (p : Providers) (d e : Document) : Node → Prop
  | .ofMacro m => ∃ x v, d.gatherMacros.macros.get? m = some x ∧ e.macros.get? m = some v ∧
      v.plain ∧ (x.steady d → x.meaning (e.read p) = .ok v)
  | .ofSection n => ∃ s t, d.sections.get? n = some s ∧ e.sections.get? n = some t ∧
      (∀ v ∈ t.contents, v.plain) ∧ (n ≠ defineName → Solves p d e s t)

/-- What is left of `d` when a fault arises while the nodes of `path` are open.  All names stay in
    their order, and of sections all but their contents; macros have been gathered, and each is as it
    was declared or determined; and a section that is not open is as it was or determined, or it is
    `[#define]` with the values of determined macros in it. -/
structure Interrupted (p : Providers) (d e : Document) (path : List Node) : Prop where
  hulls : e.sections.mapValues Section.hull = d.sections.mapValues Section.hull
  macroNames : e.macros.keys = d.gatherMacros.macros.keys
  macros : ∀ m ∈ e.macros.keys,
    e.macros.get? m = d.gatherMacros.macros.get? m ∨ Determined p d e (.ofMacro m)
  sections : ∀ n s, d.sections.get? n = some s → .ofSection n ∉ path →
    e.sections.get? n = some s ∨ Determined p d e (.ofSection n) ∨
      n = defineName ∧ ∃ u, e.sections.get? n = some { s with properties := u } ∧
        u.keys = s.properties.keys ∧ ∀ k v, s.properties.get? k = some v →
          u.get? k = some v ∨ Determined p d e (.ofMacro k) ∧ u.get? k = e.macros.get? k

end Document

open Document

namespace Progress

variable {d : Document} {p : Providers} {i : Idle} {q : Progress}

/-- What is solved in the state of a run is solved as a section of its document. -/
theorem Solved.solves {n : String} {s t : Section} (h : Solved d.gatherMacros p q n s t)
    (hn : n ≠ defineName) : Solves p d q.document s t := by
  refine ⟨?_, fun k e he => ?_, fun k hnone hfirst => ?_, fun k hnone parent hfirst => ?_⟩
  · exact h.registry.imp fun e v heval hsteady => heval.means (by rwa [steady_gatherMacros])
  · obtain ⟨v, hv, heval⟩ := h.declared k e he
    exact ⟨v, hv, fun hsteady => heval.means (by rwa [steady_gatherMacros])⟩
  · have hinherited := h.inherited k hnone
    rwa [Inherited, hfirst] at hinherited
  · have hinherited := h.inherited k hnone
    rw [Inherited, hfirst] at hinherited
    -- `parent` is the first one that has the name
    obtain ⟨v, hv, -, hvalue⟩ := hinherited
    refine ⟨by rw [hv]; rfl, fun hparent => ?_⟩
    have hsettled : d.gatherMacros.contested k → n ≠ defineName ∧ parent ≠ defineName := by
      refine fun hcontested => ⟨hn, fun heq => ?_⟩
      rw [contested_gatherMacros, hparent heq] at hcontested
      cases hcontested
    rw [hv, hvalue hsettled]

/-- **What is done is determined by the declarations.** -/
theorem Sound.determined (h : Sound d.gatherMacros p i q) {n : Node} (hn : q.Done n) :
    Determined p d q.document n := by
  cases n with
  | ofMacro m =>
    obtain ⟨x, v, hx, hv, heval⟩ := h.doneMacro m hn
    exact ⟨x, v, hx, hv, heval.plain, fun hsteady => heval.means (by rwa [steady_gatherMacros])⟩
  | ofSection n =>
    obtain ⟨s, t, hs, ht, hsolved⟩ := h.doneSection n hn
    rw [sections_gatherMacros] at hs
    exact ⟨s, t, hs, ht, fun v hv => hsolved.plain_contents hv, hsolved.solves⟩

/-- **A document at the place where a run has stopped.** -/
theorem Stopped.interrupted {starts : Node → Prop} {q₀ : Progress} {path : List Node} {k : Idle}
    (h : Stopped d.gatherMacros p (.all d.gatherMacros) starts q₀ q path k) :
    Interrupted p d q.document path where
  hulls := by rw [h.framed.hulls, sections_gatherMacros]
  macroNames := h.framed.macroNames
  macros m _ := by
    by_cases hdone : m ∈ q.doneMacros
    · exact .inr (h.sound.determined hdone)
    · exact .inl (h.sound.waitingMacro m hdone)
  sections n s hs hpath := by
    rw [← sections_gatherMacros] at hs
    obtain ⟨t, ht, -⟩ := h.sound.exists_section hs
    by_cases hdone : n ∈ q.doneSections
    · exact .inr (.inl (h.sound.determined hdone))
    have hkeys : n ∈ d.gatherMacros.sections.keys :=
      Table.contains_iff.mp (by rw [Table.contains, hs]; rfl)
    -- a section that is neither done nor on the trail still waits
    have hidle : n ∈ k.sections := h.trail.has_of_not_mem (n := .ofSection n) hkeys hpath
    have hadopting := h.sound.waitingSection n hidle hdone s t hs ht
    have hnames := h.framed.propertyNames n hidle hdone s t hs ht
    have hhull : t.hull = s.hull := by
      have hget := congrArg (Table.get? · n) h.framed.hulls
      simp only [Table.get?_mapValues, hs, ht] at hget
      exact Option.some.inj hget
    have heq : t = { s with properties := t.properties } :=
      Section.eq_of_hull hhull hadopting.registry
    by_cases hn : n = defineName
    · refine .inr (.inr ⟨hn, t.properties, by rw [ht, ← heq], hnames, fun k v hk => ?_⟩)
      rcases hadopting.value with hvalue | ⟨-, hnamed, hvalue⟩
      · exact .inl (hvalue.trans hk)
      · exact .inr ⟨h.sound.determined hnamed, hvalue⟩
    · have hproperties : t.properties = s.properties :=
        Table.ext_get? hnames fun k => (hadopting.value).resolve_right fun hnoted => hn hnoted.1
      rw [hproperties] at heq
      exact .inl (by rw [ht, heq])

end Progress

namespace Document

/-- **What a fault leaves.**  While it arises the nodes of one path are open, each of them led to by the
    one before.  Either the path starts at a root, and the roots before it are determined and the
    schemas as they were, or it starts in a rule of a schema, and all roots are determined. -/
theorem resolveOrStop_error {d e : Document} {p : Providers} {f : Fault}
    (h : d.resolveOrStop p = .error (f, e)) : ∃ path : List Node,
      path.IsChain d.gatherMacros.Edge ∧ path.Nodup ∧ Interrupted p d e path ∧
        ((∃ before root after, d.gatherMacros.dataRoots = before ++ root :: after ∧
            (∀ n ∈ before, Determined p d e n) ∧ (∀ n ∈ path.head?, n = root) ∧ e.schemas = d.schemas) ∨
          (∀ n ∈ d.gatherMacros.dataRoots, Determined p d e n) ∧
            ∀ n ∈ path.head?, n ∈ d.gatherMacros.schemaRoots) := by
  have hrun : ∃ q, resolveAll p ⟨d, [], []⟩ = .error f q ∧ q.document = e := by
    unfold resolveOrStop at h
    cases hrun : resolveAll p ⟨d, [], []⟩ with
    | ok _ q => rw [hrun] at h; cases h
    | error g q => rw [hrun] at h; cases h; exact ⟨q, rfl, rfl⟩
  obtain ⟨q, hrun, rfl⟩ := hrun
  have hnodup := d.gatherMacros.sections.nodup_keys
  have hnodup' := d.gatherMacros.macros.nodup_keys
  obtain ⟨path, k, ⟨before, root, after, hsplit, hbefore, hstopped⟩ | ⟨hroots, q₁, hstopped⟩⟩ :=
    Progress.resolveAll_stops hrun
  · refine ⟨path, hstopped.trail.isChain, hstopped.trail.nodup hnodup hnodup', hstopped.interrupted,
      .inl ⟨before, root, after, hsplit, fun n hn => hstopped.sound.determined (hbefore n hn),
        hstopped.trail.start, ?_⟩⟩
    rw [hstopped.schemas]
    exact schemas_gatherMacros d
  · exact ⟨path, hstopped.trail.isChain, hstopped.trail.nodup hnodup hnodup', hstopped.interrupted,
      .inr ⟨fun n hn => hstopped.sound.determined (hroots n hn), hstopped.trail.start⟩⟩

/-- A section with a sum, and a section whose parent is missing. -/
def halfResolved : Document where
  sections := .ofList [
    ("A", {
      name := "A"
      properties := .ofList
        [("x", .binary (.atom (.int 1) .none) .add (.atom (.int 2) .none) .none)] }),
    ("B", { name := "B", parents := ["Missing"] })]

/-- A document with a section that is resolved before the fault, and one that is open then. -/
theorem resolveOrStop_error_halfResolved : ∃ f e, halfResolved.resolveOrStop .none = .error (f, e) ∧
    ∃ path : List Node, path.IsChain halfResolved.gatherMacros.Edge ∧ path.Nodup ∧
      Interrupted .none halfResolved e path := by
  have hfault : (fault? (halfResolved.resolveOrStop .none)).isSome := by decide +kernel
  obtain ⟨⟨f, e⟩, hfault⟩ := Option.isSome_iff_exists.mp hfault
  have hstop := eq_error_of_fault? hfault
  obtain ⟨path, hchain, hnodup, hleft, -⟩ := resolveOrStop_error hstop
  exact ⟨f, e, hstop, path, hchain, hnodup, hleft⟩

/-- The fault is in the second section, and the first one stays resolved. -/
theorem halfResolved_changed : ∃ f e, halfResolved.resolveOrStop .none = .error (f, e) ∧
    f.code = 303 ∧ (e.get? "A" "x").bind Value.int? = some 3 ∧ e ≠ halfResolved := by
  have hvalues : (fault? (halfResolved.resolveOrStop .none)).map
      (fun stop => (stop.1.code, (stop.2.get? "A" "x").bind Value.int?)) = some (303, some 3) := by
    decide +kernel
  obtain ⟨⟨f, e⟩, hfault, hvalues⟩ := Option.map_eq_some_iff.mp hvalues
  obtain ⟨hcode, hsum⟩ := Prod.mk.inj hvalues
  refine ⟨f, e, eq_error_of_fault? hfault, hcode, hsum, ?_⟩
  rintro rfl
  have hnone : (halfResolved.get? "A" "x").bind Value.int? = none := rfl
  rw [hnone] at hsum
  cases hsum

end Document

end Yini
