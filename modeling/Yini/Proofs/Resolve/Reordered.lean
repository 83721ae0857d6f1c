import Yini.Proofs.Resolve.Success

/-!
Resolving does not depend on the order of declarations, but for tainted values
(`resolve_reordered`).

A document whose names stand in another order has the same graph and the same tainted slots, and so a
solution of the one is a solution of the other (`Solution.reorder`).  What is left is that a document
with a solution can be resolved, and that its solutions agree.
-/

namespace Yini

open Relation

namespace Document

/-- Two documents hold the same under the same names, in whatever order the names stand. -/
def Reordered (d e : Document) : Prop := d.Match (· = ·) e

variable {d e : Document} {p : Providers}

/-- Documents that agree on everything hold the same. -/
theorem AgreeBut.reordered {except : Slot → Prop} (h : AgreeBut except d e)
    (hnone : ∀ s, ¬except s) : d.Reordered e := by
  have hvalues := fun s => h.values s (hnone s)
  refine ⟨h.names.sections.imp fun n s t hs ht hst => hst.of_eq (fun k => ?_)
    (List.ext_getElem? fun index => ?_), .of_get?_eq fun m => hvalues (.ofMacro m),
    h.names.schemas.imp fun n s t hs ht hst => hst.of_eq (fun k => ?_) ?_⟩
  · simpa only [valueAt?, get?, hs, ht, Option.bind_some] using hvalues (.property n k)
  · simpa only [valueAt?, hs, ht, Option.bind_some] using hvalues (.entry n index)
  · simpa only [valueAt?, hs, ht, Option.bind_some] using hvalues (.rule n k)
  · simpa only [hs, ht, Option.map_some, Option.some.injEq] using h.schemaRegistries n

namespace Reordered

theorem symm (h : d.Reordered e) : e.Reordered d where
  sections := h.sections.flip.imp fun _ _ _ _ _ hst => hst.symm
  macros := .of_get?_eq fun m => (h.macros.get?_eq m).symm
  schemas := h.schemas.flip.imp fun _ _ _ _ _ hst => hst.symm

variable (h : d.Reordered e)

include h

/-- The declared values do not depend on the order. -/
theorem valueAt?_eq (s : Slot) : d.valueAt? s = e.valueAt? s := by
  cases s with
  | ofMacro m => exact h.macros.get?_eq m
  | property n k => exact h.sections.bind_eq (fun _ _ hst => hst.properties.get?_eq k) n
  | entry n index => exact h.sections.bind_eq (fun _ _ hst => by rw [hst.registry_eq]) n
  | rule n k => exact h.schemas.bind_eq (fun _ _ hst => hst.properties.get?_eq k) n

/-! ## The same graph -/

/-- The contested properties do not depend on the order. -/
theorem contested_eq (k : String) : d.contested k = e.contested k := by
  have hdefine : d.get? defineName k = e.get? defineName k := h.valueAt?_eq (.property defineName k)
  rw [contested, contested, h.macros.contains_eq, hdefine]

theorem edge {n m : Node} (hedge : d.Edge n m) : e.Edge n m := by
  cases n with
  | ofMacro name =>
    cases hv : d.macros.get? name with
    | none =>
      have hnone : m ∈ d.successors (.ofMacro name) := hedge
      simp only [successors, hv, List.not_mem_nil] at hnone
    | some v =>
      obtain ⟨r, hr, hm⟩ := edge_macro_cases hv hedge
      exact edge_macro ((h.macros.get?_eq name).symm.trans hv) hr hm
  | ofSection name =>
    cases hs : d.sections.get? name with
    | none =>
      have hnone : m ∈ d.successors (.ofSection name) := hedge
      simp only [successors, hs, List.not_mem_nil] at hnone
    | some s =>
      rcases edge_section_cases hs hedge with ⟨parent, hparent, rfl⟩ | ⟨v, hv, r, hr, hm⟩
      · obtain ⟨t, ht, hst⟩ := h.sections.exists_right hs
        exact edge_parent ht (hst.parents ▸ hparent)
      · obtain ⟨slot, hslot, hnode⟩ := exists_slot_of_contents hs hv
        exact edge_of_valueAt? hnode ((h.valueAt?_eq slot).symm.trans hslot) hr hm

theorem mem_roots {n : Node} (hn : n ∈ d.roots) : n ∈ e.roots := by
  rcases mem_roots_cases hn with
    ⟨m, hm, rfl⟩ | ⟨m, hm, hspecial, rfl⟩ | ⟨s, hs, v, hv, r, hr, hnode⟩
  · exact List.mem_append_left _ (macro_mem_dataRoots (h.macros.mem_keys_iff.mp hm))
  · exact List.mem_append_left _ (section_mem_dataRoots (h.sections.mem_keys_iff.mp hm) hspecial)
  · obtain ⟨name, hs⟩ := Table.mem_values_iff.mp hs
    obtain ⟨k, hk⟩ := Table.mem_values_iff.mp hv
    obtain ⟨t, ht, hst⟩ := h.schemas.exists_right hs
    rw [hst.properties.get?_eq] at hk
    exact schema_mem_roots (Table.mem_values_iff.mpr ⟨name, ht⟩)
      (Table.mem_values_iff.mpr ⟨k, hk⟩) hr hnode

/-- What is reached does not depend on the order. -/
theorem reached {n : Node} (hn : d.Reached n) : e.Reached n := by
  obtain ⟨root, hroot, hreach⟩ := hn
  exact ⟨root, h.mem_roots hroot, ReflTransGen.mono (fun _ _ => h.edge) _ _ hreach⟩

/-- What is grounded does not depend on the order. -/
theorem grounded {n : Node} (hn : d.Grounded n) : e.Grounded n := by
  induction hn with
  | intro n _ ih => exact grounded_of_edges fun m hm => ih m (h.symm.edge hm)

/-- The slots in use do not depend on the order. -/
theorem inUse {s : Slot} (hs : d.InUse s) : e.InUse s := fun n hn => h.reached (hs n hn)

/-- **The same sections hold a property of a name**, declared or inherited: the induction is on the chain of
    parents from which it comes. -/
theorem holds {k n : String} (hn : d.Holds k n) : e.Holds k n := by
  induction hn with
  | @declared n hn =>
    have hget : d.get? n k = e.get? n k := h.valueAt?_eq (.property n k)
    exact .declared (hget ▸ hn)
  | inherited hs hparent _ ih =>
    obtain ⟨t, ht, hst⟩ := h.sections.exists_right hs
    exact .inherited ht (hst.parents ▸ hparent) ih

/-- **The same slots are tainted**, by induction on how the taint came there. -/
theorem tainted {s : Slot} (hs : d.Tainted s) : e.Tainted s := by
  induction hs with
  | contested hk hholds => exact .contested (by rwa [← h.contested_eq]) (h.holds hholds)
  | inherited hs hnone hparents hbefore _ ih =>
    obtain ⟨t, ht, hst⟩ := h.sections.exists_right hs
    exact .inherited ht ((hst.properties.get?_eq _).symm.trans hnone) (hst.parents.trans hparents)
      (fun b hb hholds => hbefore b hb (h.symm.holds hholds)) ih
  | refers huse hx hr hs _ ih =>
    exact .refers (h.inUse huse) ((h.valueAt?_eq _).symm.trans hx) hr hs ih

/-- If no operation works on a tainted value in the one, none does in the other. -/
theorem operatesCleanly (hclean : d.OperatesCleanly) : e.OperatesCleanly := by
  intro s x huse hx o ho hop r hr s' hslot htainted
  have hx' : d.valueAt? s = some x := (h.valueAt?_eq s).trans hx
  exact hclean s x (h.symm.inUse huse) hx' o ho hop r hr s' hslot (h.symm.tainted htainted)

/-- The macros may be gathered before or after. -/
theorem gatherMacros : d.gatherMacros.Reordered e.gatherMacros where
  sections := by
    rw [sections_gatherMacros, sections_gatherMacros]
    exact h.sections
  macros := by
    refine .of_get?_eq fun k => ?_
    have hdefine : d.get? defineName k = e.get? defineName k := h.valueAt?_eq (.property defineName k)
    rw [get?_macros_gatherMacros, get?_macros_gatherMacros, hdefine, h.macros.get?_eq]
  schemas := by
    rw [schemas_gatherMacros, schemas_gatherMacros]
    exact h.schemas

end Reordered

end Document

/-! ## The same solutions -/

namespace Progress

variable {d e : Document} {p : Providers} {q : Progress} (h : d.Reordered e)

include h

/-- An expression that has a value for the one document has it for the other. -/
theorem Evaluated.reorder {x v : Value} (hv : Evaluated d p q x v) : Evaluated e p q x v := by
  have hsteady : ∀ o : Value, o.steady d = o.steady e := Value.steady_congr h.contested_eq
  refine ⟨hv.plain, hv.settled, hv.reads, fun hx => hv.means ?_, fun o ho hx => hv.parts o ho ?_⟩
  · rwa [hsteady]
  · rwa [hsteady]

theorem OptionEvaluated.reorder {o o' : Option Value} (ho : OptionEvaluated d p q o o') :
    OptionEvaluated e p q o o' := by
  cases o with
  | none => exact ho
  | some x =>
    obtain ⟨v, hv, heval⟩ := ho
    exact ⟨v, hv, heval.reorder h⟩

/-- What is inherited does not depend on the order. -/
theorem Inherited.reorder {n k : String} {parents : List String} {found : Option Value}
    (hv : Inherited d q n parents k found) : Inherited e q n parents k found := by
  unfold Inherited at hv ⊢
  rwa [← h.contested_eq]

/-- A section that adopts its parents is the same up to the order of names. -/
theorem Adopting.reorder {n : String} {s s' t : Section} {parents : List String}
    (hs : s.Match (· = ·) s') (ht : Adopting d q n s t parents) : Adopting e q n s' t parents where
  adopted := ht.adopted
  registry := ht.registry.trans hs.registry_eq.symm
  declared k x hx := ht.declared k x ((hs.properties.get?_eq k).trans hx)
  inherited k hk := (ht.inherited k ((hs.properties.get?_eq k).trans hk)).reorder h

/-- A section that is solved for the one is solved for the other. -/
theorem Solved.reorder {n : String} {s s' t : Section} (hs : s.Match (· = ·) s')
    (ht : Solved d p q n s t) : Solved e p q n s' t where
  adopted parent hparent := ht.adopted parent (hs.parents ▸ hparent)
  registry := by
    rw [hs.registry_eq]
    exact ht.registry.imp fun _ _ heval => heval.reorder h
  declared k x hx := by
    obtain ⟨v, hv, heval⟩ := ht.declared k x ((hs.properties.get?_eq k).trans hx)
    exact ⟨v, hv, heval.reorder h⟩
  inherited k hk := by
    rw [hs.parents]
    exact (ht.inherited k ((hs.properties.get?_eq k).trans hk)).reorder h

/-- **A state that is sound for a document is so for the reordered one.** -/
theorem Sound.reorder (hq : Sound d p (.all d) q) : Sound e p (.all e) q where
  nodupSections := e.sections.nodup_keys
  nodupMacros := e.macros.nodup_keys
  idleSection n hn := h.sections.mem_keys_iff.mp (hq.idleSection n hn)
  idleMacro m hm := h.macros.mem_keys_iff.mp (hq.idleMacro m hm)
  headings n := (hq.headings n).trans
    (h.sections.map_eq (fun _ _ hst => Prod.ext hst.name.symm hst.parents.symm) n)
  waitingMacro m hm := (hq.waitingMacro m hm).trans (h.macros.get?_eq m)
  doneMacro m hm := by
    obtain ⟨x, v, hx, hv, heval⟩ := hq.doneMacro m hm
    exact ⟨x, v, (h.macros.get?_eq m).symm.trans hx, hv, heval.reorder h⟩
  waitingSection n hn hwait s' t hs' ht := by
    obtain ⟨s, hs, hst⟩ := h.sections.exists_left hs'
    exact (hq.waitingSection n (h.sections.mem_keys_iff.mpr hn) hwait s t hs ht).reorder h hst
  doneSection n hn := by
    obtain ⟨s, t, hs, ht, hsolved⟩ := hq.doneSection n hn
    obtain ⟨s', hs', hst⟩ := h.sections.exists_right hs
    exact ⟨s', t, hs', ht, hsolved.reorder h hst⟩
  grounded n hn := h.grounded (hq.grounded n hn)
  reached n hn := h.reached (hq.reached n hn)
  noted hidle := hq.noted (h.sections.mem_keys_iff.mpr hidle)

/-- **A solution of a document is one of the reordered document.** -/
theorem Solution.reorder (hq : Solution d p q) : Solution e p q where
  sound := hq.sound.reorder h
  complete := by
    refine ⟨fun m hm => hq.complete.macros m (h.macros.mem_keys_iff.mpr hm),
      fun n hn => hq.complete.sections n (h.sections.mem_keys_iff.mpr hn), fun n => ?_⟩
    have hn := hq.complete.schemas n
    have hn' := h.schemas n
    generalize d.schemas.get? n = o at hn hn'
    generalize e.schemas.get? n = o' at hn'
    generalize q.document.schemas.get? n = o'' at hn ⊢
    cases hn' with
    | none =>
      cases hn with
      | none => exact .none
    | some hst =>
      cases hn with
      | some hschema =>
        refine .some ⟨hschema.heading.trans (Prod.ext hst.name.symm hst.parents.symm),
          hschema.registry.trans hst.registry_eq.symm, fun k => ?_⟩
        rw [← hst.properties.get?_eq k]
        exact (hschema.rules k).reorder h

end Progress

/-! ## Resolving -/

namespace Document

variable {d e : Document} {p : Providers}

/-- If `[#define]` has no parents, it inherits nothing, and nothing is tainted. -/
theorem not_tainted_of_orphan (h : ∀ s, d.sections.get? defineName = some s → s.parents = [])
    (s : Slot) : ¬d.Tainted s := by
  intro hs
  induction hs with
  | contested hk hholds =>
    cases hholds with
    | declared hget => simp [Document.contested, Option.isSome_iff_ne_none.mp hget] at hk
    | inherited hs hparent =>
      rw [h _ hs] at hparent
      cases hparent
  | inherited _ _ _ _ _ ih => exact ih
  | refers _ _ _ _ _ ih => exact ih

open Progress in
/-- **Resolving does not depend on the order of names.**  If no operation works on a tainted value,
    a reordered document can be resolved if and only if the document can; and whenever both are
    resolved, they have the same names everywhere, and the same values but for tainted ones.  If
    `[#define]` has no parents, there are no tainted values, and the two hold the same. -/
theorem resolve_reordered (h : d.Reordered e) :
    (d.gatherMacros.OperatesCleanly → ((∃ r, d.resolve p = .ok r) ↔ ∃ r, e.resolve p = .ok r)) ∧
      (∀ r r', d.resolve p = .ok r → e.resolve p = .ok r' → r.AgreeBut d.gatherMacros.Tainted r') ∧
      ((∀ s, d.sections.get? defineName = some s → s.parents = []) →
        ((∃ r, d.resolve p = .ok r) ↔ ∃ r, e.resolve p = .ok r) ∧
          ∀ r r', d.resolve p = .ok r → e.resolve p = .ok r' → r.Reordered r') := by
  have hgathered := h.gatherMacros
  have hresolves : ∀ {f g : Document}, f.Reordered g → g.gatherMacros.OperatesCleanly →
      (∃ r, f.resolve p = .ok r) → ∃ r, g.resolve p = .ok r := by
    rintro f g hfg hclean ⟨r, hr⟩
    obtain ⟨q, -, hsound, hcomplete⟩ := resolve_sound hr
    exact resolve_of_solution (.reorder hfg.gatherMacros ⟨hsound, hcomplete⟩) hclean
  have hsuccess : d.gatherMacros.OperatesCleanly →
      ((∃ r, d.resolve p = .ok r) ↔ ∃ r, e.resolve p = .ok r) := fun hclean =>
    ⟨hresolves h (hgathered.operatesCleanly hclean), hresolves h.symm hclean⟩
  have hagree : ∀ r r', d.resolve p = .ok r → e.resolve p = .ok r' →
      r.AgreeBut d.gatherMacros.Tainted r' := by
    intro r r' hr hr'
    obtain ⟨q, rfl, hsound, hcomplete⟩ := resolve_sound hr
    obtain ⟨q', rfl, hsound', hcomplete'⟩ := resolve_sound hr'
    exact Solution.agree ⟨hsound, hcomplete⟩ (.reorder hgathered.symm ⟨hsound', hcomplete'⟩)
      d.gathered_gatherMacros
  refine ⟨hsuccess, hagree, fun horphan => ?_⟩
  have hnone : ∀ s, ¬d.gatherMacros.Tainted s := by
    rw [← sections_gatherMacros] at horphan
    exact not_tainted_of_orphan horphan
  exact ⟨hsuccess fun _ _ _ _ _ _ _ _ _ s _ => hnone s,
    fun r r' hr hr' => (hagree r r' hr hr').reordered hnone⟩

/-- A section, its parent and two macros. -/
def drawn : Document where
  sections := .ofList [("Base", { name := "Base", properties := .ofList [width, height] }), window]
  macros := .ofList [pad, border]
where
  /-- A property of the parent. -/
  width : String × Value := ("width", .atom (.int 8) .none)
  /-- A property of the parent that is made from a macro. -/
  height : String × Value := ("height",
    .binary (.atom (.reference ⟨.macroName, "border"⟩) .none) .mul (.atom (.int 3) .none) .none)
  /-- The section. -/
  window : String × Section := ("Window", {
    name := "Window"
    parents := ["Base"]
    properties := .ofList [("outer", .atom (.reference ⟨.crossSection, "Base.width"⟩) .none)] })
  /-- A macro. -/
  pad : String × Value := ("pad", .atom (.int 2) .none)
  /-- A macro that stands for another one. -/
  border : String × Value := ("border", .atom (.reference ⟨.macroName, "pad"⟩) .none)

/-- The same the other way round. -/
def redrawn : Document where
  sections := .ofList
    [drawn.window, ("Base", { name := "Base", properties := .ofList [drawn.height, drawn.width] })]
  macros := .ofList [drawn.border, drawn.pad]

/-- Two documents that differ in order are resolved to two that do. -/
theorem resolve_reordered_drawn : drawn.Reordered redrawn ∧ ∃ r r', drawn.resolve .none = .ok r ∧
    redrawn.resolve .none = .ok r' ∧ r.Reordered r' := by
  have hreordered : drawn.Reordered redrawn := by
    have hbase : Section.Match (· = ·)
        { name := "Base", properties := .ofList [drawn.width, drawn.height] }
        { name := "Base", properties := .ofList [drawn.height, drawn.width] } :=
      ⟨rfl, rfl, Table.Match.iff_perm.mpr (.swap drawn.height drawn.width []), .nil⟩
    exact ⟨.of_perm (.swap _ _ []) (.cons ⟨rfl, .refl _⟩ (.cons ⟨rfl, hbase⟩ .nil)),
      Table.Match.iff_perm.mpr (.swap drawn.border drawn.pad []), .refl .refl _⟩
  have horphan : ∀ s, drawn.sections.get? defineName = some s → s.parents = [] := by
    rintro s ⟨⟩
  obtain ⟨-, -, hsame⟩ := resolve_reordered hreordered
  obtain ⟨hsuccess, hagree⟩ := hsame horphan
  have hok : (drawn.resolve .none).toOption.isSome := by decide +kernel
  obtain ⟨r, hr⟩ := Option.isSome_iff_exists.mp hok
  have hr := eq_ok_of_toOption hr
  obtain ⟨r', hr'⟩ := hsuccess.mp ⟨r, hr⟩
  exact ⟨hreordered, r, r', hr, hr', hagree r r' hr hr'⟩

/-- A document whose `[#define]` inherits a property with the name of a macro.  A second macro refers
    to the property, and a section holds `y`. -/
def lateMacro (y : Value) (writerFirst : Bool) : Document where
  sections := .ofList [
    (defineName, { name := defineName, parents := ["Base"] }),
    ("S", { name := "S", properties := .ofList [("y", y)] }),
    ("Base", { name := "Base", properties := .ofList [("x", .atom (.string "one") .none)] })]
  macros := .ofList (if writerFirst then [writer, reader] else [reader, writer])
where
  /-- The reference to the property. -/
  x : Value := .atom (.reference ⟨.crossSection, "#define.x"⟩) .none
  /-- The macro that refers to it. -/
  reader : String × Value := ("a", x)
  /-- The macro of its name. -/
  writer : String × Value := ("x", .atom (.int 5) .none)

/-- The two documents have the same declarations. -/
theorem reordered_lateMacro (y : Value) : (lateMacro y false).Reordered (lateMacro y true) where
  sections := .refl .refl _
  macros := Table.Match.iff_perm.mpr (.swap lateMacro.writer lateMacro.reader [])
  schemas := .refl .refl _

/-- In another order a tainted value may be another one, and an operation on it may fail. -/
theorem lateMacro_order :
    ((lateMacro lateMacro.x false).Reordered (lateMacro lateMacro.x true) ∧
      ∃ r r', (lateMacro lateMacro.x false).resolve .none = .ok r ∧
        (lateMacro lateMacro.x true).resolve .none = .ok r' ∧
          (r.get? "S" "y").bind Value.int? = some 5 ∧ (r'.get? "S" "y").bind Value.int? = none) ∧
    (lateMacro (.neg lateMacro.x .none) false).Reordered (lateMacro (.neg lateMacro.x .none) true) ∧
      (∃ r, (lateMacro (.neg lateMacro.x .none) false).resolve .none = .ok r) ∧
        ∃ f, (lateMacro (.neg lateMacro.x .none) true).resolve .none = .error f := by
  have hread : ((lateMacro lateMacro.x false).resolve .none).toOption.map
      (fun r => (r.get? "S" "y").bind Value.int?) = some (some 5) := by decide +kernel
  have hread' : ((lateMacro lateMacro.x true).resolve .none).toOption.map
      (fun r => (r.get? "S" "y").bind Value.int?) = some none := by decide +kernel
  have hnegated : ((lateMacro (.neg lateMacro.x .none) false).resolve .none).toOption.isSome := by
    decide +kernel
  have hnegated' : (fault? ((lateMacro (.neg lateMacro.x .none) true).resolve .none)).isSome := by
    decide +kernel
  obtain ⟨r, hr, hvalue⟩ := Option.map_eq_some_iff.mp hread
  obtain ⟨r', hr', hvalue'⟩ := Option.map_eq_some_iff.mp hread'
  obtain ⟨r₂, hr₂⟩ := Option.isSome_iff_exists.mp hnegated
  obtain ⟨f, hf⟩ := Option.isSome_iff_exists.mp hnegated'
  have hr := eq_ok_of_toOption hr
  have hr' := eq_ok_of_toOption hr'
  exact ⟨⟨reordered_lateMacro _, r, r', hr, hr', hvalue, hvalue'⟩, reordered_lateMacro _,
    ⟨r₂, eq_ok_of_toOption hr₂⟩, f, eq_error_of_fault? hf⟩

end Document

end Yini
