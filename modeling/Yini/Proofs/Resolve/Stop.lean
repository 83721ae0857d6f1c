import Yini.Proofs.Resolve.Trail

/-!
Every call of the resolver stops on a trail from what it was called for (`stops_all`).

The proof goes along with the one that the calls meet the invariant: for each step it takes from there
what is true if the step succeeds, and follows the faults.
-/

namespace Yini.Progress

variable {α : Type} {d : Document} {p : Providers} {i j : Idle} {q : Progress}

/-! ## Values -/

/-- The expression gets its value, and if not, resolving it stops on a trail from `starts`. -/
structure Tracks (d : Document) (p : Providers) (j : Idle)
    (lookup : Reference → Span → Resolve Value) (starts : Node → Prop) (e : Value) : Prop where
  resolves : Resolves d p j lookup e
  stops : ∀ q, Sound d p j q → Framed d j q → Stops d p j j starts q (e.resolve lookup)

section Values

variable {lookup : Reference → Span → Resolve Value} {starts : Node → Prop}

/-- **Items stop where the first of them does**: those before it have kept the invariant and the frame. -/
theorem stops_items {es : List Value} (h : ∀ e ∈ es, Tracks d p j lookup starts e) :
    ∀ q, Sound d p j q → Framed d j q → Stops d p j j starts q (Value.resolveItems lookup es) := by
  induction es with
  | nil => exact fun q _ hf => .pure hf
  | cons e es ih =>
    intro q hs hf
    obtain ⟨he, hes⟩ := List.forall_mem_cons.mp h
    refine .bind (he.resolves q hs) (he.stops q hs hf) fun v q₁ hs₁ _ _ hf₁ => ?_
    refine .bind (meets_items (fun e' he' => (hes e' he').resolves) q₁ hs₁) (ih hes q₁ hs₁ hf₁)
      fun vs q₂ _ _ _ hf₂ => ?_
    exact .pure hf₂

/-- Fields stop where the first of their values does. -/
theorem stops_fields {es : Entries Value} (h : ∀ e ∈ es, Tracks d p j lookup starts e.2) :
    ∀ q, Sound d p j q → Framed d j q → Stops d p j j starts q (Value.resolveFields lookup es) := by
  induction es with
  | nil => exact fun q _ hf => .pure hf
  | cons e es ih =>
    intro q hs hf
    obtain ⟨he, hes⟩ := List.forall_mem_cons.mp h
    refine .bind (he.resolves q hs) (he.stops q hs hf) fun v q₁ hs₁ _ _ hf₁ => ?_
    refine .bind (meets_fields (fun e' he' => (hes e' he').resolves) q₁ hs₁) (ih hes q₁ hs₁ hf₁)
      fun fs q₂ _ _ _ hf₂ => ?_
    exact .pure hf₂

theorem stops_option {o : Option Value} (h : ∀ e ∈ o, Tracks d p j lookup starts e) :
    ∀ q, Sound d p j q → Framed d j q → Stops d p j j starts q (Value.resolveOption lookup o) := by
  cases o with
  | none => exact fun q _ hf => .pure hf
  | some e =>
    intro q hs hf
    have he := h e rfl
    exact .bind (he.resolves q hs) (he.stops q hs hf) fun v q₁ _ _ _ hf₁ => .pure hf₁

/-- The properties of a section stop where the first of their values does. -/
theorem stops_table {t : Table Value} (h : ∀ e ∈ t.entries, Tracks d p j lookup starts e.2)
    (hs : Sound d p j q) (hf : Framed d j q) :
    Stops d p j j starts q (resolveTable lookup t) :=
  .bind (meets_fields (fun e he => (h e he).resolves) q hs) (stops_fields h q hs hf)
    fun _ _ _ _ _ hf₁ => .pure hf₁

/-- The references of the expression are tracked, wherever they stand. -/
def ReferencesTracked (d : Document) (p : Providers) (j : Idle)
    (lookup : Reference → Span → Resolve Value) (starts : Node → Prop) (e : Value) : Prop :=
  ∀ r ∈ e.references, ∀ span, Tracks d p j lookup starts (.atom (.reference r) span)

/-- An expression gets its value if its references are tracked. -/
theorem ReferencesTracked.resolves {e : Value} (h : ReferencesTracked d p j lookup starts e) :
    Resolves d p j lookup e :=
  Progress.resolves e fun r hr span q hs => (h r hr span).resolves q hs

/-- **Resolving an expression stops on a trail**, if that is so of its references. -/
theorem tracks (e : Value) (h : ReferencesTracked d p j lookup starts e) :
    Tracks d p j lookup starts e := by
  induction e using Value.induction with
  | atom a span =>
    cases a with
    | reference r => exact h r List.mem_cons_self span
    | _ => exact ⟨h.resolves, fun q _ hf => .pure hf⟩
  | sequence k items span ih =>
    have hitems : ∀ e ∈ items, Tracks d p j lookup starts e := fun e he =>
      ih e he (Value.forall_references_sequence.mp h e he)
    refine ⟨h.resolves, fun q hs hf => ?_⟩
    exact .bind (meets_items (fun e he => (hitems e he).resolves) q hs) (stops_items hitems q hs hf)
      fun vs q₁ _ _ _ hf₁ => .pure hf₁
  | record k fields span ih =>
    have hfields : ∀ e ∈ fields, Tracks d p j lookup starts e.2 := fun e he =>
      ih e he (Value.forall_references_record.mp h e he)
    refine ⟨h.resolves, fun q hs hf => ?_⟩
    exact .bind (meets_fields (fun e he => (hfields e he).resolves) q hs)
      (stops_fields hfields q hs hf) fun fs q₁ _ _ _ hf₁ => .pure hf₁
  | binary l op r span ihl ihr =>
    have hparts := Value.forall_references_binary.mp h
    -- where the left operand succeeds, the invariant is taken from there, and the right one is followed
    have hl := ihl hparts.1
    have hr := ihr hparts.2
    refine ⟨h.resolves, fun q hs hf => ?_⟩
    refine .bind (hl.resolves q hs) (hl.stops q hs hf) fun v q₁ hs₁ _ _ hf₁ => ?_
    refine .bind (hr.resolves q₁ hs₁) (hr.stops q₁ hs₁ hf₁) fun w q₂ hs₂ _ _ hf₂ => ?_
    cases v.combine op w span with
    | ok u => exact .pure hf₂
    | error f => exact .of_error rfl hs₂ hf₂
  | neg e span ih =>
    have he := ih h
    refine ⟨h.resolves, fun q hs hf => ?_⟩
    refine .bind (he.resolves q hs) (he.stops q hs hf) fun v q₁ hs₁ _ _ hf₁ => ?_
    cases v.opposite span with
    | ok u => exact .pure hf₁
    | error f => exact .of_error rfl hs₁ hf₁
  | rule m a b c span iha ihb ihc =>
    have hparts := Value.forall_references_rule.mp h
    have ha : ∀ e ∈ a, Tracks d p j lookup starts e := fun e he => iha e he (hparts.1 e he)
    have hb : ∀ e ∈ b, Tracks d p j lookup starts e := fun e he => ihb e he (hparts.2.1 e he)
    have hc : ∀ e ∈ c, Tracks d p j lookup starts e := fun e he => ihc e he (hparts.2.2 e he)
    refine ⟨h.resolves, fun q hs hf => ?_⟩
    refine .bind (meets_option (fun e he => (ha e he).resolves) q hs) (stops_option ha q hs hf)
      fun a' q₁ hs₁ _ _ hf₁ => ?_
    refine .bind (meets_option (fun e he => (hb e he).resolves) q₁ hs₁) (stops_option hb q₁ hs₁ hf₁)
      fun b' q₂ hs₂ _ _ hf₂ => ?_
    exact .bind (meets_option (fun e he => (hc e he).resolves) q₂ hs₂) (stops_option hc q₂ hs₂ hf₂)
      fun c' q₃ _ _ _ hf₃ => .pure hf₃

end Values

/-! ## Sections -/

/-- Resolving a section that is led to stops on a trail from it. -/
def SectionStops (d : Document) (p : Providers) (i : Idle) : Prop :=
  ∀ name, d.Leads i (.ofSection name) → ∀ q, Sound d p i q → Framed d i q →
    Stops d p i i (· = .ofSection name) q (resolveSection p i name)

/-- Resolving a macro that is led to stops on a trail from it. -/
def MacroStops (d : Document) (p : Providers) (i : Idle) : Prop :=
  ∀ name span, d.Leads i (.ofMacro name) → ∀ q, Sound d p i q → Framed d i q →
    Stops d p i i (· = .ofMacro name) q (resolveMacro p i name span)

/-- Resolving a reference stops on a trail from what it refers to, if that is led to. -/
def ReferenceStops (d : Document) (p : Providers) (i : Idle) : Prop :=
  ∀ r : Reference, (∀ n, r.node? = some n → d.Leads i n) → ∀ span q, Sound d p i q → Framed d i q →
    Stops d p i i (fun n => r.node? = some n) q (resolveReference p i r span)

section Opened

variable {name : String} {s t : Section} (hs : d.sections.get? name = some s)
  (hnodup : i.sections.Nodup) (hleads : d.Leads i (.ofSection name))

include hs hnodup hleads

/-- Before a parent is adopted, it is resolved. -/
theorem stops_adoptParent (hdeep : SectionMeets d p (i.openSection name))
    (hstops : SectionStops d p (i.openSection name)) {parent : String} (hparent : parent ∈ s.parents)
    {span : Span} (hsound : Sound d p (i.openSection name) q) (hf : Framed d (i.openSection name) q) :
    Stops d p (i.openSection name) (i.openSection name) (d.Edge (.ofSection name)) q
      (adoptParent p (i.openSection name) name span parent) := by
  have hopen : name ∉ (i.openSection name).sections := hnodup.not_mem_erase
  cases hcontains : q.document.sections.contains parent with
  | false => exact .of_error (adoptParent_of_missing hcontains) hsound hf
  | true =>
    refine .congr (adoptParent_of_declared hcontains) ?_
    have hedge := Document.edge_parent hs hparent
    have hlead := hleads.openSection hedge
    have hresolve := (hstops parent hlead q hsound hf).mono fun n hn => hn ▸ hedge
    refine .bind (hdeep parent hlead q hsound) hresolve fun _ q₁ hs₁ _ hdone hf₁ => ?_
    obtain ⟨_, u, -, hu, -⟩ := hs₁.doneSection parent hdone
    exact .of_ok (changeDocument_inherit hu) (hf₁.alter hopen fun _ => rfl)

/-- The parents are resolved and adopted one after the other. -/
theorem stops_adoptParents (hidle : name ∈ i.sections)
    (hdeep : SectionMeets d p (i.openSection name)) (hstops : SectionStops d p (i.openSection name))
    {span : Span} {parents : List String} :
    ∀ before t q, s.parents = before ++ parents → Sound d p (i.openSection name) q →
      q.document.sections.get? name = some t → Adopting d q name s t before →
      Framed d (i.openSection name) q →
      Stops d p (i.openSection name) (i.openSection name) (d.Edge (.ofSection name)) q
        (parents.forM (adoptParent p (i.openSection name) name span)) := by
  induction parents with
  | nil => exact fun _ _ _ _ _ _ _ hf => .pure hf
  | cons parent parents ih =>
    intro before t q hparents hsound ht hadopting hf
    have hmem : parent ∈ s.parents := by
      rw [hparents]
      exact List.mem_append_right _ List.mem_cons_self
    refine .bind (meets_adoptParent hs hidle hnodup hleads hdeep hmem hsound ht hadopting)
      (stops_adoptParent hs hnodup hleads hdeep hstops hmem hsound hf) ?_
    rintro _ q₁ hs₁ - ⟨t₁, ht₁, hadopting₁⟩ hf₁
    refine ih (before ++ [parent]) t₁ q₁ ?_ hs₁ ht₁ hadopting₁ hf₁
    rw [hparents, List.append_assoc, List.singleton_append]

/-- The values of a section are resolved while it is open. -/
theorem stops_resolveContents (hidle : name ∈ i.sections)
    (hdeep : ReferenceMeets d p (i.openSection name)) (hstops : ReferenceStops d p (i.openSection name))
    (hsound : Sound d p (i.openSection name) q) (ht : q.document.sections.get? name = some t)
    (hadopting : Adopting d q name s t s.parents) (hf : Framed d (i.openSection name) q) :
    Stops d p (i.openSection name) i (d.Edge (.ofSection name)) q
      (resolveContents p (i.openSection name) name) := by
  have hopen : name ∉ (i.openSection name).sections := hnodup.not_mem_erase
  have hname : name ∉ q.doneSections := fun hmem => hopen (hsound.idleSection name hmem)
  have hcontents : ∀ v ∈ t.contents, Tracks d p (i.openSection name)
      (resolveReference p (i.openSection name)) (d.Edge (.ofSection name)) v := by
    intro v hv
    refine tracks v fun r hr span => ?_
    -- what the section has adopted is plain, so a reference in it is one of its own
    have hedge : ∀ n, r.node? = some n → d.Edge (.ofSection name) n := by
      rcases hadopting.plain_or_mem_contents hsound.doneMacro hv with hplain | hmem
      · rw [Value.references_of_plain v hplain] at hr
        exact absurd hr List.not_mem_nil
      · exact fun n hn => Document.edge_contents hs hmem hr hn
    have hlead := fun n hn => hleads.openSection (hedge n hn)
    exact ⟨fun q hs => hdeep r hlead span q hs,
      fun q hs hf => (hstops r hlead span q hs hf).mono hedge⟩
  have htake : Meets d p i (i.openSection name) q (takeContents name) fun contents q' =>
      contents = (t.properties, t.registry) :=
    .of_ok (takeContents_of_declared ht) (hsound.alter hopen fun _ => rfl) (.alter hname hidle _) rfl
  refine .bind htake (.of_ok (takeContents_of_declared ht) (hf.alter hopen fun _ => rfl)) ?_
  rintro _ q₁ hs₁ - rfl hf₁
  have htable : ∀ e ∈ t.properties.entries, Tracks d p (i.openSection name)
      (resolveReference p (i.openSection name)) (d.Edge (.ofSection name)) e.2 :=
    fun e he => hcontents e.2 (Section.mem_contents_of_property he)
  have hitems : ∀ v ∈ t.registry, Tracks d p (i.openSection name)
      (resolveReference p (i.openSection name)) (d.Edge (.ofSection name)) v :=
    fun v hv => hcontents v (Section.mem_contents_of_entry hv)
  refine .bind (meets_table (fun e he => (htable e he).resolves) hs₁) (stops_table htable hs₁ hf₁)
    fun new q₂ hs₂ _ _ hf₂ => ?_
  refine .bind (meets_items (fun v hv => (hitems v hv).resolves) q₂ hs₂) (stops_items hitems q₂ hs₂ hf₂)
    fun registry q₃ _ _ _ hf₃ => ?_
  exact .of_ok rfl (hf₃.close new registry)

end Opened

/-- **Resolving a section stops on a trail from it**, if that is so with fewer names idle. -/
theorem sectionStops (hdeep : ∀ name ∈ i.sections,
      SectionMeets d p (i.openSection name) ∧ SectionStops d p (i.openSection name))
    (hreference : ∀ name ∈ i.sections,
      ReferenceMeets d p (i.openSection name) ∧ ReferenceStops d p (i.openSection name)) :
    SectionStops d p i := by
  intro name hleads q hsound hf
  by_cases hdone : name ∈ q.doneSections
  · exact .of_ok (resolveSection_of_done hdone) hf
  cases ht : q.document.sections.get? name with
  | none => exact .of_error (resolveSection_of_missing hdone ht) hsound hf
  | some t =>
    by_cases hidle : name ∈ i.sections
    · obtain ⟨s, hs, hparents⟩ := hsound.declared_section ht
      obtain ⟨hmeets, hstops⟩ := hdeep name hidle
      obtain ⟨href, hrefstops⟩ := hreference name hidle
      have hadopting := hsound.waitingSection name hidle hdone s t hs ht
      have hopened := hsound.openSection hdone
      have hnodup := hsound.nodupSections
      have hframed : Framed d (i.openSection name) q := hf.openNode (.ofSection name)
      refine .congr (resolveSection_of_idle hdone ht hidle) ?_
      -- from here on the section is open, and the trail goes on along its edges
      refine .opened (n := .ofSection name) ?_ rfl hidle
      rw [← hparents]
      refine .bind
        (meets_adoptParents hs hidle hnodup hleads hmeets [] t q rfl hopened ht hadopting)
        (stops_adoptParents hs hnodup hleads hidle hmeets hstops [] t q rfl hopened ht hadopting
          hframed) ?_
      rintro _ q₁ hs₁ - ⟨t₁, ht₁, hadopting₁⟩ hf₁
      exact stops_resolveContents hs hnodup hleads hidle href hrefstops hs₁ ht₁ hadopting₁ hf₁
    · exact .of_error (resolveSection_of_open hdone ht hidle) hsound hf

/-! ## Macros and references -/

/-- **Resolving a macro stops on a trail from it**, if that is so of references with fewer names
    idle. -/
theorem macroStops (hdeep : ∀ name ∈ i.macros,
      ReferenceMeets d p (i.openMacro name) ∧ ReferenceStops d p (i.openMacro name)) :
    MacroStops d p i := by
  intro name span hleads q hsound hf
  cases hv : q.document.macros.get? name with
  | none => exact .of_error (resolveMacro_of_missing hv) hsound hf
  | some e =>
    by_cases hdone : name ∈ q.doneMacros
    · exact .of_ok (resolveMacro_of_done hv hdone) hf
    by_cases hidle : name ∈ i.macros
    · refine .congr (resolveMacro_of_idle hv hdone hidle) (.opened (n := .ofMacro name) ?_ rfl hidle)
      obtain ⟨hmeets, hstops⟩ := hdeep name hidle
      have he : d.macros.get? name = some e := (hsound.waitingMacro name hdone).symm.trans hv
      have htracks : Tracks d p (i.openMacro name) (resolveReference p (i.openMacro name))
          (d.Edge (.ofMacro name)) e := by
        refine tracks e fun r hr span => ?_
        have hedge := fun n hn => Document.edge_macro he hr (n := n) hn
        have hlead := fun n hn => hleads.openMacro (hedge n hn)
        exact ⟨fun q hs => hmeets r hlead span q hs,
          fun q hs hf => (hstops r hlead span q hs hf).mono hedge⟩
      have hopened := hsound.openMacro hdone
      have hframed : Framed d (i.openMacro name) q := hf.openNode (.ofMacro name)
      refine .bind (htracks.resolves q hopened) (htracks.stops q hopened hframed)
        fun w q₁ _ _ _ hf₁ => ?_
      have hname : name ∈ q₁.document.macros.keys := by
        rw [hf₁.macroNames]
        exact Table.contains_iff.mp (by rw [Table.contains, he]; rfl)
      exact .of_ok rfl (hf₁.note hname w)
    · exact .of_error (resolveMacro_of_open hv hdone hidle) hsound hf

/-- Reading a property leaves everything as it is. -/
theorem stops_readProperty {name key target : String} {span : Span} {starts : Node → Prop}
    (hs : Sound d p i q) (hf : Framed d i q) :
    Stops d p i i starts q (readProperty name key target span) := by
  cases hget : q.document.get? name key with
  | some v => exact .of_ok (by rw [readProperty, get_bind, hget]; rfl) hf
  | none => exact .of_error (by rw [readProperty, get_bind, hget]; rfl) hs hf

/-- **Resolving a reference stops on a trail from what it refers to**, if that is so of sections and
    macros. -/
theorem referenceStops (hmeets : SectionMeets d p i) (hsection : SectionStops d p i)
    (hnamed : MacroStops d p i) : ReferenceStops d p i := by
  rintro ⟨kind, target⟩ hleads span q hsound hf
  cases kind with
  | localization =>
    rw [resolveReference_localization]
    exact .pure hf
  | environment =>
    rw [resolveReference_environment]
    cases p.environment target span with
    | ok v => exact .pure hf
    | error f => exact .of_error rfl hsound hf
  | macroName =>
    rw [resolveReference_macroName]
    exact (hnamed target span (hleads _ rfl) q hsound hf).mono fun n hn => hn ▸ rfl
  | crossSection =>
    cases hkey : Reference.sectionKey? ⟨.crossSection, target⟩ with
    | none => exact .of_error (resolveReference_of_badTarget hkey) hsound hf
    | some e =>
      obtain ⟨name, key⟩ := e
      have hnode : Reference.node? ⟨.crossSection, target⟩ = some (.ofSection name) := by
        simp only [Reference.node?, hkey, Option.map_some]
      cases hcontains : q.document.sections.contains name with
      | false => exact .of_error (resolveReference_of_missing hkey hcontains) hsound hf
      | true =>
        by_cases hidle : name ∈ i.sections
        · refine .congr (resolveReference_of_idle hkey hcontains hidle) ?_
          have hleads := hleads _ hnode
          refine .bind (hmeets name hleads q hsound)
            ((hsection name hleads q hsound hf).mono fun n hn => hn ▸ hnode)
            fun _ q₁ hs₁ _ _ hf₁ => ?_
          exact stops_readProperty hs₁ hf₁
        · exact .of_error (resolveReference_of_open hkey hcontains hidle) hsound hf

/-- **Every call of the resolver stops on a trail** from what it was called for. -/
theorem stops_all (hd : d.Gathered) (p : Providers) (i : Idle) :
    SectionStops d p i ∧ MacroStops d p i ∧ ReferenceStops d p i := by
  induction i using Idle.induction with
  | step i ihs ihm =>
    have hsection : SectionStops d p i := sectionStops
      (fun name hname => ⟨(meets_all hd p _).1, (ihs name hname).1⟩)
      fun name hname => ⟨(meets_all hd p _).2.2, (ihs name hname).2.2⟩
    have hnamed : MacroStops d p i :=
      macroStops fun name hname => ⟨(meets_all hd p _).2.2, (ihm name hname).2.2⟩
    exact ⟨hsection, hnamed, referenceStops (meets_all hd p i).1 hsection hnamed⟩

end Yini.Progress
