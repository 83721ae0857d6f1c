import Yini.Proofs.Resolve.Solution

/-!
A document that has a solution can be resolved, if no operation works on a tainted value
(`Document.resolve_of_solution`).

The proof goes along with the one that the calls meet the invariant.  A name cannot be missing, and
nothing can depend on itself, as the solution has done all that is reached.  An operation can be
carried out because it has been carried out in the solution: what its operands refer to is the same
there.
-/

namespace Yini

/-- Whether the expression is an operation on others. -/
def Value.isOperation : Value → Bool
  | binary .. => true
  | neg .. => true
  | _ => false

/-- Whether no operation in use works on tainted values. -/
def Document.OperatesCleanly (d : Document) : Prop :=
  ∀ s x, d.InUse s → d.valueAt? s = some x → ∀ o : Value, o.Part x → o.isOperation → o.Clean d

namespace Progress

variable {α β : Type} {d : Document} {p : Providers} {i j k : Idle} {q q₀ : Progress}

/-! ## Steps that succeed -/

/-- The step does not fail in this state. -/
def Succeeds (q : Progress) (x : Resolve α) : Prop := ∃ a q', x q = .ok a q'

theorem Succeeds.pure (a : α) : Succeeds q (pure a) := ⟨a, q, rfl⟩

theorem Succeeds.congr {x y : Resolve α} (h : x q = y q) (hy : Succeeds q y) : Succeeds q x := by
  unfold Succeeds
  rwa [h]

/-- A step after a step. -/
theorem Succeeds.bind {x : Resolve α} {f : α → Resolve β} {post : α → Progress → Prop}
    (hm : Meets d p i j q x post) (hx : Succeeds q x)
    (hf : ∀ a q', Sound d p j q' → Advance d i q q' → post a q' → Succeeds q' (f a)) :
    Succeeds q (x >>= f) := by
  obtain ⟨a, q₁, hrun⟩ := hx
  rw [Meets, hrun] at hm
  obtain ⟨hs, ha, hp⟩ := hm
  obtain ⟨b, q₂, hrun'⟩ := hf a q₁ hs ha hp
  exact ⟨b, q₂, (bind_of_ok hrun).trans hrun'⟩

/-! ## What the solution says -/

namespace Solution

variable (h : Solution d p q₀)

include h

/-- An expression in use has a value in the solution. -/
theorem evaluated {s : Slot} {x : Value} (huse : d.InUse s) (hx : d.valueAt? s = some x) :
    ∃ v, Evaluated d p q₀ x v := by
  cases s with
  | property name key =>
    obtain ⟨u, t, hu, -, hsolved⟩ := h.sound.doneSection name (h.done (huse _ rfl))
    rw [Document.valueAt?, Document.get?, hu] at hx
    obtain ⟨v, -, heval⟩ := hsolved.declared key x hx
    exact ⟨v, heval⟩
  | entry name index =>
    obtain ⟨u, t, hu, -, hsolved⟩ := h.sound.doneSection name (h.done (huse _ rfl))
    rw [Document.valueAt?, hu] at hx
    obtain ⟨v, -, heval⟩ := exists_of_forall₂ hsolved.registry (List.mem_of_getElem? hx)
    exact ⟨v, heval⟩
  | ofMacro name =>
    obtain ⟨e, v, he, -, heval⟩ := h.sound.doneMacro name (h.done (huse _ rfl))
    obtain rfl := Option.some.inj (he.symm.trans hx)
    exact ⟨v, heval⟩
  | rule name key =>
    have hrule := h.rule name key
    rw [hx] at hrule
    obtain ⟨v, -, heval⟩ := hrule
    exact ⟨v, heval⟩

/-- What is reached is idle: otherwise there would be a cycle. -/
theorem not_open {n : Node} (hleads : d.Leads i n) : ¬d.Open i n := fun hopen =>
  Document.not_cyclic_of_grounded (fun m hm => h.sound.grounded m (h.complete.done_of_root hm))
    (hleads.cyclic hopen)

/-- A section that is reached is declared. -/
theorem exists_section {name : String} (hleads : d.Leads i (.ofSection name)) :
    ∃ s, d.sections.get? name = some s := by
  obtain ⟨s, -, hs, -⟩ := h.sound.doneSection name (h.done hleads.rooted)
  exact ⟨s, hs⟩

/-- **What is led to is idle**, for a solution has no cycle in it. -/
theorem idle_section {name : String} (hleads : d.Leads i (.ofSection name)) :
    name ∈ i.sections := by
  by_contra hopen
  obtain ⟨s, hs⟩ := h.exists_section hleads
  exact h.not_open hleads ⟨by rw [Table.contains, hs]; rfl, hopen⟩

/-- A clean expression means in the solution what it means in any other state. -/
theorem meaning_of_clean {x v : Value} (hv : Evaluated d p q x v) (hs : Sound d p j q)
    (hclean : x.Clean d) (hdone : ∀ r ∈ x.references, ∀ n, r.node? = some n → q₀.Done n) :
    x.meaning (q₀.document.read p) = .ok v := by
  have hmeans := hv.means (hs.steady_of_clean hv.settled hv.reads hclean)
  have hread : ∀ r ∈ x.references, ∀ span,
      q₀.document.read p r span = q.document.read p r span := by
    refine fun r hr => Document.read_congr fun s hslot => ?_
    obtain ⟨n, hn, hsn⟩ := Reference.node?_of_slot? hslot
    exact h.sound.valueAt?_eq hs (hdone r hr n hn) (hv.settled r hr n hn) hsn (hclean r hr s hslot)
  rwa [Value.meaning_congr x hread]

end Solution

/-! ## Values -/

/-- The expression gets its value, and resolving it succeeds. -/
structure Delivers (d : Document) (p : Providers) (j : Idle)
    (lookup : Reference → Span → Resolve Value) (e : Value) : Prop where
  resolves : Resolves d p j lookup e
  succeeds : ∀ q, Sound d p j q → Succeeds q (e.resolve lookup)

/-- The operations in an expression can be carried out in the solution, on clean operands. -/
structure Operable (d : Document) (p : Providers) (q₀ : Progress) (e : Value) : Prop where
  done : ∀ r ∈ e.references, ∀ n, r.node? = some n → q₀.Done n
  clean : ∀ o : Value, o.Part e → o.isOperation → o.Clean d
  means : ∀ o : Value, o.Part e → o.isOperation → ∃ u, o.meaning (q₀.document.read p) = .ok u

/-- The operations in a part of an expression can be carried out with all the others. -/
theorem Operable.part {o e : Value} (h : Operable d p q₀ e) (ho : o.Part e) :
    Operable d p q₀ o where
  done r hr := h.done r (ho.references_subset hr)
  clean o' ho' := h.clean o' (ho'.trans ho)
  means o' ho' := h.means o' (ho'.trans ho)

section Values

variable {lookup : Reference → Span → Resolve Value}

/-- A step after an expression has got its value. -/
theorem Delivers.bind {e : Value} (he : Delivers d p j lookup e) (hs : Sound d p j q)
    {f : Value → Resolve β} (hf : ∀ v q', Sound d p j q' → Advance d j q q' →
      Evaluated d p q' e v → Succeeds q' (f v)) : Succeeds q (e.resolve lookup >>= f) :=
  .bind (he.resolves q hs) (he.succeeds q hs) hf

/-- **Items succeed if each does**: the invariant carries over from one to the next. -/
theorem succeeds_items {es : List Value} (h : ∀ e ∈ es, Delivers d p j lookup e) :
    ∀ q, Sound d p j q → Succeeds q (Value.resolveItems lookup es) := by
  induction es with
  | nil => exact fun q _ => .pure []
  | cons e es ih =>
    intro q hs
    obtain ⟨he, hes⟩ := List.forall_mem_cons.mp h
    refine he.bind hs fun v q₁ hs₁ _ _ => ?_
    exact .bind (meets_items (fun e' he' => (hes e' he').resolves) q₁ hs₁) (ih hes q₁ hs₁)
      fun vs q₂ _ _ _ => .pure _

/-- Fields succeed if each value does. -/
theorem succeeds_fields {es : Entries Value} (h : ∀ e ∈ es, Delivers d p j lookup e.2) :
    ∀ q, Sound d p j q → Succeeds q (Value.resolveFields lookup es) := by
  induction es with
  | nil => exact fun q _ => .pure []
  | cons e es ih =>
    intro q hs
    obtain ⟨he, hes⟩ := List.forall_mem_cons.mp h
    refine he.bind hs fun v q₁ hs₁ _ _ => ?_
    exact .bind (meets_fields (fun e' he' => (hes e' he').resolves) q₁ hs₁) (ih hes q₁ hs₁)
      fun fs q₂ _ _ _ => .pure _

theorem succeeds_option {o : Option Value} (h : ∀ e ∈ o, Delivers d p j lookup e) :
    ∀ q, Sound d p j q → Succeeds q (Value.resolveOption lookup o) := by
  cases o with
  | none => exact fun q _ => .pure none
  | some e =>
    intro q hs
    have he := h e rfl
    exact he.bind hs fun v q₁ _ _ _ => .pure _

/-- The properties of a section succeed if each does. -/
theorem succeeds_table {t : Table Value} (h : ∀ e ∈ t.entries, Delivers d p j lookup e.2)
    (hs : Sound d p j q) : Succeeds q (resolveTable lookup t) :=
  .bind (meets_fields (fun e he => (h e he).resolves) q hs) (succeeds_fields h q hs)
    fun _ _ _ _ _ => .pure _

/-- A plain value is there already. -/
theorem delivers_of_plain {v : Value} (h : v.plain) : Delivers d p j lookup v := by
  refine ⟨resolves v fun r hr => ?_, fun q _ => ?_⟩
  · rw [Value.references_of_plain v h] at hr
    exact absurd hr List.not_mem_nil
  · rw [Value.resolve_of_plain v h]
    exact .pure v

/-- What an operation makes of its operands in a run, it has made of them in the solution. -/
theorem Operable.combine_ok (h₀ : Solution d p q₀) {l r v w : Value} {op : BinaryOp} {span : Span}
    (h : Operable d p q₀ (.binary l op r span)) (hs : Sound d p j q) (hl : Evaluated d p q l v)
    (hr : Evaluated d p q r w) : ∃ u, v.combine op w span = .ok u := by
  have hclean := h.clean _ .self rfl
  obtain ⟨u, hu⟩ := h.means _ .self rfl
  have hleft := h₀.meaning_of_clean hl hs (fun x hx => hclean x (List.mem_append_left _ hx))
    fun x hx => h.done x (List.mem_append_left _ hx)
  have hright := h₀.meaning_of_clean hr hs (fun x hx => hclean x (List.mem_append_right _ hx))
    fun x hx => h.done x (List.mem_append_right _ hx)
  rw [Value.meaning, hleft, hright] at hu
  exact ⟨u, hu⟩

/-- A negation that can be carried out in the solution can be carried out here. -/
theorem Operable.opposite_ok (h₀ : Solution d p q₀) {e v : Value} {span : Span}
    (h : Operable d p q₀ (.neg e span)) (hs : Sound d p j q) (he : Evaluated d p q e v) :
    ∃ u, v.opposite span = .ok u := by
  have hclean : (Value.neg e span).Clean d := h.clean _ .self rfl
  obtain ⟨u, hu⟩ := h.means _ .self rfl
  rw [Value.meaning, h₀.meaning_of_clean he hs hclean h.done] at hu
  exact ⟨u, hu⟩

/-- The references of the expression get their values, wherever they stand. -/
def ReferencesDelivered (d : Document) (p : Providers) (j : Idle)
    (lookup : Reference → Span → Resolve Value) (e : Value) : Prop :=
  ∀ r ∈ e.references, ∀ span, Delivers d p j lookup (.atom (.reference r) span)

/-- An expression gets its value if its references are delivered. -/
theorem ReferencesDelivered.resolves {e : Value} (h : ReferencesDelivered d p j lookup e) :
    Resolves d p j lookup e :=
  Progress.resolves e fun r hr span q hs => (h r hr span).resolves q hs

/-- **Resolving an expression succeeds** if that is so of its references, and its operations can be
    carried out in the solution. -/
theorem delivers (h₀ : Solution d p q₀) (e : Value) (h : ReferencesDelivered d p j lookup e)
    (hops : Operable d p q₀ e) : Delivers d p j lookup e := by
  induction e using Value.induction with
  | atom a span =>
    cases a with
    | reference r => exact h r List.mem_cons_self span
    | _ => exact ⟨h.resolves, fun q _ => .pure _⟩
  | sequence k items span ih =>
    have hitems : ∀ e ∈ items, Delivers d p j lookup e := fun e he =>
      ih e he (Value.forall_references_sequence.mp h e he) (hops.part (.item he .self))
    refine ⟨h.resolves, fun q hs => ?_⟩
    exact .bind (meets_items (fun e he => (hitems e he).resolves) q hs) (succeeds_items hitems q hs)
      fun vs q₁ _ _ _ => .pure _
  | record k fields span ih =>
    have hfields : ∀ e ∈ fields, Delivers d p j lookup e.2 := fun e he =>
      ih e he (Value.forall_references_record.mp h e he) (hops.part (.field he .self))
    refine ⟨h.resolves, fun q hs => ?_⟩
    exact .bind (meets_fields (fun e he => (hfields e he).resolves) q hs)
      (succeeds_fields hfields q hs) fun fs q₁ _ _ _ => .pure _
  | binary l op r span ihl ihr =>
    have hparts := Value.forall_references_binary.mp h
    have hl := ihl hparts.1 (hops.part (.left .self))
    have hr := ihr hparts.2 (hops.part (.right .self))
    refine ⟨h.resolves, fun q hs => ?_⟩
    refine hl.bind hs fun v q₁ hs₁ _ hv => ?_
    refine hr.bind hs₁ fun w q₂ hs₂ ha₂ hw => ?_
    -- the operands are the same as in the solution, where the operation has been carried out
    obtain ⟨u, hu⟩ := hops.combine_ok h₀ hs₂ (hv.mono ha₂.keeps) hw
    rw [hu]
    exact .pure u
  | neg e span ih =>
    have he := ih h (hops.part (.operand .self))
    refine ⟨h.resolves, fun q hs => ?_⟩
    refine he.bind hs fun v q₁ hs₁ _ hv => ?_
    obtain ⟨u, hu⟩ := hops.opposite_ok h₀ hs₁ hv
    rw [hu]
    exact .pure u
  | rule m a b c span iha ihb ihc =>
    have hparts := Value.forall_references_rule.mp h
    have ha : ∀ e ∈ a, Delivers d p j lookup e := fun e he =>
      iha e he (hparts.1 e he) (hops.part (.fallback he .self))
    have hb : ∀ e ∈ b, Delivers d p j lookup e := fun e he =>
      ihb e he (hparts.2.1 e he) (hops.part (.least he .self))
    have hc : ∀ e ∈ c, Delivers d p j lookup e := fun e he =>
      ihc e he (hparts.2.2 e he) (hops.part (.most he .self))
    refine ⟨h.resolves, fun q hs => ?_⟩
    refine .bind (meets_option (fun e he => (ha e he).resolves) q hs) (succeeds_option ha q hs)
      fun a' q₁ hs₁ _ _ => ?_
    refine .bind (meets_option (fun e he => (hb e he).resolves) q₁ hs₁) (succeeds_option hb q₁ hs₁)
      fun b' q₂ hs₂ _ _ => ?_
    exact .bind (meets_option (fun e he => (hc e he).resolves) q₂ hs₂) (succeeds_option hc q₂ hs₂)
      fun c' q₃ _ _ _ => .pure _

end Values

/-! ## Sections -/

/-- Resolving a section that is led to succeeds. -/
def SectionSucceeds (d : Document) (p : Providers) (i : Idle) : Prop :=
  ∀ name, d.Leads i (.ofSection name) → ∀ q, Sound d p i q → Succeeds q (resolveSection p i name)

/-- Resolving a macro that is led to succeeds. -/
def MacroSucceeds (d : Document) (p : Providers) (i : Idle) : Prop :=
  ∀ name span, d.Leads i (.ofMacro name) → ∀ q, Sound d p i q →
    Succeeds q (resolveMacro p i name span)

/-- Resolving a reference succeeds, if it stands for something in the solution and what it refers to
    is led to. -/
def ReferenceSucceeds (d : Document) (p : Providers) (q₀ : Progress) (i : Idle) : Prop :=
  ∀ r : Reference, (∀ n, r.node? = some n → d.Leads i n) → q₀.document.Reads p r →
    ∀ span q, Sound d p i q → Succeeds q (resolveReference p i r span)

section Calls

variable (hd : d.Gathered) (h₀ : Solution d p q₀) (hclean : d.OperatesCleanly)

include hd h₀ hclean

/-- **An expression in use gets its value**, if references do. -/
theorem delivers_of_slot {s : Slot} {x : Value} (huse : d.InUse s) (hx : d.valueAt? s = some x)
    (hdeep : ReferenceSucceeds d p q₀ j)
    (hlead : ∀ r ∈ x.references, ∀ n, r.node? = some n → d.Leads j n) :
    Delivers d p j (resolveReference p j) x := by
  obtain ⟨v, heval⟩ := h₀.evaluated huse hx
  have hsteady : ∀ o : Value, o.Part x → o.isOperation → o.steady d := fun o ho hop =>
    h₀.sound.steady_of_clean (fun r hr => heval.settled r (ho.references_subset hr))
      (fun r hr => heval.reads r (ho.references_subset hr)) (hclean s x huse hx o ho hop)
  refine delivers h₀ x (fun r hr span => ?_) ⟨heval.settled, hclean s x huse hx,
    fun o ho hop => heval.parts o ho (hsteady o ho hop)⟩
  exact ⟨fun q hs => (meets_all hd p j).2.2 r (hlead r hr) span q hs,
    fun q hs => hdeep r (hlead r hr) (heval.reads r hr) span q hs⟩

section Opened

variable {name : String} {s t : Section} (hs : d.sections.get? name = some s)
  (hidle : name ∈ i.sections) (hnodup : i.sections.Nodup) (hleads : d.Leads i (.ofSection name))

include hs hidle hnodup hleads

omit hclean in
/-- The parents are resolved and adopted one after the other. -/
theorem succeeds_adoptParents (hdeep : SectionSucceeds d p (i.openSection name)) {span : Span}
    {parents : List String} :
    ∀ before t q, s.parents = before ++ parents → Sound d p (i.openSection name) q →
      q.document.sections.get? name = some t → Adopting d q name s t before →
      Succeeds q (parents.forM (adoptParent p (i.openSection name) name span)) := by
  have hmeets := (meets_all hd p (i.openSection name)).1
  induction parents with
  | nil => exact fun _ _ _ _ _ _ _ => .pure ()
  | cons parent parents ih =>
    intro before t q hparents hsound ht hadopting
    have hmem : parent ∈ s.parents := by
      rw [hparents]
      exact List.mem_append_right _ List.mem_cons_self
    have hlead := hleads.openSection (Document.edge_parent hs hmem)
    have hadopt : Succeeds q (adoptParent p (i.openSection name) name span parent) := by
      -- the parent is led to, so the solution has it; and sections are neither lost nor gained
      obtain ⟨u, hu⟩ := h₀.exists_section hlead
      obtain ⟨u', hu', -⟩ := hsound.exists_section hu
      refine .congr (adoptParent_of_declared (by rw [Table.contains, hu']; rfl)) ?_
      refine .bind (hmeets parent hlead q hsound) (hdeep parent hlead q hsound)
        fun _ q₁ hs₁ _ hdone => ?_
      obtain ⟨_, w, -, hw, -⟩ := hs₁.doneSection parent hdone
      exact ⟨(), _, changeDocument_inherit hw⟩
    refine .bind (meets_adoptParent hs hidle hnodup hleads hmeets hmem hsound ht hadopting)
      hadopt ?_
    rintro _ q₁ hs₁ - ⟨t₁, ht₁, hadopting₁⟩
    refine ih (before ++ [parent]) t₁ q₁ ?_ hs₁ ht₁ hadopting₁
    rw [hparents, List.append_assoc, List.singleton_append]

/-- The values of a section are resolved while it is open. -/
theorem succeeds_resolveContents (hdeep : ReferenceSucceeds d p q₀ (i.openSection name))
    (hsound : Sound d p (i.openSection name) q) (ht : q.document.sections.get? name = some t)
    (hadopting : Adopting d q name s t s.parents) :
    Succeeds q (resolveContents p (i.openSection name) name) := by
  have hopen : name ∉ (i.openSection name).sections := hnodup.not_mem_erase
  have hname : name ∉ q.doneSections := fun hmem => hopen (hsound.idleSection name hmem)
  -- what the section has adopted is plain, and what it has declared is in use
  have hcontents : ∀ v ∈ t.contents, Delivers d p (i.openSection name)
      (resolveReference p (i.openSection name)) v := by
    intro v hv
    rcases hadopting.plain_or_mem_contents hsound.doneMacro hv with hplain | hmem
    · exact delivers_of_plain hplain
    obtain ⟨slot, hslot, hnode⟩ := Document.exists_slot_of_contents hs hmem
    refine delivers_of_slot hd h₀ hclean (fun n hn => ?_) hslot hdeep fun r hr n hn =>
      hleads.openSection (Document.edge_contents hs hmem hr hn)
    rw [hnode] at hn
    cases hn
    exact hleads.rooted
  have htake : Meets d p i (i.openSection name) q (takeContents name) fun contents q' =>
      contents = (t.properties, t.registry) :=
    .of_ok (takeContents_of_declared ht) (hsound.alter hopen fun _ => rfl) (.alter hname hidle _)
      rfl
  refine .bind htake ⟨_, _, takeContents_of_declared ht⟩ ?_
  rintro _ q₁ hs₁ - rfl
  have htable : ∀ e ∈ t.properties.entries, Delivers d p (i.openSection name)
      (resolveReference p (i.openSection name)) e.2 :=
    fun e he => hcontents e.2 (Section.mem_contents_of_property he)
  have hitems : ∀ v ∈ t.registry, Delivers d p (i.openSection name)
      (resolveReference p (i.openSection name)) v :=
    fun v hv => hcontents v (Section.mem_contents_of_entry hv)
  refine .bind (meets_table (fun e he => (htable e he).resolves) hs₁) (succeeds_table htable hs₁)
    fun new q₂ hs₂ _ _ => ?_
  refine .bind (meets_items (fun v hv => (hitems v hv).resolves) q₂ hs₂)
    (succeeds_items hitems q₂ hs₂) fun registry q₃ _ _ _ => ?_
  exact ⟨(), _, rfl⟩

end Opened

/-- **Resolving a section succeeds**, if that is so with fewer names idle. -/
theorem sectionSucceeds (hdeep : ∀ name ∈ i.sections, SectionSucceeds d p (i.openSection name))
    (hreference : ∀ name ∈ i.sections, ReferenceSucceeds d p q₀ (i.openSection name)) :
    SectionSucceeds d p i := by
  intro name hleads q hsound
  by_cases hdone : name ∈ q.doneSections
  · exact ⟨(), q, resolveSection_of_done hdone⟩
  obtain ⟨s, hs⟩ := h₀.exists_section hleads
  obtain ⟨t, ht, hparents⟩ := hsound.exists_section hs
  have hidle := h₀.idle_section hleads
  have hadopting := hsound.waitingSection name hidle hdone s t hs ht
  have hnodup := hsound.nodupSections
  refine .congr (resolveSection_of_idle hdone ht hidle) ?_
  rw [hparents]
  refine .bind (meets_adoptParents hs hidle hnodup hleads (meets_all hd p _).1 [] t q rfl
    (hsound.openSection hdone) ht hadopting) (succeeds_adoptParents hd h₀ hs hidle hnodup hleads
      (hdeep name hidle) [] t q rfl (hsound.openSection hdone) ht hadopting) ?_
  rintro _ q₁ hs₁ - ⟨t₁, ht₁, hadopting₁⟩
  exact succeeds_resolveContents hd h₀ hclean hs hidle hnodup hleads (hreference name hidle) hs₁ ht₁
    hadopting₁

/-! ## Macros and references -/

/-- **Resolving a macro succeeds**, if references do with fewer names idle. -/
theorem macroSucceeds (hdeep : ∀ name ∈ i.macros, ReferenceSucceeds d p q₀ (i.openMacro name)) :
    MacroSucceeds d p i := by
  intro name span hleads q hsound
  obtain ⟨e, -, he, -, -⟩ := h₀.sound.doneMacro name (h₀.done hleads.rooted)
  by_cases hdone : name ∈ q.doneMacros
  · obtain ⟨-, w, -, hw, -⟩ := hsound.doneMacro name hdone
    exact ⟨_, q, resolveMacro_of_done hw hdone⟩
  have hidle : name ∈ i.macros := by
    by_contra hopen
    exact h₀.not_open hleads ⟨by rw [Table.contains, he]; rfl, hopen⟩
  have hv : q.document.macros.get? name = some e := (hsound.waitingMacro name hdone).trans he
  refine .congr (resolveMacro_of_idle hv hdone hidle) ?_
  have hvalue : Delivers d p (i.openMacro name) (resolveReference p (i.openMacro name)) e := by
    refine delivers_of_slot hd h₀ hclean (s := .ofMacro name) (fun n hn => ?_) he (hdeep name hidle)
      fun r hr n hn => hleads.openMacro (Document.edge_macro he hr hn)
    cases hn
    exact hleads.rooted
  exact hvalue.bind (hsound.openMacro hdone) fun w q₁ _ _ _ => ⟨_, _, rfl⟩

omit hclean in
/-- **Resolving a reference succeeds**, if sections and macros do. -/
theorem referenceSucceeds (hsection : SectionSucceeds d p i) (hnamed : MacroSucceeds d p i) :
    ReferenceSucceeds d p q₀ i := by
  rintro ⟨kind, target⟩ hleads hreads span q hsound
  cases kind with
  | localization =>
    rw [resolveReference_localization]
    exact .pure _
  | environment =>
    obtain ⟨v, hv⟩ := hreads span
    have hv : p.environment target span = .ok v := hv
    rw [resolveReference_environment, hv]
    exact .pure v
  | macroName =>
    rw [resolveReference_macroName]
    exact hnamed target span (hleads _ rfl) q hsound
  | crossSection =>
    obtain ⟨v, hv⟩ := hreads span
    cases hkey : Reference.sectionKey? ⟨.crossSection, target⟩ with
    | none =>
      simp only [Document.read, hkey] at hv
      cases hv
    | some e =>
      obtain ⟨name, key⟩ := e
      have hlead : d.Leads i (.ofSection name) :=
        hleads _ (by simp only [Reference.node?, hkey, Option.map_some])
      obtain ⟨s, hs⟩ := h₀.exists_section hlead
      obtain ⟨t, ht, -⟩ := hsound.exists_section hs
      refine .congr (resolveReference_of_idle hkey (by rw [Table.contains, ht]; rfl)
        (h₀.idle_section hlead)) ?_
      refine .bind ((meets_all hd p i).1 name hlead q hsound) (hsection name hlead q hsound)
        fun _ q₁ hs₁ _ hdone => ?_
      -- the section has the property, as it has it in the solution
      have hslot : Reference.slot? ⟨.crossSection, target⟩ = some (.property name key) := by
        simp only [Reference.slot?, hkey, Option.map_some]
      have hthere : (q₀.document.get? name key).isSome := Document.isSome_of_reads hslot hreads
      rw [h₀.sound.isSome_iff_holds (h₀.done hlead.rooted), ← hs₁.isSome_iff_holds hdone] at hthere
      obtain ⟨w, hw⟩ := Option.isSome_iff_exists.mp hthere
      exact ⟨w.withSpan span, q₁, by rw [readProperty, get_bind, hw]; rfl⟩

/-- **Every call of the resolver succeeds** that is led to. -/
theorem succeeds_all (i : Idle) :
    SectionSucceeds d p i ∧ MacroSucceeds d p i ∧ ReferenceSucceeds d p q₀ i := by
  induction i using Idle.induction with
  | step i ihs ihm =>
    have hsection : SectionSucceeds d p i := sectionSucceeds hd h₀ hclean
      (fun name hname => (ihs name hname).1) fun name hname => (ihs name hname).2.2
    have hnamed : MacroSucceeds d p i :=
      macroSucceeds hd h₀ hclean fun name hname => (ihm name hname).2.2
    exact ⟨hsection, hnamed, referenceSucceeds hd h₀ hsection hnamed⟩

/-! ## The whole run -/

/-- **Every root is resolved without a fault.** -/
theorem succeeds_resolveNode {n : Node} (hn : n ∈ d.roots) (hs : Sound d p (.all d) q) :
    Succeeds q (resolveNode p (.all d) n) := by
  obtain ⟨hsection, hnamed, -⟩ := succeeds_all hd h₀ hclean (.all d)
  cases n with
  | ofMacro name =>
    exact .bind ((meets_all hd p (.all d)).2.1 name .none (.of_root hn) q hs)
      (hnamed name .none (.of_root hn) q hs) fun _ q' _ _ _ => .pure ()
  | ofSection name => exact hsection name (.of_root hn) q hs

end Calls

/-- Nodes that are resolved one after the other. -/
theorem succeeds_forM {ns : List Node} {step : Node → Resolve Unit}
    (hmeets : ∀ n ∈ ns, ∀ q, Sound d p i q → Meets d p i i q (step n) fun _ q' => q'.Done n)
    (h : ∀ n ∈ ns, ∀ q, Sound d p i q → Succeeds q (step n)) :
    ∀ q, Sound d p i q → Succeeds q (ns.forM step) := by
  induction ns with
  | nil => exact fun q _ => .pure ()
  | cons n ns ih =>
    intro q hs
    refine .bind (hmeets n List.mem_cons_self q hs) (h n List.mem_cons_self q hs) fun _ q₁ hs₁ _ _ => ?_
    exact ih (fun m hm => hmeets m (List.mem_cons_of_mem _ hm))
      (fun m hm => h m (List.mem_cons_of_mem _ hm)) q₁ hs₁

/-- The rules of schemas, one after the other. -/
theorem succeeds_schemas {lookup : Reference → Span → Resolve Value} {es : Entries Section}
    (h : ∀ e ∈ es, ∀ v ∈ e.2.properties.values, Delivers d p i lookup v) :
    ∀ q, Sound d p i q → Succeeds q (resolveSchemas lookup es) := by
  induction es with
  | nil => exact fun q _ => .pure []
  | cons e es ih =>
    intro q hs
    obtain ⟨he, hes⟩ := List.forall_mem_cons.mp h
    have htable : ∀ f ∈ e.2.properties.entries, Delivers d p i lookup f.2 :=
      fun f hf => he f.2 (List.mem_map.mpr ⟨f, hf, rfl⟩)
    have hproperties := meets_table (fun f hf => (htable f hf).resolves) hs
    have hmeets : Meets d p i i q (resolveSchema lookup e.2) fun _ _ => True :=
      hproperties.bind fun _ q₁ hs₁ _ _ => .pure hs₁ trivial
    have hschema : Succeeds q (resolveSchema lookup e.2) :=
      .bind hproperties (succeeds_table htable hs) fun _ _ _ _ _ => .pure _
    refine .bind hmeets hschema fun s q₁ hs₁ _ _ => ?_
    exact .bind (meets_schemas (fun f hf v hv => (hes f hf v hv).resolves) q₁ hs₁) (ih hes q₁ hs₁)
      fun _ q₂ _ _ _ => .pure _

end Progress

open Progress in
/-- **A document that has a solution can be resolved**, if no operation works on a tainted value. -/
theorem Document.resolve_of_solution {p : Providers} {d : Document} {q₀ : Progress}
    (h₀ : Solution d.gatherMacros p q₀) (hclean : d.gatherMacros.OperatesCleanly) :
    ∃ r, d.resolve p = .ok r := by
  have hd := d.gathered_gatherMacros
  have hnodes : Succeeds ⟨d.gatherMacros, [], []⟩ (resolveNodes p d.gatherMacros) := by
    have hroots : ∀ n ∈ d.gatherMacros.dataRoots, n ∈ d.gatherMacros.roots :=
      fun n hn => List.mem_append_left _ hn
    rw [resolveNodes_eq]
    exact succeeds_forM (fun n hn q hs => meets_resolveNode hd p (hroots n hn) hs)
      (fun n hn q hs => succeeds_resolveNode hd h₀ hclean (hroots n hn) hs) _ (sound_start _ p)
  obtain ⟨_, q, hrun⟩ := hnodes
  have hmeets := meets_resolveNodes hd p
  rw [Meets, hrun] at hmeets
  obtain ⟨hs, ha, -⟩ := hmeets
  have hrules : Succeeds (q.withSchemas ∅)
      (resolveSchemas (resolveReference p (.all d.gatherMacros)) q.document.schemas.entries) := by
    rw [ha.schemas]
    refine succeeds_schemas (fun e he v hv => ?_) _ (hs.withSchemas ∅)
    obtain ⟨k, hk⟩ := Table.mem_values_iff.mp hv
    have he' : d.gatherMacros.schemas.get? e.1 = some e.2 := Table.mem_entries_iff.mp he
    refine delivers_of_slot hd h₀ hclean (s := .rule e.1 k) (fun n hn => by cases hn)
      (by simp only [valueAt?, he', Option.bind_some, hk]) (succeeds_all hd h₀ hclean _).2.2
      fun r hr n hn => .of_root (schema_mem_roots (Table.mem_values_iff.mpr ⟨e.1, he'⟩) hv hr hn)
  obtain ⟨fs, q', hrun'⟩ := hrules
  exact ⟨_, resolve_phases.mpr ⟨q, fs, q', hrun, hrun', rfl⟩⟩

end Yini
