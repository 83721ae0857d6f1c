import Yini.Fault.Report
import Yini.Proofs.Outcome
import Yini.Proofs.Resolve.Invariant

/-!
The invariant holds through every run of the resolver.

Each of the three calls that resolve something does one of a few things, and the equations named
`…_of_done`, `…_of_open`, `…_of_idle` say which.  `Meets` says of a step that it keeps the invariant
if it succeeds, and that there is a cycle if it fails because something depends on itself.  The three
calls meet the invariant (`meets_all`), by induction on the number of idle names: a call that goes
deeper leaves fewer of them.
-/

namespace Yini

/-- Whether the fault is that something depends on itself. -/
def Fault.circular (f : Fault) : Bool := f.code == 302 || f.code == 304

variable {p : Providers} {i : Idle} {name : String} {q : Progress}

/-- Induction on the idle names: a call that goes deeper has fewer of them. -/
@[elab_as_elim]
theorem Idle.induction {motive : Idle → Prop}
    (step : ∀ i, (∀ name ∈ i.sections, motive (i.openSection name)) →
      (∀ name ∈ i.macros, motive (i.openMacro name)) → motive i) (i : Idle) : motive i :=
  step i (fun name _ => Idle.induction step (i.openSection name))
    fun name _ => Idle.induction step (i.openMacro name)
termination_by i.size
decreasing_by
  · exact size_openSection_lt ‹_›
  · exact size_openMacro_lt ‹_›

/-- Resolves a parent of a section, and gives the section its properties. -/
def adoptParent (p : Providers) (j : Idle) (name : String) (span : Span) (parent : String) :
    Resolve Unit := do
  if !(← get).document.sections.contains parent then
    throw (.compile (.parentMissing parent name) (some span))
  resolveSection p j parent
  changeDocument (·.inherit name parent)

/-- Resolves what an open section holds, and closes the section. -/
def resolveContents (p : Providers) (j : Idle) (name : String) : Resolve Unit := do
  let (properties, registry) ← takeContents name
  let lookup := resolveReference p j
  let properties ← resolveTable lookup properties
  let registry ← Value.resolveItems lookup registry
  putContents name properties registry
  modify fun q => { q with doneSections := name :: q.doneSections }

theorem resolveSection_of_done (h : name ∈ q.doneSections) : resolveSection p i name q = .ok () q := by
  rw [resolveSection, get_bind, if_pos h]
  rfl

theorem resolveSection_of_missing (h : name ∉ q.doneSections)
    (hs : q.document.sections.get? name = none) :
    resolveSection p i name q = .error (.compile (.sectionMissing name) none) q := by
  rw [resolveSection, get_bind, if_neg h, get_bind, hs]
  rfl

theorem resolveSection_of_open (h : name ∉ q.doneSections) {s : Section}
    (hs : q.document.sections.get? name = some s) (hopen : name ∉ i.sections) :
    resolveSection p i name q
      = .error (.compile (.inheritanceCycle name) (some s.span)) q := by
  rw [resolveSection, get_bind, if_neg h, get_bind, hs]
  simp only [dif_neg hopen]
  rfl

/-- An idle section adopts its parents, and then its contents are resolved. -/
theorem resolveSection_of_idle (h : name ∉ q.doneSections) {s : Section}
    (hs : q.document.sections.get? name = some s) (hidle : name ∈ i.sections) :
    resolveSection p i name q =
      (s.parents.forM (adoptParent p (i.openSection name) name s.span) >>= fun _ =>
        resolveContents p (i.openSection name) name) q := by
  rw [resolveSection, get_bind, if_neg h, get_bind, hs]
  simp only [dif_pos hidle]
  rfl

theorem resolveMacro_of_missing {span : Span} (hv : q.document.macros.get? name = none) :
    resolveMacro p i name span q = .error (.compile (.macroMissing name) (some span)) q := by
  rw [resolveMacro, get_bind, hv]
  rfl

/-- A macro that is done gives its value, at the place where it is used. -/
theorem resolveMacro_of_done {span : Span} {v : Value} (hv : q.document.macros.get? name = some v)
    (h : name ∈ q.doneMacros) : resolveMacro p i name span q = .ok (v.withSpan span) q := by
  rw [resolveMacro, get_bind, hv]
  simp only
  rw [get_bind, if_pos h]
  rfl

theorem resolveMacro_of_open {span : Span} {v : Value} (hv : q.document.macros.get? name = some v)
    (h : name ∉ q.doneMacros) (hopen : name ∉ i.macros) :
    resolveMacro p i name span q = .error (.compile (.macroCycle name) (some span)) q := by
  rw [resolveMacro, get_bind, hv]
  simp only
  rw [get_bind, if_neg h]
  simp only [dif_neg hopen]
  rfl

/-- An idle macro is resolved, and its value is noted. -/
theorem resolveMacro_of_idle {span : Span} {v : Value} (hv : q.document.macros.get? name = some v)
    (h : name ∉ q.doneMacros) (hidle : name ∈ i.macros) :
    resolveMacro p i name span q =
      (v.resolve (resolveReference p (i.openMacro name)) >>= fun w =>
        modify (·.note name w) >>= fun _ => pure (w.withSpan span)) q := by
  rw [resolveMacro, get_bind, hv]
  simp only
  rw [get_bind, if_neg h]
  simp only [dif_pos hidle]
  rfl

/-- A parent that is not there is a fault, with the name of the section that wants it. -/
theorem adoptParent_of_missing {span : Span} {parent : String}
    (h : q.document.sections.contains parent = false) :
    adoptParent p i name span parent q
      = .error (.compile (.parentMissing parent name) (some span)) q := by
  rw [adoptParent, get_bind]
  simp only [h]
  rfl

/-- A parent that is there is resolved first, and then adopted. -/
theorem adoptParent_of_declared {span : Span} {parent : String}
    (h : q.document.sections.contains parent = true) :
    adoptParent p i name span parent q = (resolveSection p i parent >>= fun _ =>
      changeDocument (·.inherit name parent)) q := by
  rw [adoptParent, get_bind]
  simp only [h]
  rfl

theorem changeDocument_inherit {parent : String} {u : Section}
    (hu : q.document.sections.get? parent = some u) :
    changeDocument (·.inherit name parent) q = .ok () (q.alter name (·.adopt u.properties)) := by
  show EStateM.Result.ok () { q with document := q.document.inherit name parent } = _
  rw [Document.inherit_eq hu]
  rfl

/-- The contents of a section are taken out, and it is empty meanwhile. -/
theorem takeContents_of_declared {s : Section} (hs : q.document.sections.get? name = some s) :
    takeContents name q = .ok (s.properties, s.registry)
      (q.alter name ({ · with properties := ∅, registry := [] })) := by
  rw [takeContents, get_bind, hs]
  rfl

theorem resolveReference_macroName {target : String} {span : Span} :
    resolveReference p i ⟨.macroName, target⟩ span = resolveMacro p i target span := by
  rw [resolveReference]

theorem resolveReference_environment {name : String} {span : Span} :
    resolveReference p i ⟨.environment, name⟩ span =
      match p.environment name span with
      | .ok v => pure v
      | .error fault => throw fault := by
  unfold resolveReference
  rfl

theorem resolveReference_localization {key : String} {span : Span} :
    resolveReference p i ⟨.localization, key⟩ span = pure (p.localized key span) := by
  rw [resolveReference]

section CrossSection

variable {target key : String} {span : Span}

/-- A target without a section or without a key is a fault. -/
theorem resolveReference_of_badTarget
    (hkey : Reference.sectionKey? ⟨.crossSection, target⟩ = none) :
    resolveReference p i ⟨.crossSection, target⟩ span q
      = .error (.compile (.badTarget target) (some span)) q := by
  rw [resolveReference]
  simp only [hkey]
  rfl

variable (hkey : Reference.sectionKey? ⟨.crossSection, target⟩ = some (name, key))

include hkey

/-- A target in a section that is not there is a fault. -/
theorem resolveReference_of_missing (h : q.document.sections.contains name = false) :
    resolveReference p i ⟨.crossSection, target⟩ span q
      = .error (.compile (.targetMissing target) (some span)) q := by
  rw [resolveReference]
  simp only [hkey]
  rw [get_bind]
  simp only [h]
  rfl

/-- A target in an open section makes that section depend on itself. -/
theorem resolveReference_of_open (h : q.document.sections.contains name = true)
    (hopen : name ∉ i.sections) :
    resolveReference p i ⟨.crossSection, target⟩ span q
      = .error (.compile (.referenceCycle name) (some span)) q := by
  rw [resolveReference]
  simp only [hkey]
  rw [get_bind]
  simp only [h, hopen]
  rfl

/-- What is left to do when the section of a reference is resolved. -/
def readProperty (name key target : String) (span : Span) : Resolve Value := do
  match (← get).document.get? name key with
  | some v => return v.withSpan span
  | none => throw (.compile (.targetMissing target) (some span))

/-- Otherwise the section of the target is resolved first, and then the property is read. -/
theorem resolveReference_of_idle (h : q.document.sections.contains name = true)
    (hidle : name ∈ i.sections) :
    resolveReference p i ⟨.crossSection, target⟩ span q
      = (resolveSection p i name >>= fun _ => readProperty name key target span) q := by
  rw [resolveReference]
  simp only [hkey]
  rw [get_bind]
  simp only [h, hidle]
  rfl

end CrossSection

namespace Progress

variable {α β : Type} {d : Document} {p : Providers} {i j k : Idle} {q q' : Progress}

/-! ## Meeting the invariant -/

/-- A step that starts in `q` meets the invariant: if it succeeds, the invariant holds with `j` idle,
    what is not in `i` has been left alone, and `post` is true; and if it fails because something
    depends on itself, there is a cycle. -/
def Meets (d : Document) (p : Providers) (i j : Idle) (q : Progress) (x : Resolve α)
    (post : α → Progress → Prop) : Prop :=
  match x q with
  | .ok a q' => Sound d p j q' ∧ Advance d i q q' ∧ post a q'
  | .error f _ => f.circular → d.Cyclic

/-- A step that succeeds meets the invariant if its last state does. -/
theorem Meets.of_ok {x : Resolve α} {post : α → Progress → Prop} {a : α} (h : x q = .ok a q')
    (hs : Sound d p j q') (ha : Advance d i q q') (hp : post a q') : Meets d p i j q x post := by
  rw [Meets, h]
  exact ⟨hs, ha, hp⟩

/-- A step that fails meets the invariant if there is a cycle, should the fault tell of one. -/
theorem Meets.of_error {x : Resolve α} {post : α → Progress → Prop} {f : Fault}
    (h : x q = .error f q') (hf : f.circular → d.Cyclic) : Meets d p i j q x post := by
  rw [Meets, h]
  exact hf

theorem Meets.pure {post : α → Progress → Prop} {a : α} (hs : Sound d p j q) (hp : post a q) :
    Meets d p i j q (pure a) post :=
  .of_ok rfl hs (.refl d i q) hp

/-- A step after a step. -/
theorem Meets.bind {x : Resolve α} {f : α → Resolve β} {post : α → Progress → Prop}
    {post' : β → Progress → Prop} (hx : Meets d p i j q x post)
    (hf : ∀ a q', Sound d p j q' → Advance d i q q' → post a q' → Meets d p i k q' (f a) post') :
    Meets d p i k q (x >>= f) post' := by
  unfold Meets at hx
  cases hrun : x q with
  | error f r =>
    rw [hrun] at hx
    exact .of_error (bind_eq_error.mpr (.inl hrun)) hx
  | ok a r =>
    rw [hrun] at hx
    obtain ⟨hs, ha, hp⟩ := hx
    have hrest := hf a r hs ha hp
    unfold Meets at hrest ⊢
    rw [bind_of_ok hrun]
    cases hrun' : f a r with
    | error f t => rwa [hrun'] at hrest
    | ok b t =>
      rw [hrun'] at hrest
      exact ⟨hrest.1, ha.trans hrest.2.1, hrest.2.2⟩

theorem Meets.imp {x : Resolve α} {post post' : α → Progress → Prop}
    (h : Meets d p i j q x post)
    (himp : ∀ a q', Sound d p j q' → Advance d i q q' → post a q' → post' a q') :
    Meets d p i j q x post' := by
  unfold Meets at h ⊢
  cases hrun : x q with
  | error f r => rwa [hrun] at h
  | ok a r =>
    rw [hrun] at h
    exact ⟨h.1, h.2.1, himp a r h.1 h.2.1 h.2.2⟩

/-- With more names idle for the caller, less has to be left alone. -/
theorem Meets.weaken {x : Resolve α} {post : α → Progress → Prop} (h : Meets d p k j q x post)
    (hsub : ∀ n ∈ k.sections, n ∈ i.sections) : Meets d p i j q x post := by
  unfold Meets at h ⊢
  cases hrun : x q with
  | error f r => rwa [hrun] at h
  | ok a r =>
    rw [hrun] at h
    exact ⟨h.1, h.2.1.weaken hsub, h.2.2⟩

/-! ## Values -/

/-- The look-up gives every reference its value. -/
def LooksUp (d : Document) (p : Providers) (j : Idle) (lookup : Reference → Span → Resolve Value)
    (r : Reference) : Prop :=
  ∀ span q, Sound d p j q →
    Meets d p j j q (lookup r span) fun v q' => Evaluated d p q' (.atom (.reference r) span) v

/-- The expression gets its value. -/
def Resolves (d : Document) (p : Providers) (j : Idle) (lookup : Reference → Span → Resolve Value)
    (e : Value) : Prop :=
  ∀ q, Sound d p j q → Meets d p j j q (e.resolve lookup) fun v q' => Evaluated d p q' e v

section Values

variable {lookup : Reference → Span → Resolve Value}

/-- **Items are evaluated one after the other**: what has been evaluated stays so while the others are. -/
theorem meets_items {es : List Value} (h : ∀ e ∈ es, Resolves d p j lookup e) :
    ∀ q, Sound d p j q → Meets d p j j q (Value.resolveItems lookup es) fun vs q' =>
      List.Forall₂ (Evaluated d p q') es vs := by
  induction es with
  | nil => exact fun q hs => .pure hs .nil
  | cons e es ih =>
    intro q hs
    refine (h e List.mem_cons_self q hs).bind fun v q₁ hs₁ _ hv => ?_
    refine (ih (fun e' he => h e' (List.mem_cons_of_mem _ he)) q₁ hs₁).bind
      fun vs q₂ hs₂ ha₂ hvs => ?_
    exact .pure hs₂ (.cons (hv.mono ha₂.keeps) hvs)

/-- Fields are evaluated one after the other, as items are. -/
theorem meets_fields {es : Entries Value} (h : ∀ e ∈ es, Resolves d p j lookup e.2) :
    ∀ q, Sound d p j q → Meets d p j j q (Value.resolveFields lookup es) fun fs q' =>
      List.Forall₂ (FieldEvaluated d p q') es fs := by
  induction es with
  | nil => exact fun q hs => .pure hs .nil
  | cons e es ih =>
    intro q hs
    refine (h e List.mem_cons_self q hs).bind fun v q₁ hs₁ _ hv => ?_
    refine (ih (fun e' he => h e' (List.mem_cons_of_mem _ he)) q₁ hs₁).bind
      fun fs q₂ hs₂ ha₂ hfs => ?_
    exact .pure hs₂ (.cons ⟨rfl, hv.mono ha₂.keeps⟩ hfs)

theorem meets_option {o : Option Value} (h : ∀ e ∈ o, Resolves d p j lookup e) :
    ∀ q, Sound d p j q → Meets d p j j q (Value.resolveOption lookup o) fun o' q' =>
      OptionEvaluated d p q' o o' := by
  cases o with
  | none => exact fun q hs => .pure hs rfl
  | some e =>
    intro q hs
    refine (h e rfl q hs).bind fun v q₁ hs₁ _ hv => ?_
    exact .pure hs₁ ⟨v, rfl, hv⟩

/-- **An expression gets its value**, if its references get theirs. -/
theorem resolves (e : Value) (h : ∀ r ∈ e.references, LooksUp d p j lookup r) :
    Resolves d p j lookup e := by
  induction e using Value.induction with
  | atom a span =>
    intro q hs
    cases a with
    | reference r => exact h r List.mem_cons_self span q hs
    | _ => exact .pure hs (.atom rfl)
  | sequence k items span ih =>
    intro q hs
    have hitems : ∀ e ∈ items, Resolves d p j lookup e := fun e he =>
      ih e he (Value.forall_references_sequence.mp h e he)
    refine (meets_items hitems q hs).bind fun vs q₁ hs₁ _ hvs => ?_
    exact .pure hs₁ (.sequence hvs)
  | record k fields span ih =>
    intro q hs
    have hfields : ∀ e ∈ fields, Resolves d p j lookup e.2 := fun e he =>
      ih e he (Value.forall_references_record.mp h e he)
    refine (meets_fields hfields q hs).bind fun fs q₁ hs₁ _ hfs => ?_
    exact .pure hs₁ (.record hfs)
  | binary l op r span ihl ihr =>
    intro q hs
    obtain ⟨hl, hr⟩ := Value.forall_references_binary.mp h
    refine (ihl hl q hs).bind fun v q₁ hs₁ _ hv => ?_
    refine (ihr hr q₁ hs₁).bind fun w q₂ hs₂ ha₂ hw => ?_
    cases hop : v.combine op w span with
    | error f =>
      -- an operation that cannot be carried out is no cycle
      have hcode := Value.code_of_combine_eq_error hop
      refine .of_error rfl fun hf => ?_
      simp only [Fault.circular, Bool.or_eq_true, beq_iff_eq] at hf
      omega
    | ok u =>
      -- the left operand was evaluated earlier; what it was read from has stayed
      exact .pure hs₂ ((hv.mono ha₂.keeps).binary hw hop)
  | neg e span ih =>
    intro q hs
    refine (ih h q hs).bind fun v q₁ hs₁ _ hv => ?_
    cases hop : v.opposite span with
    | error f =>
      have hcode := Value.code_of_opposite_eq_error hop
      refine .of_error rfl fun hf => ?_
      simp only [Fault.circular, Bool.or_eq_true, beq_iff_eq] at hf
      omega
    | ok u =>
      exact .pure hs₁ (hv.neg hop)
  | rule m a b c span iha ihb ihc =>
    intro q hs
    obtain ⟨ha, hb, hc⟩ := Value.forall_references_rule.mp h
    refine (meets_option (fun e he => iha e he (ha e he)) q hs).bind fun a' q₁ hs₁ _ ha' => ?_
    refine (meets_option (fun e he => ihb e he (hb e he)) q₁ hs₁).bind fun b' q₂ hs₂ hadv₂ hb' => ?_
    refine (meets_option (fun e he => ihc e he (hc e he)) q₂ hs₂).bind fun c' q₃ hs₃ hadv₃ hc' => ?_
    exact .pure hs₃ (.rule ((ha'.mono hadv₂.keeps).mono hadv₃.keeps) (hb'.mono hadv₃.keeps) hc')

end Values

/-! ## Sections -/

theorem Meets.congr {x y : Resolve α} {post : α → Progress → Prop} (h : x q = y q)
    (hy : Meets d p i j q y post) : Meets d p i j q x post := by
  unfold Meets at hy ⊢
  rwa [h]

/-- Sections that are led to get resolved. -/
def SectionMeets (d : Document) (p : Providers) (i : Idle) : Prop :=
  ∀ name, d.Leads i (.ofSection name) → ∀ q, Sound d p i q →
    Meets d p i i q (resolveSection p i name) fun _ q' => name ∈ q'.doneSections

/-- Macros that are led to get their values. -/
def MacroMeets (d : Document) (p : Providers) (i : Idle) : Prop :=
  ∀ name span, d.Leads i (.ofMacro name) → ∀ q, Sound d p i q →
    Meets d p i i q (resolveMacro p i name span) fun v q' => name ∈ q'.doneMacros ∧
      ∃ w, q'.document.macros.get? name = some w ∧ w.plain ∧ v = w.withSpan span

/-- References get their values if what they refer to is led to. -/
def ReferenceMeets (d : Document) (p : Providers) (i : Idle) : Prop :=
  ∀ r : Reference, (∀ n, r.node? = some n → d.Leads i n) →
    LooksUp d p i (resolveReference p i) r

theorem OptionEvaluated.of_rel {o o' : Option Value} (h : Option.Rel (Evaluated d p q) o o') :
    OptionEvaluated d p q o o' := by
  cases h with
  | none => rfl
  | some heval => exact ⟨_, rfl, heval⟩

/-- Each property of a section is evaluated, and none appears or is lost. -/
theorem meets_table {lookup : Reference → Span → Resolve Value} {t : Table Value}
    (h : ∀ e ∈ t.entries, Resolves d p j lookup e.2) (hs : Sound d p j q) :
    Meets d p j j q (resolveTable lookup t) fun new q' =>
      ∀ k, OptionEvaluated d p q' (t.get? k) (new.get? k) :=
  (meets_fields h q hs).bind fun _ _ hs₁ _ hfs =>
    .pure hs₁ fun k => .of_rel (Table.Match.of_forall₂ hfs k)

section Opened

variable {name : String} {s t : Section} (hs : d.sections.get? name = some s)
  (hidle : name ∈ i.sections) (hnodup : i.sections.Nodup)
  (hleads : d.Leads i (.ofSection name))

include hs hidle hnodup hleads

/-- A parent is resolved, and its properties are adopted. -/
theorem meets_adoptParent (hdeep : SectionMeets d p (i.openSection name)) {parent : String}
    (hparent : parent ∈ s.parents) {span : Span} {before : List String}
    (hsound : Sound d p (i.openSection name) q) (ht : q.document.sections.get? name = some t)
    (hadopting : Adopting d q name s t before) :
    Meets d p i (i.openSection name) q (adoptParent p (i.openSection name) name span parent)
      fun _ q' => ∃ t', q'.document.sections.get? name = some t' ∧
        Adopting d q' name s t' (before ++ [parent]) := by
  have hopen : name ∉ (i.openSection name).sections := hnodup.not_mem_erase
  cases hcontains : q.document.sections.contains parent with
  | false => exact .of_error (adoptParent_of_missing hcontains) fun hf => by cases hf
  | true =>
    refine .congr (adoptParent_of_declared hcontains) ?_
    have hedge := hleads.openSection (Document.edge_parent hs hparent)
    have hresolved := (hdeep parent hedge q hsound).imp
      fun _ q₁ hs₁ ha₁ hdone => And.intro hdone (ha₁.left name hopen t ht)
    refine (hresolved.weaken fun n hn => List.mem_of_mem_erase hn).bind ?_
    rintro _ q₁ hs₁ ha₁ ⟨hdone, t₁, ht₁, htouched⟩
    obtain ⟨_, u, -, hu, hsolved⟩ := hs₁.doneSection parent hdone
    have hname : name ∉ q₁.doneSections := fun hmem => hopen (hs₁.idleSection name hmem)
    refine .of_ok (changeDocument_inherit hu) (hs₁.alter hopen fun _ => rfl) (.alter hname hidle _)
      ⟨t₁.adopt u.properties, by rw [get?_alter_self, ht₁]; rfl, ?_⟩
    -- macros may have been noted in the section while its parent was resolved
    have hadopting₁ := (hadopting.mono ha₁.keeps).touch htouched hs hs₁.doneMacro
    exact (hadopting₁.adopt hdone hu fun k v hv => hsolved.plain hv).mono (.alter hname _)

/-- The parents are resolved and adopted one after the other. -/
theorem meets_adoptParents (hdeep : SectionMeets d p (i.openSection name)) {span : Span}
    {parents : List String} :
    ∀ before t q, s.parents = before ++ parents → Sound d p (i.openSection name) q →
      q.document.sections.get? name = some t → Adopting d q name s t before →
      Meets d p i (i.openSection name) q
        (parents.forM (adoptParent p (i.openSection name) name span))
        fun _ q' => ∃ t', q'.document.sections.get? name = some t' ∧
          Adopting d q' name s t' s.parents := by
  induction parents with
  | nil =>
    intro before t q hparents hsound ht hadopting
    rw [List.append_nil] at hparents
    rw [← hparents] at hadopting
    exact .pure hsound ⟨t, ht, hadopting⟩
  | cons parent parents ih =>
    intro before t q hparents hsound ht hadopting
    have hmem : parent ∈ s.parents := by
      rw [hparents]
      exact List.mem_append_right _ List.mem_cons_self
    refine (meets_adoptParent hs hidle hnodup hleads hdeep hmem hsound ht hadopting).bind ?_
    rintro _ q₁ hs₁ - ⟨t₁, ht₁, hadopting₁⟩
    refine ih (before ++ [parent]) t₁ q₁ ?_ hs₁ ht₁ hadopting₁
    rw [hparents, List.append_assoc, List.singleton_append]

/-- When all parents are adopted, the values of the section are resolved, and it is done. -/
theorem meets_resolveContents (hd : d.Gathered) (hdeep : ReferenceMeets d p (i.openSection name))
    (hsound : Sound d p (i.openSection name) q) (ht : q.document.sections.get? name = some t)
    (hadopting : Adopting d q name s t s.parents) :
    Meets d p i i q (resolveContents p (i.openSection name) name)
      fun _ q' => name ∈ q'.doneSections := by
  have hopen : name ∉ (i.openSection name).sections := hnodup.not_mem_erase
  have hsub : ∀ n ∈ (i.openSection name).sections, n ∈ i.sections :=
    fun n hn => List.mem_of_mem_erase hn
  have hname : ∀ {q}, Sound d p (i.openSection name) q → name ∉ q.doneSections :=
    fun hs hmem => hopen (hs.idleSection name hmem)
  -- every value in the section is declared, and its references are edges, or it holds none
  have hcontents : ∀ v ∈ t.contents,
      Resolves d p (i.openSection name) (resolveReference p (i.openSection name)) v := by
    intro v hv
    rcases hadopting.plain_or_mem_contents hsound.doneMacro hv with hplain | hmem
    · refine resolves v fun r hr => ?_
      rw [Value.references_of_plain v hplain] at hr
      exact absurd hr List.not_mem_nil
    · exact resolves v fun r hr => hdeep r fun n hn =>
        hleads.openSection (Document.edge_contents hs hmem hr hn)
  have htable : ∀ e ∈ t.properties.entries, Resolves d p (i.openSection name)
      (resolveReference p (i.openSection name)) e.2 :=
    fun e he => hcontents e.2 (Section.mem_contents_of_property he)
  have hitems : ∀ v ∈ t.registry, Resolves d p (i.openSection name)
      (resolveReference p (i.openSection name)) v :=
    fun v hv => hcontents v (Section.mem_contents_of_entry hv)
  have htake : Meets d p i (i.openSection name) q (takeContents name) fun contents q' =>
      contents = (t.properties, t.registry) := by
    exact .of_ok (takeContents_of_declared ht) (hsound.alter hopen fun _ => rfl)
      (.alter (hname hsound) hidle _) rfl
  refine htake.bind ?_
  rintro _ q₁ hs₁ ha₁ rfl
  refine ((meets_table htable hs₁).weaken hsub).bind fun new q₂ hs₂ ha₂ hnew => ?_
  refine ((meets_items hitems q₂ hs₂).weaken hsub).bind fun registry q₃ hs₃ ha₃ hregistry => ?_
  have hadopting₃ := ((hadopting.mono ha₁.keeps).mono ha₂.keeps).mono ha₃.keeps
  have hnew₃ := fun k => (hnew k).mono ha₃.keeps
  obtain ⟨t₃, ht₃, -⟩ := hs₃.exists_section hs
  have hsolved : Solved d p q₃ name s { t₃ with properties := new, registry } :=
    hadopting₃.solve hd hs hs₃.doneMacro hnew₃ hregistry
  exact .of_ok rfl (hs₃.close hnodup hidle hs ht₃ hsolved hleads.rooted)
    (.close (hname hs₃) hidle new registry) List.mem_cons_self

end Opened

/-- **Sections get resolved**, if that is so with fewer names idle. -/
theorem sectionMeets (hd : d.Gathered)
    (hdeep : ∀ name ∈ i.sections, SectionMeets d p (i.openSection name))
    (hreference : ∀ name ∈ i.sections, ReferenceMeets d p (i.openSection name)) :
    SectionMeets d p i := by
  intro name hleads q hsound
  by_cases hdone : name ∈ q.doneSections
  · exact .of_ok (resolveSection_of_done hdone) hsound (.refl d i q) hdone
  cases ht : q.document.sections.get? name with
  | none => exact .of_error (resolveSection_of_missing hdone ht) fun hf => by cases hf
  | some t =>
    obtain ⟨s, hs, hparents⟩ := hsound.declared_section ht
    by_cases hidle : name ∈ i.sections
    · refine .congr (resolveSection_of_idle hdone ht hidle) ?_
      have hadopting := hsound.waitingSection name hidle hdone s t hs ht
      have hnodup := hsound.nodupSections
      rw [← hparents]
      refine (meets_adoptParents hs hidle hnodup hleads (hdeep name hidle) [] t q rfl
        (hsound.openSection hdone) ht hadopting).bind ?_
      rintro _ q₁ hs₁ - ⟨t₁, ht₁, hadopting₁⟩
      exact meets_resolveContents hs hidle hnodup hleads hd (hreference name hidle) hs₁ ht₁
        hadopting₁
    · -- the section is open: it is among its own ancestors, or a value on the way refers to it
      have hopen : d.Open i (.ofSection name) := ⟨by simp [Table.contains, hs], hidle⟩
      exact .of_error (resolveSection_of_open hdone ht hidle) fun _ => hleads.cyclic hopen

/-! ## Macros and references -/

/-- **Macros get their values**, if references do with fewer names idle. -/
theorem macroMeets (hd : d.Gathered)
    (hdeep : ∀ name ∈ i.macros, ReferenceMeets d p (i.openMacro name)) : MacroMeets d p i := by
  intro name span hleads q hsound
  cases hv : q.document.macros.get? name with
  | none => exact .of_error (resolveMacro_of_missing hv) fun hf => by cases hf
  | some e =>
    by_cases hdone : name ∈ q.doneMacros
    · obtain ⟨_, w, -, hw, heval⟩ := hsound.doneMacro name hdone
      rw [hv] at hw
      cases hw
      exact .of_ok (resolveMacro_of_done hv hdone) hsound (.refl d i q)
        ⟨hdone, e, hv, heval.plain, rfl⟩
    have he : d.macros.get? name = some e := (hsound.waitingMacro name hdone).symm.trans hv
    by_cases hidle : name ∈ i.macros
    · refine .congr (resolveMacro_of_idle hv hdone hidle) ?_
      have hopened := hsound.openMacro hdone
      have hresolves := resolves e fun r hr => hdeep name hidle r fun n hn =>
        hleads.openMacro (Document.edge_macro he hr hn)
      have hvalue : Meets d p i (i.openMacro name) q _ _ := (hresolves q hopened).weaken fun _ h => h
      refine hvalue.bind fun w q₁ hs₁ _ hw => ?_
      have hname : name ∉ q₁.doneMacros := fun hmem =>
        hsound.nodupMacros.not_mem_erase (hs₁.idleMacro name hmem)
      have hnote : Meets d p i i q₁ (modify (·.note name w) : Resolve Unit) fun _ q' =>
          q' = q₁.note name w :=
        .of_ok rfl (hs₁.note hd hsound.nodupMacros hidle he hw hleads.rooted) (.note hd hs₁ hname he hw i) rfl
      refine hnote.bind ?_
      rintro _ q₂ hs₂ - rfl
      exact .pure hs₂ ⟨List.mem_cons_self, w, Table.get?_insert_self _ _ _, hw.plain, rfl⟩
    · -- the macro is open: its own value is being resolved
      have hopen : d.Open i (.ofMacro name) := ⟨by simp [Table.contains, he], hidle⟩
      exact .of_error (resolveMacro_of_open hv hdone hidle) fun _ => hleads.cyclic hopen

/-- What a done section has under a name is the value of a reference to it. -/
theorem meets_readProperty {target name key : String} {span : Span}
    (hkey : Reference.sectionKey? ⟨.crossSection, target⟩ = some (name, key))
    (hsound : Sound d p i q) (hdone : name ∈ q.doneSections) :
    Meets d p i i q (readProperty name key target span) fun v q' =>
      Evaluated d p q' (.atom (.reference ⟨.crossSection, target⟩) span) v := by
  cases hget : q.document.get? name key with
  | none =>
    have hrun : readProperty name key target span q
        = .error (.compile (.targetMissing target) (some span)) q := by
      rw [readProperty, get_bind, hget]
      rfl
    exact .of_error hrun fun hf => by cases hf
  | some v =>
    have hrun : readProperty name key target span q = .ok (v.withSpan span) q := by
      rw [readProperty, get_bind, hget]
      rfl
    obtain ⟨_, t, -, ht, hsolved⟩ := hsound.doneSection name hdone
    have hv : t.properties.get? key = some v := by
      rwa [Document.get?, ht, Option.bind_some] at hget
    have hplain : (v.withSpan span).plain := by
      rw [Value.plain_withSpan]
      exact hsolved.plain hv
    refine .of_ok hrun hsound (.refl d i q) (.reference hplain (fun n hn => ?_) ?_)
    · rw [Reference.node?, hkey] at hn
      cases hn
      exact hdone
    · simp only [Document.read, hkey, hget]

/-- References to properties get their values, if sections get resolved. -/
theorem meets_crossSection {target name key : String} {span : Span} (hsection : SectionMeets d p i)
    (hkey : Reference.sectionKey? ⟨.crossSection, target⟩ = some (name, key))
    (hleads : d.Leads i (.ofSection name)) (hsound : Sound d p i q) :
    Meets d p i i q (resolveReference p i ⟨.crossSection, target⟩ span) fun v q' =>
      Evaluated d p q' (.atom (.reference ⟨.crossSection, target⟩) span) v := by
  cases hcontains : q.document.sections.contains name with
  | false => exact .of_error (resolveReference_of_missing hkey hcontains) fun hf => by cases hf
  | true =>
    by_cases hidle : name ∈ i.sections
    · refine .congr (resolveReference_of_idle hkey hcontains hidle) ?_
      exact (hsection name hleads q hsound).bind fun _ q₁ hs₁ _ hdone =>
        meets_readProperty hkey hs₁ hdone
    · -- the section is open: a call that has not returned yet is resolving it
      obtain ⟨t, ht⟩ := Option.isSome_iff_exists.mp hcontains
      obtain ⟨s, hs, -⟩ := hsound.declared_section ht
      have hopen : d.Open i (.ofSection name) := ⟨by simp [Table.contains, hs], hidle⟩
      exact .of_error (resolveReference_of_open hkey hcontains hidle) fun _ => hleads.cyclic hopen

/-- **References get their values**, if sections and macros do. -/
theorem referenceMeets (hsection : SectionMeets d p i) (hmacros : MacroMeets d p i) :
    ReferenceMeets d p i := by
  rintro ⟨kind, target⟩ hleads span q hsound
  cases kind with
  | localization =>
    rw [resolveReference_localization]
    exact .pure hsound (.reference rfl (fun _ hn => by cases hn) rfl)
  | environment =>
    rw [resolveReference_environment]
    cases henv : p.environment target span with
    | error f =>
      refine .of_error rfl fun hf => ?_
      unfold Providers.environment at henv
      split at henv <;> cases henv
      cases hf
    | ok v =>
      -- what comes from outside the document is a text
      have hplain : v.plain := by
        unfold Providers.environment at henv
        split at henv <;> cases henv <;> rfl
      exact .pure hsound (.reference hplain (fun _ hn => by cases hn) henv)
  | macroName =>
    rw [resolveReference_macroName]
    refine (hmacros target span (hleads _ rfl) q hsound).imp ?_
    rintro _ q₁ hs₁ - ⟨hdone, w, hw, hplain, rfl⟩
    -- the macro is done, so reading it again gives the same, but for the place
    refine .reference (by rwa [Value.plain_withSpan]) (fun n hn => ?_) ?_
    · cases hn
      exact hdone
    · simp only [Document.read, hw]
  | crossSection =>
    cases hkey : Reference.sectionKey? ⟨.crossSection, target⟩ with
    | none => exact .of_error (resolveReference_of_badTarget hkey) fun hf => by cases hf
    | some e =>
      obtain ⟨name, key⟩ := e
      have hnode : Reference.node? ⟨.crossSection, target⟩ = some (.ofSection name) := by
        simp only [Reference.node?, hkey, Option.map_some]
      exact meets_crossSection hsection hkey (hleads _ hnode) hsound

/-- **Every call of the resolver meets the invariant.** -/
theorem meets_all (hd : d.Gathered) (p : Providers) (i : Idle) :
    SectionMeets d p i ∧ MacroMeets d p i ∧ ReferenceMeets d p i := by
  induction i using Idle.induction with
  | step i ihs ihm =>
    have hsection : SectionMeets d p i :=
      sectionMeets hd (fun name hname => (ihs name hname).1) fun name hname => (ihs name hname).2.2
    have hmacros : MacroMeets d p i := macroMeets hd fun name hname => (ihm name hname).2.2
    exact ⟨hsection, hmacros, referenceMeets hsection hmacros⟩

end Progress

end Yini
