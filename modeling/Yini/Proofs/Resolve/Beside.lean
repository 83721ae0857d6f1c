import Yini.Proofs.Resolve.Whole

/-!
Resolving a document with one more section.

Whatever a document does when it is resolved, it does it in the same way if one more section stands
beside the others: nothing leads there, or resolving would fail without that section.  `Beside` relates
the two states, `Mirrors` says of a step that it succeeds beside the section if it succeeds without it,
and `mirrors_all` says so of the three calls of the resolver, by induction on the number of idle names.
-/

namespace Yini

variable {α β : Type} {n name : String} {s : Section} {closed : Prop}

/-! ## States -/

/-- The state `r` is the state `q` with a section `s` beside the others; `closed` says whether that
    section is done. -/
structure Beside (n : String) (s : Section) (closed : Prop) (q r : Progress) : Prop where
  fresh : q.document.sections.get? n = none
  waits : n ∉ q.doneSections
  here : r.document.sections.get? n = some s
  others : ∀ m, m ≠ n → r.document.sections.get? m = q.document.sections.get? m
  macros : r.document.macros = q.document.macros
  schemas : r.document.schemas = q.document.schemas
  doneHere : n ∈ r.doneSections ↔ closed
  doneOthers : ∀ m, m ≠ n → (m ∈ r.doneSections ↔ m ∈ q.doneSections)
  doneMacros : r.doneMacros = q.doneMacros

namespace Beside

open Progress

variable {q r : Progress} (h : Beside n s closed q r)

include h

/-- What can be found without the section is another one. -/
theorem ne_of_found {t : Section} (ht : q.document.sections.get? name = some t) : name ≠ n := by
  rintro rfl
  rw [h.fresh] at ht
  cases ht

/-- The other sections have the same properties in both states. -/
theorem get?_eq (hname : name ≠ n) (key : String) : r.document.get? name key = q.document.get? name key := by
  rw [Document.get?, h.others name hname, Document.get?]

/-- The other sections are there in both states or in neither. -/
theorem contains_eq (hname : name ≠ n) :
    r.document.sections.contains name = q.document.sections.contains name := by
  rw [Table.contains, h.others name hname, Table.contains]

/-- Changing another section. -/
theorem alter (hname : name ≠ n) (f : Section → Section) :
    Beside n s closed (q.alter name f) (r.alter name f) where
  fresh := by rw [get?_alter_of_ne q hname]; exact h.fresh
  waits := h.waits
  here := by rw [get?_alter_of_ne r hname]; exact h.here
  others m hm := by
    by_cases heq : name = m
    · subst heq
      rw [get?_alter_self, get?_alter_self, h.others name hname]
    · rw [get?_alter_of_ne r heq, get?_alter_of_ne q heq, h.others m hm]
  macros := h.macros
  schemas := h.schemas
  doneHere := h.doneHere
  doneOthers := h.doneOthers
  doneMacros := h.doneMacros

/-- Another section becomes done. -/
theorem done (hname : name ≠ n) : Beside n s closed
    { q with doneSections := name :: q.doneSections } { r with doneSections := name :: r.doneSections } where
  fresh := h.fresh
  waits hmem := by
    rcases List.mem_cons.mp hmem with heq | hmem
    · exact hname heq.symm
    · exact h.waits hmem
  here := h.here
  others := h.others
  macros := h.macros
  schemas := h.schemas
  doneHere := by
    rw [← h.doneHere, List.mem_cons]
    exact or_iff_right hname.symm
  doneOthers m hm := by rw [List.mem_cons, List.mem_cons, h.doneOthers m hm]
  doneMacros := h.doneMacros

/-- Adopting the properties of a parent. -/
theorem inherit {parent : String} (hname : name ≠ n) (hparent : parent ≠ n) : Beside n s closed
    { q with document := q.document.inherit name parent }
    { r with document := r.document.inherit name parent } := by
  cases ht : q.document.sections.get? parent with
  | none =>
    have ht' := (h.others parent hparent).trans ht
    simp only [Document.inherit, ht, ht']
    exact h
  | some t =>
    rw [Document.inherit_eq ht, Document.inherit_eq ((h.others parent hparent).trans ht)]
    exact h.alter hname _

/-- Noting the value of a macro. -/
theorem note (hn : n ≠ defineName) (name : String) (v : Value) :
    Beside n s closed (q.note name v) (r.note name v) where
  fresh := by rw [get?_note_sections, h.fresh, Option.map_none]
  waits := h.waits
  here := by rw [get?_note_sections, h.here, Option.map_some, if_neg hn]
  others m hm := by rw [get?_note_sections, get?_note_sections, h.others m hm]
  macros := congrArg (·.insert name v) h.macros
  schemas := h.schemas
  doneHere := h.doneHere
  doneOthers := h.doneOthers
  doneMacros := congrArg (name :: ·) h.doneMacros

theorem withSchemas (schemas : Table Section) :
    Beside n s closed (q.withSchemas schemas) (r.withSchemas schemas) where
  fresh := h.fresh
  waits := h.waits
  here := h.here
  others := h.others
  macros := h.macros
  schemas := rfl
  doneHere := h.doneHere
  doneOthers := h.doneOthers
  doneMacros := h.doneMacros

/-- Changing the section itself. -/
theorem alter_here (f : Section → Section) : Beside n (f s) closed q (r.alter n f) where
  fresh := h.fresh
  waits := h.waits
  here := by rw [get?_alter_self, h.here, Option.map_some]
  others m hm := by rw [get?_alter_of_ne r hm.symm, h.others m hm]
  macros := h.macros
  schemas := h.schemas
  doneHere := h.doneHere
  doneOthers := h.doneOthers
  doneMacros := h.doneMacros

/-- The section itself becomes done. -/
theorem close (properties : Table Value) (registry : List Value) :
    Beside n { s with properties, registry } True q (r.close n properties registry) where
  fresh := h.fresh
  waits := h.waits
  here := (h.alter_here ({ · with properties, registry })).here
  others := (h.alter_here ({ · with properties, registry })).others
  macros := h.macros
  schemas := h.schemas
  doneHere := iff_of_true List.mem_cons_self trivial
  doneOthers m hm := by
    rw [← h.doneOthers m hm]
    exact List.mem_cons.trans (or_iff_right hm)
  doneMacros := h.doneMacros

end Beside

/-! ## Steps -/

/-- If the step `x` succeeds, `y` does so beside the section, and gives the same. -/
def Mirrors (n : String) (s : Section) (closed : Prop) (x y : Resolve α) : Prop :=
  ∀ q r a q', Beside n s closed q r → x q = .ok a q' →
    ∃ r', y r = .ok a r' ∧ Beside n s closed q' r'

namespace Mirrors

theorem pure (a : α) : Mirrors n s closed (pure a) (pure a) := by
  intro q r b q' h hrun
  cases hrun
  exact ⟨r, rfl, h⟩

theorem throw (f : Fault) (y : Resolve α) : Mirrors n s closed (throw f) y := by
  intro q r b q' _ hrun
  cases hrun

/-- One step after another succeeds beside the section if both do. -/
theorem bind {x y : Resolve α} {f g : α → Resolve β} (h : Mirrors n s closed x y)
    (hf : ∀ a, Mirrors n s closed (f a) (g a)) : Mirrors n s closed (x >>= f) (y >>= g) := by
  intro q r b q' hbeside hrun
  obtain ⟨a, q₁, hx, hrest⟩ := bind_eq_ok.mp hrun
  obtain ⟨r₁, hy, hbeside₁⟩ := h q r a q₁ hbeside hx
  obtain ⟨r₂, hg, hbeside₂⟩ := hf a q₁ r₁ b q' hbeside₁ hrest
  exact ⟨r₂, by rw [bind_of_ok hy, hg], hbeside₂⟩

theorem changeDocument {f : Document → Document} (h : ∀ q r, Beside n s closed q r →
    Beside n s closed { q with document := f q.document } { r with document := f r.document }) :
    Mirrors n s closed (changeDocument f) (changeDocument f) := by
  intro q r a q' hbeside hrun
  cases hrun
  exact ⟨_, rfl, h q r hbeside⟩

theorem changeProgress {f : Progress → Progress}
    (h : ∀ q r, Beside n s closed q r → Beside n s closed (f q) (f r)) :
    Mirrors n s closed (modify f : Resolve Unit) (modify f) := by
  intro q r a q' hbeside hrun
  cases hrun
  exact ⟨_, rfl, h q r hbeside⟩

/-- **A loop succeeds beside the section if each of its steps does.** -/
theorem forM {as : List α} {f g : α → Resolve Unit} (h : ∀ a ∈ as, Mirrors n s closed (f a) (g a)) :
    Mirrors n s closed (as.forM f) (as.forM g) := by
  induction as with
  | nil => exact .pure ()
  | cons a as ih =>
    exact (h a List.mem_cons_self).bind fun _ => ih fun b hb => h b (List.mem_cons_of_mem _ hb)

end Mirrors

/-! ## Values -/

section Values

variable {lookup lookup' : Reference → Span → Resolve Value}

/-- **Items are resolved beside the section as without it**, if each one is. -/
theorem mirrors_items {vs : List Value}
    (h : ∀ v ∈ vs, Mirrors n s closed (v.resolve lookup) (v.resolve lookup')) :
    Mirrors n s closed (Value.resolveItems lookup vs) (Value.resolveItems lookup' vs) := by
  induction vs with
  | nil => exact .pure []
  | cons v vs ih =>
    refine (h v List.mem_cons_self).bind fun w => ?_
    exact (ih fun u hu => h u (List.mem_cons_of_mem _ hu)).bind fun ws => .pure _

/-- Fields are resolved beside the section as without it, if each value is. -/
theorem mirrors_fields {fs : Entries Value}
    (h : ∀ e ∈ fs, Mirrors n s closed (e.2.resolve lookup) (e.2.resolve lookup')) :
    Mirrors n s closed (Value.resolveFields lookup fs) (Value.resolveFields lookup' fs) := by
  induction fs with
  | nil => exact .pure []
  | cons e fs ih =>
    refine (h e List.mem_cons_self).bind fun w => ?_
    exact (ih fun f hf => h f (List.mem_cons_of_mem _ hf)).bind fun gs => .pure _

theorem mirrors_option {o : Option Value}
    (h : ∀ v ∈ o, Mirrors n s closed (v.resolve lookup) (v.resolve lookup')) :
    Mirrors n s closed (Value.resolveOption lookup o) (Value.resolveOption lookup' o) := by
  cases o with
  | none => exact .pure none
  | some v => exact (h v rfl).bind fun w => .pure _

variable (hlookup : ∀ r span, Mirrors n s closed (lookup r span) (lookup' r span))

include hlookup

/-- Values are resolved alike, if references are. -/
theorem mirrors_resolve (v : Value) : Mirrors n s closed (v.resolve lookup) (v.resolve lookup') := by
  induction v using Value.induction with
  | atom a span =>
    cases a with
    | reference r => exact hlookup r span
    | _ => exact .pure _
  | sequence kind items span ih => exact (mirrors_items ih).bind fun _ => .pure _
  | record kind fields span ih => exact (mirrors_fields ih).bind fun _ => .pure _
  | binary l op r span ihl ihr =>
    refine ihl.bind fun l' => ihr.bind fun r' => ?_
    cases l'.combine op r' span with
    | ok w => exact .pure w
    | error f => exact .throw f _
  | neg v span ih =>
    refine ih.bind fun w => ?_
    cases w.opposite span with
    | ok w => exact .pure w
    | error f => exact .throw f _
  | rule marks fallback lower upper span ihf ihl ihu =>
    exact (mirrors_option ihf).bind fun _ => (mirrors_option ihl).bind fun _ =>
      (mirrors_option ihu).bind fun _ => .pure _

/-- The properties of a section are resolved as without the section beside it. -/
theorem mirrors_table (t : Table Value) :
    Mirrors n s closed (resolveTable lookup t) (resolveTable lookup' t) :=
  (mirrors_fields fun e _ => mirrors_resolve hlookup e.2).bind fun _ => .pure _

/-- The rules of all schemas are resolved as without the section beside them. -/
theorem mirrors_schemas (es : Entries Section) :
    Mirrors n s closed (resolveSchemas lookup es) (resolveSchemas lookup' es) := by
  induction es with
  | nil => exact .pure []
  | cons e es ih =>
    have hschema : Mirrors n s closed (resolveSchema lookup e.2) (resolveSchema lookup' e.2) :=
      (mirrors_table hlookup e.2.properties).bind fun _ => .pure _
    exact hschema.bind fun _ => ih.bind fun _ => .pure _

end Values

/-! ## Sections and macros -/

/-- The idle names with one section more. -/
def Idle.beside (i : Idle) (n : String) : Idle := { i with sections := i.sections ++ [n] }

/-- A section that is idle is another one than the new section, so either may be opened first. -/
theorem Idle.openSection_beside {i : Idle} (h : name ∈ i.sections) :
    (i.beside n).openSection name = (i.openSection name).beside n := by
  unfold beside openSection
  rw [List.erase_append_left _ h]

/-- What is idle is idle beside the section as well. -/
theorem Idle.mem_beside {i : Idle} (h : name ∈ i.sections) : name ∈ (i.beside n).sections :=
  List.mem_append_left _ h

section Steps

variable {p : Providers} {i : Idle}

/-- Sections are resolved alike. -/
def SectionMirrors (n : String) (s : Section) (closed : Prop) (p : Providers) (i : Idle) : Prop :=
  ∀ name, Mirrors n s closed (resolveSection p i name) (resolveSection p (i.beside n) name)

/-- Macros are resolved alike. -/
def MacroMirrors (n : String) (s : Section) (closed : Prop) (p : Providers) (i : Idle) : Prop :=
  ∀ name span,
    Mirrors n s closed (resolveMacro p i name span) (resolveMacro p (i.beside n) name span)

/-- References are resolved alike. -/
def ReferenceMirrors (n : String) (s : Section) (closed : Prop) (p : Providers) (i : Idle) : Prop :=
  ∀ r span,
    Mirrors n s closed (resolveReference p i r span) (resolveReference p (i.beside n) r span)

/-- A parent is adopted beside the section as without it. -/
theorem mirrors_adoptParent (h : SectionMirrors n s closed p i) (hname : name ≠ n) (span : Span)
    (parent : String) :
    Mirrors n s closed (adoptParent p i name span parent) (adoptParent p (i.beside n) name span parent) := by
  intro q r a q' hbeside hrun
  cases hcontains : q.document.sections.contains parent with
  | false =>
    rw [adoptParent_of_missing hcontains] at hrun
    cases hrun
  | true =>
    have hparent : parent ≠ n := by
      rintro rfl
      rw [Table.contains, hbeside.fresh] at hcontains
      cases hcontains
    rw [adoptParent_of_declared hcontains] at hrun
    rw [adoptParent_of_declared ((hbeside.contains_eq hparent).trans hcontains)]
    have hinherit : Mirrors n s closed (changeDocument (·.inherit name parent))
        (changeDocument (·.inherit name parent)) :=
      .changeDocument fun q r h => h.inherit hname hparent
    exact ((h parent).bind fun _ => hinherit) q r a q' hbeside hrun

/-- The contents of another section are taken out as they are. -/
theorem mirrors_takeContents (hname : name ≠ n) :
    Mirrors n s closed (takeContents name) (takeContents name) := by
  intro q r a q' hbeside hrun
  have hsame := hbeside.others name hname
  cases ht : q.document.sections.get? name with
  | none =>
    rw [takeContents, get_bind, ht] at hrun
    cases hrun
    exact ⟨r, by rw [takeContents, get_bind, hsame, ht]; rfl, hbeside⟩
  | some t =>
    rw [takeContents_of_declared ht] at hrun
    cases hrun
    exact ⟨_, takeContents_of_declared (hsame.trans ht), hbeside.alter hname _⟩

/-- The contents of another section are resolved as without the section beside it. -/
theorem mirrors_resolveContents (h : ReferenceMirrors n s closed p i) (hname : name ≠ n) :
    Mirrors n s closed (resolveContents p i name) (resolveContents p (i.beside n) name) := by
  refine (mirrors_takeContents hname).bind ?_
  rintro ⟨properties, registry⟩
  refine (mirrors_table h properties).bind fun properties' => ?_
  refine (mirrors_items fun v _ => mirrors_resolve h v).bind fun registry' => ?_
  have hput : Mirrors n s closed (putContents name properties' registry')
      (putContents name properties' registry') :=
    .changeDocument fun q r hbeside => hbeside.alter hname _
  exact hput.bind fun _ => .changeProgress fun q r hbeside => hbeside.done hname

/-- **A section is resolved as without the section beside it**, if the calls that go deeper are. -/
theorem sectionMirrors
    (hsection : ∀ name ∈ i.sections, SectionMirrors n s closed p (i.openSection name))
    (hreference : ∀ name ∈ i.sections, ReferenceMirrors n s closed p (i.openSection name)) :
    SectionMirrors n s closed p i := by
  intro name q r a q' hbeside hrun
  by_cases hdone : name ∈ q.doneSections
  · have hname : name ≠ n := by
      -- what is done without the section beside it cannot be that section
      rintro rfl
      exact hbeside.waits hdone
    rw [resolveSection_of_done hdone] at hrun
    cases hrun
    exact ⟨r, resolveSection_of_done ((hbeside.doneOthers name hname).mpr hdone), hbeside⟩
  cases ht : q.document.sections.get? name with
  | none =>
    rw [resolveSection_of_missing hdone ht] at hrun
    cases hrun
  | some t =>
    -- it is another section, found in the same form and idle in both runs
    have hname := hbeside.ne_of_found ht
    have hdone' : name ∉ r.doneSections := fun hmem => hdone ((hbeside.doneOthers name hname).mp hmem)
    have ht' := (hbeside.others name hname).trans ht
    by_cases hidle : name ∈ i.sections
    · rw [resolveSection_of_idle hdone ht hidle] at hrun
      rw [resolveSection_of_idle hdone' ht' (Idle.mem_beside hidle), Idle.openSection_beside hidle]
      have hparents : Mirrors n s closed
          (t.parents.forM (adoptParent p (i.openSection name) name t.span))
          (t.parents.forM (adoptParent p ((i.openSection name).beside n) name t.span)) :=
        .forM fun parent _ => mirrors_adoptParent (hsection name hidle) hname t.span parent
      exact (hparents.bind fun _ => mirrors_resolveContents (hreference name hidle) hname)
        q r a q' hbeside hrun
    · rw [resolveSection_of_open hdone ht hidle] at hrun
      cases hrun

/-- **A macro is resolved as without the section beside it**, if what it refers to is: the new section is
    not `[#define]`, so nothing is noted in it. -/
theorem macroMirrors (hn : n ≠ defineName)
    (h : ∀ name ∈ i.macros, ReferenceMirrors n s closed p (i.openMacro name)) :
    MacroMirrors n s closed p i := by
  intro name span q r a q' hbeside hrun
  have hsame : r.document.macros.get? name = q.document.macros.get? name := by rw [hbeside.macros]
  cases hv : q.document.macros.get? name with
  | none =>
    rw [resolveMacro_of_missing hv] at hrun
    cases hrun
  | some v =>
    have hv' := hsame.trans hv
    by_cases hdone : name ∈ q.doneMacros
    · rw [resolveMacro_of_done hv hdone] at hrun
      cases hrun
      exact ⟨r, resolveMacro_of_done hv' (by rwa [hbeside.doneMacros]), hbeside⟩
    have hdone' : name ∉ r.doneMacros := by rwa [hbeside.doneMacros]
    by_cases hidle : name ∈ i.macros
    · rw [resolveMacro_of_idle hv hdone hidle] at hrun
      rw [resolveMacro_of_idle hv' hdone' (i := i.beside n) hidle]
      have hnote : ∀ w : Value, Mirrors n s closed (modify (·.note name w) : Resolve Unit)
          (modify (·.note name w)) := fun w =>
        .changeProgress fun q r h => h.note hn name w
      exact ((mirrors_resolve (h name hidle) v).bind fun w => (hnote w).bind fun _ => .pure _)
        q r a q' hbeside hrun
    · rw [resolveMacro_of_open hv hdone hidle] at hrun
      cases hrun

/-- A property of another section is read as it is. -/
theorem mirrors_readProperty (hname : name ≠ n) (key target : String) (span : Span) :
    Mirrors n s closed (readProperty name key target span) (readProperty name key target span) := by
  intro q r a q' hbeside hrun
  rw [readProperty, get_bind] at hrun ⊢
  rw [hbeside.get?_eq hname]
  cases hv : q.document.get? name key with
  | none =>
    rw [hv] at hrun
    cases hrun
  | some v =>
    rw [hv] at hrun
    cases hrun
    exact ⟨r, rfl, hbeside⟩

/-- **A reference is looked up as without the section beside it**, if sections and macros are resolved so. -/
theorem referenceMirrors (hsection : SectionMirrors n s closed p i)
    (hmacros : MacroMirrors n s closed p i) : ReferenceMirrors n s closed p i := by
  rintro ⟨kind, target⟩ span
  cases kind with
  | localization =>
    rw [resolveReference_localization, resolveReference_localization]
    exact .pure _
  | environment =>
    rw [resolveReference_environment, resolveReference_environment]
    cases p.environment target span with
    | ok v => exact .pure v
    | error f => exact .throw f _
  | macroName =>
    rw [resolveReference_macroName, resolveReference_macroName]
    exact hmacros target span
  | crossSection =>
    intro q r a q' hbeside hrun
    cases hkey : Reference.sectionKey? ⟨.crossSection, target⟩ with
    | none =>
      rw [resolveReference_of_badTarget hkey] at hrun
      cases hrun
    | some e =>
      obtain ⟨name, key⟩ := e
      cases hcontains : q.document.sections.contains name with
      | false =>
        rw [resolveReference_of_missing hkey hcontains] at hrun
        cases hrun
      | true =>
        -- a target in the new section would not be found without it
        have hname : name ≠ n := by
          rintro rfl
          rw [Table.contains, hbeside.fresh] at hcontains
          cases hcontains
        by_cases hidle : name ∈ i.sections
        · rw [resolveReference_of_idle hkey hcontains hidle] at hrun
          rw [resolveReference_of_idle hkey ((hbeside.contains_eq hname).trans hcontains)
            (Idle.mem_beside hidle)]
          exact ((hsection name).bind fun _ => mirrors_readProperty hname key target span)
            q r a q' hbeside hrun
        · rw [resolveReference_of_open hkey hcontains hidle] at hrun
          cases hrun

end Steps

/-- **Every call of the resolver does the same beside one more section.** -/
theorem mirrors_all (hn : n ≠ defineName) (p : Providers) (i : Idle) :
    SectionMirrors n s closed p i ∧ MacroMirrors n s closed p i ∧ ReferenceMirrors n s closed p i := by
  induction i using Idle.induction with
  | step i ihs ihm =>
    have hsection : SectionMirrors n s closed p i :=
      sectionMirrors (fun name hname => (ihs name hname).1) fun name hname => (ihs name hname).2.2
    have hmacros : MacroMirrors n s closed p i := macroMirrors hn fun name hname => (ihm name hname).2.2
    exact ⟨hsection, hmacros, referenceMirrors hsection hmacros⟩

/-! ## The new section -/

section Single

variable {p : Providers} {i : Idle} {q q' : Progress} {key : String} {v w : Value}

/-- When the new section is opened, those are idle that were idle without it. -/
theorem Idle.openSection_beside_self (h : n ∉ i.sections) : (i.beside n).openSection n = i := by
  unfold beside openSection
  rw [List.erase_append_right _ h, List.erase_cons_head, List.append_nil]

/-- A section of one property is resolved as the value of the property is. -/
theorem resolveTable_single {lookup : Reference → Span → Resolve Value}
    (h : v.resolve lookup q = .ok w q') :
    resolveTable lookup (.ofList [(key, v)]) q = .ok (.ofList [(key, w)]) q' := by
  have hfields : Value.resolveFields lookup [(key, v)] q = .ok [(key, w)] q' := by
    rw [Value.resolveFields, bind_of_ok h]
    rfl
  exact bind_of_ok hfields

variable (hs : q.document.sections.get? n = some s) (hparents : s.parents = [])
  (hproperties : s.properties = .ofList [(key, v)]) (hregistry : s.registry = [])
  (hwaits : n ∉ q.doneSections) (hidle : n ∉ i.sections)

include hs hparents hproperties hregistry hwaits hidle

/-- A section with one property and nothing else is resolved by resolving that property. -/
theorem resolveSection_single : resolveSection p (i.beside n) n q
    = (resolveTable (resolveReference p i) (.ofList [(key, v)]) >>= fun properties =>
        putContents n properties [] >>= fun _ =>
          modify fun q => { q with doneSections := n :: q.doneSections })
      (q.alter n ({ · with properties := ∅, registry := [] })) := by
  have hmem : n ∈ (i.beside n).sections := List.mem_append_right _ (List.mem_singleton_self n)
  have horphan : s.parents.forM (adoptParent p i n s.span) = pure () := by rw [hparents]; rfl
  rw [resolveSection_of_idle hwaits hs hmem, Idle.openSection_beside_self hidle, horphan, pure_bind,
    resolveContents, bind_of_ok (takeContents_of_declared hs), hproperties, hregistry]
  rfl

/-- **A section of one property without parents is resolved** if its value is. -/
theorem resolveSection_single_ok
    (h : v.resolve (resolveReference p i) (q.alter n ({ · with properties := ∅, registry := [] }))
      = .ok w q') : resolveSection p (i.beside n) n q = .ok () (q'.close n (.ofList [(key, w)]) []) := by
  rw [resolveSection_single hs hparents hproperties hregistry hwaits hidle,
    bind_of_ok (resolveTable_single h)]
  rfl

/-- **A section of one property without parents fails** if its value does. -/
theorem resolveSection_single_error {f : Fault}
    (h : v.resolve (resolveReference p i) (q.alter n ({ · with properties := ∅, registry := [] }))
      = .error f q') : resolveSection p (i.beside n) n q = .error f q' := by
  rw [resolveSection_single hs hparents hproperties hregistry hwaits hidle]
  refine bind_eq_error.mpr (.inl (bind_eq_error.mpr (.inl ?_)))
  exact bind_eq_error.mpr (.inl h)

end Single

/-! ## Documents -/

namespace Document

variable {p : Providers} {d r : Document}

/-- A section with a new name is put behind the others. -/
theorem insertSection_of_fresh (hfresh : d.sections.get? s.name = none) :
    d.insertSection s = { d with sections := d.sections.insert s.name s } := by
  unfold insertSection declare
  rw [hfresh]

theorem gatherMacros_insertSection (hfresh : d.sections.get? s.name = none)
    (hname : s.name ≠ defineName) : (d.insertSection s).gatherMacros = d.gatherMacros.insertSection s := by
  have hfresh' : d.gatherMacros.sections.get? s.name = none := by rwa [sections_gatherMacros]
  rw [insertSection_of_fresh hfresh, insertSection_of_fresh hfresh']
  simp only [gatherMacros, Table.get?_insert_of_ne _ hname]
  cases d.sections.get? defineName <;> rfl

/-- With the new section the run begins beside the run without it. -/
theorem beside_insertSection (hfresh : d.sections.get? s.name = none) :
    Beside s.name s False ⟨d, [], []⟩ ⟨d.insertSection s, [], []⟩ where
  fresh := hfresh
  waits := List.not_mem_nil
  here := by rw [insertSection_of_fresh hfresh]; exact Table.get?_insert_self _ _ _
  others m hm := by rw [insertSection_of_fresh hfresh]; exact Table.get?_insert_of_ne _ hm.symm _
  macros := rfl
  schemas := rfl
  doneHere := iff_of_false List.not_mem_nil not_false
  doneOthers _ _ := .rfl
  doneMacros := rfl

/-- Macros and sections of a document are resolved while more names are idle. -/
def resolveNodesWith (p : Providers) (d : Document) (i : Idle) : Resolve Unit := do
  d.macros.keys.forM fun name => do
    let _ ← resolveMacro p i name .none
  (d.sections.keys.filter (!Section.isSpecialName ·)).forM (resolveSection p i)

theorem keys_insertSection (hfresh : d.sections.get? s.name = none) :
    (d.insertSection s).sections.keys = d.sections.keys ++ [s.name] := by
  rw [insertSection_of_fresh hfresh]
  exact Entries.keys_insert_of_not_mem (Table.get?_eq_none_iff.mp hfresh)

/-- All is idle at the beginning, and the new section besides. -/
theorem all_insertSection (hfresh : d.sections.get? s.name = none) :
    Idle.all (d.insertSection s) = (Idle.all d).beside s.name := by
  rw [Idle.all, keys_insertSection hfresh]
  rfl

/-- The new section is resolved after all the others. -/
theorem resolveNodes_insertSection (hfresh : d.sections.get? s.name = none)
    (hname : Section.isSpecialName s.name = false) :
    Progress.resolveNodes p (d.insertSection s)
      = resolveNodesWith p d ((Idle.all d).beside s.name) >>= fun _ =>
        resolveSection p ((Idle.all d).beside s.name) s.name := by
  rw [Progress.resolveNodes, resolveNodesWith, all_insertSection hfresh, keys_insertSection hfresh,
    bind_assoc]
  rw [List.filter_append]
  simp [hname, insertSection]

/-- **The macros and sections of a document are resolved as without the section beside them.** -/
theorem mirrors_resolveNodes (p : Providers) (d : Document) (hn : n ≠ defineName) :
    Mirrors n s closed (Progress.resolveNodes p d) (resolveNodesWith p d ((Idle.all d).beside n)) := by
  have hall : SectionMirrors n s closed p (.all d) ∧ MacroMirrors n s closed p (.all d) ∧
      ReferenceMirrors n s closed p (.all d) := mirrors_all hn p (.all d)
  refine (Mirrors.forM fun name _ => ?_).bind fun _ => .forM fun name _ => hall.1 name
  exact (hall.2.1 name .none).bind fun _ => .pure ()

open Progress

/-- In the state `q` all macros and all sections without a special name are done, and they are as in the
    resolved document `r`. -/
structure Finished (d r : Document) (q : Progress) : Prop where
  macroDone : ∀ m v, q.document.macros.get? m = some v → m ∈ q.doneMacros
  macroValue : ∀ m, q.document.macros.get? m = r.macros.get? m
  sectionDone : ∀ m, Section.isSpecialName m = false → q.document.sections.contains m →
    m ∈ q.doneSections ∧ m ∈ d.sections.keys
  property : ∀ m, Section.isSpecialName m = false → ∀ k, q.document.get? m k = r.get? m k

/-- What the rules of schemas find is what the resolved document holds. -/
theorem finished_of_phases (hd : d.Gathered) {q q' : Progress} {fs : Entries Section}
    (hnodes : resolveNodes p d ⟨d, [], []⟩ = .ok () q)
    (hrules : resolveSchemas (resolveReference p (.all d)) q.document.schemas.entries
      (q.withSchemas ∅) = .ok fs q') : Finished d q'.document q := by
  have hmeets := meets_resolveNodes hd p
  unfold Meets at hmeets
  rw [hnodes] at hmeets
  obtain ⟨hsound, hadvance, hmacros, hsections⟩ := hmeets
  have hmeets := meets_rules hd p _ (hsound.withSchemas ∅)
  unfold Meets at hmeets
  rw [hadvance.schemas] at hrules
  rw [hrules] at hmeets
  obtain ⟨hsound', hadvance', -⟩ := hmeets
  have hkeeps : Keeps d q q' := (Keeps.withSchemas ∅).trans hadvance'.keeps
  have hdone : ∀ m v, q.document.macros.get? m = some v → m ∈ q.doneMacros := by
    intro m v hv
    have hdeclared := hsound.isSome_macro m
    rw [hv] at hdeclared
    exact hmacros m (Table.contains_iff.mp hdeclared.symm)
  have hsection : ∀ m, Section.isSpecialName m = false → q.document.sections.contains m →
      m ∈ q.doneSections ∧ m ∈ d.sections.keys := by
    intro m hm hcontains
    obtain ⟨t, ht⟩ := Option.isSome_iff_exists.mp hcontains
    obtain ⟨s, hs, -⟩ := hsound.declared_section ht
    have hmem : m ∈ d.sections.keys := Table.contains_iff.mp (by rw [Table.contains, hs]; rfl)
    exact ⟨hsections m hmem hm, hmem⟩
  refine ⟨hdone, fun m => ?_, hsection, fun m hm k => ?_⟩
  · cases hv : q.document.macros.get? m with
    | some v => rw [hkeeps.macroValue m (hdone m v hv), hv]
    | none =>
      -- neither state has a macro that was not declared
      have hnone := (hsound'.isSome_macro m).trans (hsound.isSome_macro m).symm
      rw [hv, Option.isSome_none, Option.isSome_eq_false_iff, Option.isNone_iff_eq_none] at hnone
      exact hnone.symm
  · cases hcontains : q.document.sections.contains m with
    | true =>
      have hdefine : m = defineName → d.contested k = false := by
        rintro rfl
        cases hm
      rw [hkeeps.value m (hsection m hm hcontains).1 k hdefine]
    | false =>
      -- nor has it a section that was not declared
      have hnone : q.document.sections.get? m = none := by simpa [Table.contains] using hcontains
      have hheading := (hsound'.headings m).trans (hsound.headings m).symm
      rw [hnone] at hheading
      rw [get?, get?, hnone, Option.map_eq_none_iff.mp hheading]

/-- **Resolving a document with one more section.**  The new section is resolved when all others are
    finished.  If its property can be resolved then, so can the whole, and nothing else is different;
    and if it cannot, neither can the whole. -/
theorem resolve_insertSection (h : d.resolve p = .ok r) (hfresh : d.sections.get? s.name = none)
    (hname : Section.isSpecialName s.name = false) (hparents : s.parents = []) {key : String} {v : Value}
    (hproperties : s.properties = .ofList [(key, v)]) (hregistry : s.registry = []) :
    ∃ q qs t, Finished d.gatherMacros r q ∧ Beside s.name t False q qs ∧
      (∀ w, v.resolve (resolveReference p (.all d.gatherMacros)) qs = .ok w qs →
        ∃ r', (d.insertSection s).resolve p = .ok r' ∧ r'.get? s.name key = some w ∧
          (∀ m, m ≠ s.name → r'.sections.get? m = r.sections.get? m) ∧ r'.macros = r.macros ∧
            r'.schemas = r.schemas) ∧
      ∀ f q', v.resolve (resolveReference p (.all d.gatherMacros)) qs = .error f q' →
        ∀ r', (d.insertSection s).resolve p ≠ .ok r' := by
  have hdefine : s.name ≠ defineName := by
    intro heq
    rw [heq] at hname
    cases hname
  obtain ⟨q, fs, q', hnodes, hrules, rfl⟩ := resolve_phases.mp h
  have hfinished := finished_of_phases d.gathered_gatherMacros hnodes hrules
  have hfresh' : d.gatherMacros.sections.get? s.name = none := by rwa [sections_gatherMacros]
  obtain ⟨q₁, hnodes₁, hbeside⟩ := mirrors_resolveNodes p d.gatherMacros hdefine _ _ _ _
    (beside_insertSection hfresh') hnodes
  have hwaits : s.name ∉ q₁.doneSections := fun hmem => hbeside.doneHere.mp hmem
  have hidle : s.name ∉ (Idle.all d.gatherMacros).sections := Table.get?_eq_none_iff.mp hfresh'
  refine ⟨q, q₁.alter s.name ({ · with properties := ∅, registry := [] }), _,
    ⟨hfinished.macroDone, hfinished.macroValue, hfinished.sectionDone, hfinished.property⟩,
    hbeside.alter_here _, fun w hw => ?_, fun f q₂ hf r' hr => ?_⟩
  · -- the new section is the last of the nodes; it has no parents, so only its value is resolved
    have hsection := resolveSection_single_ok hbeside.here hparents hproperties hregistry hwaits hidle hw
    have hclosed := (hbeside.alter_here ({ · with properties := ∅, registry := [] })).close
      (.ofList [(key, w)]) []
    obtain ⟨q₂, hrules₂, hbeside₂⟩ := mirrors_schemas
      (mirrors_all hdefine p (.all d.gatherMacros)).2.2 _ _ _ _ _ (hclosed.withSchemas ∅) hrules
    rw [← hclosed.schemas, ← all_insertSection hfresh', ← gatherMacros_insertSection hfresh hdefine]
      at hrules₂
    -- the run of all nodes is the run of the old ones, and then that of the new one
    have hnodes₂ : resolveNodes p (d.insertSection s).gatherMacros
        ⟨(d.insertSection s).gatherMacros, [], []⟩
          = .ok () ((q₁.alter s.name ({ · with properties := ∅, registry := [] })).close s.name
            (.ofList [(key, w)]) []) := by
      rw [gatherMacros_insertSection hfresh hdefine, resolveNodes_insertSection hfresh' hname,
        bind_of_ok hnodes₁]
      exact hsection
    have hfilled := hbeside₂.withSchemas (.ofList fs)
    refine ⟨_, resolve_phases.mpr ⟨_, fs, q₂, hnodes₂, hrules₂, rfl⟩, ?_, hfilled.others,
      hfilled.macros, hfilled.schemas⟩
    rw [get?, hfilled.here]
    exact Entries.get?_insert_self [] key w
  · obtain ⟨_, fs, _, hnodes₂, -, -⟩ := resolve_phases.mp hr
    rw [gatherMacros_insertSection hfresh hdefine, resolveNodes_insertSection hfresh' hname,
      bind_of_ok hnodes₁,
      resolveSection_single_error hbeside.here hparents hproperties hregistry hwaits hidle hf] at hnodes₂
    cases hnodes₂

end Document

end Yini
