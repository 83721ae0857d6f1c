import Yini.Proofs.Resolve.Whole

/-!
Resolving keeps values well-formed.

A record is resolved field by field and keeps the names of its fields, what an operation gives is an
atom, and everything else that resolving puts somewhere stood somewhere else before.  So in a document
whose records hold no name twice (`Document.WellFormed`), they do not afterwards (`WellFormed.resolve`).
-/

namespace Yini

variable {α β : Type}

/-- No record in the section holds a name twice. -/
def Section.WellFormed (s : Section) : Prop := ∀ v ∈ s.contents, v.wellFormed

/-- No record in the document holds a name twice. -/
structure Document.WellFormed (d : Document) : Prop where
  sections : ∀ n s, d.sections.get? n = some s → s.WellFormed
  schemas : ∀ n s, d.schemas.get? n = some s → s.WellFormed
  macros : ∀ k v, d.macros.get? k = some v → v.wellFormed

namespace Value

theorem wellFormed_withSpan (v : Value) (span : Span) : (v.withSpan span).wellFormed = v.wellFormed := by
  cases v <;> rfl

/-- A record is well-formed if it holds no name twice and its values are well-formed. -/
theorem wellFormed_record_iff {k : RecordKind} {fields : Entries Value} {s : Span} :
    (record k fields s).wellFormed ↔ fields.keys.Nodup ∧ ∀ e ∈ fields, e.2.wellFormed := by
  simp only [wellFormed, Bool.and_eq_true, decide_eq_true_eq, allFieldsWellFormed_iff]

/-- A rule is well-formed if its default and its bounds are. -/
theorem wellFormed_rule_iff {m : RuleMarks} {d lo hi : Option Value} {s : Span} :
    (rule m d lo hi s).wellFormed ↔
      (∀ v ∈ d, v.wellFormed) ∧ (∀ v ∈ lo, v.wellFormed) ∧ ∀ v ∈ hi, v.wellFormed := by
  simp only [wellFormed, Bool.and_eq_true, optionWellFormed_iff, and_assoc]

end Value

/-! ## Sections -/

namespace Section

variable {s : Section}

/-- A section is well-formed if its properties and the entries of its registry are. -/
theorem wellFormed_iff : s.WellFormed ↔
    (∀ k v, s.properties.get? k = some v → v.wellFormed) ∧ ∀ v ∈ s.registry, v.wellFormed := by
  simp only [WellFormed, contents, List.mem_append, or_imp, forall_and, Table.mem_values_iff]
  exact and_congr_left' ⟨fun h k v hv => h v ⟨k, hv⟩, fun h v ⟨k, hv⟩ => h k v hv⟩

/-- The properties of a well-formed section are well-formed. -/
theorem WellFormed.property (h : s.WellFormed) {k : String} {v : Value}
    (hv : s.properties.get? k = some v) : v.wellFormed := (wellFormed_iff.mp h).1 k v hv

/-- A section stays well-formed when it adopts well-formed properties. -/
theorem WellFormed.adopt (h : s.WellFormed) {t : Table Value}
    (ht : ∀ k v, t.get? k = some v → v.wellFormed) : (s.adopt t).WellFormed := by
  refine wellFormed_iff.mpr ⟨fun k v hv => ?_, (wellFormed_iff.mp h).2⟩
  rw [get?_adopt, Option.or_eq_some_iff] at hv
  exact hv.elim h.property fun hv => ht k v hv.2

/-- A section stays well-formed when a macro is noted in it. -/
theorem WellFormed.note (h : s.WellFormed) {name : String} {v : Value} (hv : v.wellFormed) :
    (s.note name v).WellFormed := by
  refine wellFormed_iff.mpr ⟨fun k w hw => ?_, fun w hw => ?_⟩
  · by_cases hk : name = k
    · subst hk
      rw [get?_note_self] at hw
      obtain ⟨-, -, rfl⟩ := Option.map_eq_some_iff.mp hw
      exact hv
    · rw [get?_note_of_ne hk] at hw
      exact h.property hw
  · rw [registry_note] at hw
    exact (wellFormed_iff.mp h).2 w hw

end Section

/-! ## Documents -/

namespace Document.WellFormed

variable {d : Document}

/-- What is read from a well-formed document is well-formed. -/
theorem get? (h : d.WellFormed) {n k : String} {v : Value} (hv : d.get? n k = some v) :
    v.wellFormed := by
  obtain ⟨s, hs, hget⟩ := Option.bind_eq_some_iff.mp hv
  exact (h.sections n s hs).property hget

/-- Changing one section. -/
theorem modify (h : d.WellFormed) {name : String} {f : Section → Section}
    (hf : ∀ s, s.WellFormed → (f s).WellFormed) :
    WellFormed { d with sections := d.sections.modify name f } := by
  refine ⟨fun n t ht => ?_, h.schemas, h.macros⟩
  by_cases hn : name = n
  · subst hn
    rw [Table.get?_modify_self] at ht
    obtain ⟨s, hs, rfl⟩ := Option.map_eq_some_iff.mp ht
    exact hf s (h.sections _ s hs)
  · rw [Table.get?_modify_of_ne _ hn] at ht
    exact h.sections n t ht

/-- A document stays well-formed when a section adopts the properties of another one. -/
theorem inherit (h : d.WellFormed) (child parent : String) : (d.inherit child parent).WellFormed := by
  cases hparent : d.sections.get? parent with
  | none =>
    rw [Document.inherit, hparent]
    exact h
  | some p =>
    rw [inherit_eq hparent]
    exact h.modify fun _ hs => hs.adopt fun _ _ hv => (h.sections parent p hparent).property hv

theorem putMacro (h : d.WellFormed) (name : String) {v : Value} (hv : v.wellFormed) :
    (d.putMacro name v).WellFormed := by
  have hsections : WellFormed { d with sections := d.sections.modify defineName (Section.note name v) } :=
    h.modify fun _ hs => hs.note hv
  refine ⟨hsections.sections, h.schemas, fun k w hw => ?_⟩
  change (d.macros.insert name v).get? k = some w at hw
  by_cases hk : name = k
  · subst hk
    rw [Table.get?_insert_self] at hw
    cases hw
    exact hv
  · rw [Table.get?_insert_of_ne _ hk] at hw
    exact h.macros k w hw

theorem gatherMacros (h : d.WellFormed) : d.gatherMacros.WellFormed := by
  refine ⟨?_, ?_, fun k v hv => ?_⟩
  · rw [sections_gatherMacros]
    exact h.sections
  · rw [schemas_gatherMacros]
    exact h.schemas
  · rw [get?_macros_gatherMacros, Option.or_eq_some_iff] at hv
    exact hv.elim h.get? fun hv => h.macros k v hv.2

theorem withSchemas (h : d.WellFormed) {es : Entries Section} (hes : ∀ e ∈ es, e.2.WellFormed) :
    WellFormed { d with schemas := .ofList es } := by
  refine ⟨h.sections, fun n s hs => ?_, h.macros⟩
  have hall : ∀ e ∈ (Table.ofList es).entries, e.2.WellFormed :=
    Entries.forall_mem_insertAll hes nofun
  exact hall _ (Table.mem_entries_iff.mpr hs)

end Document.WellFormed

/-! ## Steps -/

/-- The step leaves a well-formed document, and `post` is true of what it gives. -/
def StaysWell (x : Resolve α) (post : α → Prop) : Prop :=
  ∀ q a q', q.document.WellFormed → x q = .ok a q' → q'.document.WellFormed ∧ post a

namespace StaysWell

variable {lookup : Reference → Span → Resolve Value} {p : Providers} {i : Idle} {name : String}

theorem pure {post : α → Prop} {a : α} (h : post a) : StaysWell (pure a) post := by
  intro q b q' hq hrun
  cases hrun
  exact ⟨hq, h⟩

theorem throw {post : α → Prop} {f : Fault} : StaysWell (throw f) post := nofun

/-- One step after another leaves a well-formed document, if the second may start from what the first gives.
    -/
theorem bind {x : Resolve α} {f : α → Resolve β} {post : α → Prop} {post' : β → Prop}
    (hx : StaysWell x post) (hf : ∀ a, post a → StaysWell (f a) post') : StaysWell (x >>= f) post' := by
  intro q b q' hq hrun
  obtain ⟨a, q₁, hrun₁, hrun₂⟩ := bind_eq_ok.mp hrun
  obtain ⟨hq₁, ha⟩ := hx q a q₁ hq hrun₁
  exact hf a ha q₁ b q' hq₁ hrun₂

theorem changeDocument {f : Document → Document} (h : ∀ d, d.WellFormed → (f d).WellFormed) :
    StaysWell (changeDocument f) fun _ => True := by
  intro q a q' hq hrun
  cases hrun
  exact ⟨h _ hq, trivial⟩

/-- **A loop leaves a well-formed document if each of its steps does.** -/
theorem forM {as : List α} {step : α → Resolve Unit}
    (h : ∀ a ∈ as, StaysWell (step a) fun _ => True) : StaysWell (as.forM step) fun _ => True := by
  induction as with
  | nil => exact .pure trivial
  | cons a as ih =>
    exact (h a List.mem_cons_self).bind fun _ _ => ih fun b hb => h b (List.mem_cons_of_mem _ hb)

/-! ## Values -/

/-- **Items are resolved to well-formed ones if each is.**  The document stays well-formed from one to the
    next. -/
theorem items {vs : List Value}
    (h : ∀ v ∈ vs, StaysWell (v.resolve lookup) fun w => w.wellFormed) :
    StaysWell (Value.resolveItems lookup vs) fun ws => ∀ w ∈ ws, w.wellFormed := by
  induction vs with
  | nil => exact .pure nofun
  | cons v vs ih =>
    refine (h v List.mem_cons_self).bind fun w hw => ?_
    refine (ih fun u hu => h u (List.mem_cons_of_mem _ hu)).bind fun ws hws => ?_
    exact .pure (List.forall_mem_cons.mpr ⟨hw, hws⟩)

/-- Fields keep their names. -/
theorem fields {fs : Entries Value}
    (h : ∀ e ∈ fs, StaysWell (e.2.resolve lookup) fun w => w.wellFormed) :
    StaysWell (Value.resolveFields lookup fs) fun gs => Entries.keys gs = fs.keys ∧
      ∀ e ∈ gs, e.2.wellFormed := by
  induction fs with
  | nil => exact .pure ⟨rfl, nofun⟩
  | cons e fs ih =>
    refine (h e List.mem_cons_self).bind fun w hw => ?_
    refine (ih fun f hf => h f (List.mem_cons_of_mem _ hf)).bind fun gs hgs => ?_
    refine .pure ⟨?_, List.forall_mem_cons.mpr ⟨hw, hgs.2⟩⟩
    rw [Entries.keys_cons, Entries.keys_cons, hgs.1]

theorem option {o : Option Value}
    (h : ∀ v ∈ o, StaysWell (v.resolve lookup) fun w => w.wellFormed) :
    StaysWell (Value.resolveOption lookup o) fun o' => ∀ v ∈ o', v.wellFormed := by
  cases o with
  | none => exact .pure nofun
  | some v =>
    refine (h v rfl).bind fun w hw => .pure fun u hu => ?_
    cases hu
    exact hw

/-- References are resolved to well-formed values. -/
def References (lookup : Reference → Span → Resolve Value) : Prop :=
  ∀ r span, StaysWell (lookup r span) fun v => v.wellFormed

/-- **A well-formed value is resolved to one.** -/
theorem value (hlookup : References lookup) (v : Value) (h : v.wellFormed) :
    StaysWell (v.resolve lookup) fun w => w.wellFormed := by
  induction v using Value.induction with
  | atom a span =>
    cases a with
    | reference r => exact hlookup r span
    | _ => exact .pure rfl
  | sequence kind vs span ih =>
    rw [Value.wellFormed, Value.allWellFormed_iff] at h
    refine (items fun v hv => ih v hv (h v hv)).bind fun ws hws => .pure ?_
    rwa [Value.wellFormed, Value.allWellFormed_iff]
  | record kind fs span ih =>
    rw [Value.wellFormed_record_iff] at h
    refine (fields fun e he => ih e he (h.2 e he)).bind fun gs hgs => .pure ?_
    rw [Value.wellFormed_record_iff, hgs.1]
    exact ⟨h.1, hgs.2⟩
  | binary l op r span ihl ihr =>
    rw [Value.wellFormed, Bool.and_eq_true] at h
    -- the result of an operation is an atom
    refine (ihl h.1).bind fun v _ => (ihr h.2).bind fun w _ => ?_
    split
    next hop =>
      obtain ⟨a, -, rfl⟩ := Value.combine_eq_ok hop
      exact .pure rfl
    next => exact .throw
  | neg v span ih =>
    refine (ih h).bind fun v _ => ?_
    split
    next hop =>
      obtain ⟨a, -, rfl⟩ := Value.opposite_eq_ok hop
      exact .pure rfl
    next => exact .throw
  | rule m d lo hi span ihd ihlo ihhi =>
    obtain ⟨hd, hlo, hhi⟩ := Value.wellFormed_rule_iff.mp h
    refine (option fun v hv => ihd v hv (hd v hv)).bind fun d' hd' => ?_
    refine (option fun v hv => ihlo v hv (hlo v hv)).bind fun lo' hlo' => ?_
    refine (option fun v hv => ihhi v hv (hhi v hv)).bind fun hi' hhi' => .pure ?_
    exact Value.wellFormed_rule_iff.mpr ⟨hd', hlo', hhi'⟩

/-- The properties of a section are resolved to well-formed ones. -/
theorem table (hlookup : References lookup) {t : Table Value}
    (h : ∀ k v, t.get? k = some v → v.wellFormed) :
    StaysWell (resolveTable lookup t) fun u => ∀ k v, u.get? k = some v → v.wellFormed := by
  have hfields := fields fun e he => value hlookup e.2 (h e.1 e.2 (Table.mem_entries_iff.mp he))
  refine hfields.bind fun gs hgs => .pure fun k v hv => ?_
  have hall : ∀ e ∈ (Table.ofList gs).entries, e.2.wellFormed :=
    Entries.forall_mem_insertAll hgs.2 nofun
  exact hall _ (Table.mem_entries_iff.mpr hv)

/-! ## Sections and macros -/

/-- The contents that are taken out of a section are well-formed. -/
theorem takeContents : StaysWell (takeContents name) fun contents =>
    (∀ k v, contents.1.get? k = some v → v.wellFormed) ∧ ∀ v ∈ contents.2, v.wellFormed := by
  intro q a q' hq hrun
  cases hs : q.document.sections.get? name with
  | none =>
    rw [Yini.takeContents, get_bind, hs] at hrun
    cases hrun
    exact ⟨hq, fun k v hv => (Option.some_ne_none v hv.symm).elim, List.forall_mem_nil _⟩
  | some s =>
    rw [takeContents_of_declared hs] at hrun
    cases hrun
    exact ⟨hq.modify fun _ _ => List.forall_mem_nil _, Section.wellFormed_iff.mp (hq.sections name s hs)⟩

/-- The contents of a section are resolved to well-formed ones. -/
theorem resolveContents {j : Idle} (h : References (resolveReference p j)) :
    StaysWell (resolveContents p j name) fun _ => True := by
  refine takeContents.bind ?_
  rintro ⟨properties, registry⟩ ⟨hproperties, hregistry⟩
  refine (table h hproperties).bind fun properties' hproperties' => ?_
  refine (items fun v hv => value h v (hregistry v hv)).bind fun registry' hregistry' => ?_
  have hput : StaysWell (putContents name properties' registry') fun _ => True :=
    .changeDocument fun d hd => hd.modify fun _ _ =>
      Section.wellFormed_iff.mpr ⟨hproperties', hregistry'⟩
  refine hput.bind fun _ _ q a q' hq hrun => ?_
  cases hrun
  exact ⟨hq, trivial⟩

/-- Sections are resolved. -/
def Sections (p : Providers) (i : Idle) : Prop :=
  ∀ name, StaysWell (resolveSection p i name) fun _ => True

/-- Macros are resolved. -/
def Macros (p : Providers) (i : Idle) : Prop :=
  ∀ name span, StaysWell (resolveMacro p i name span) fun v => v.wellFormed

/-- To adopt a parent leaves a well-formed document. -/
theorem adoptParent {j : Idle} (h : Sections p j) (name : String) (span : Span) (parent : String) :
    StaysWell (adoptParent p j name span parent) fun _ => True := by
  intro q a q' hq hrun
  cases hcontains : q.document.sections.contains parent with
  | false =>
    rw [adoptParent_of_missing hcontains] at hrun
    cases hrun
  | true =>
    rw [adoptParent_of_declared hcontains] at hrun
    exact (h parent).bind (fun _ _ => .changeDocument fun d hd => hd.inherit name parent) q a q' hq hrun

/-- **A section is resolved to a well-formed one**, if the calls that go deeper leave a well-formed
    document. -/
theorem sections (hsections : ∀ name ∈ i.sections, Sections p (i.openSection name))
    (hreferences : ∀ name ∈ i.sections, References (resolveReference p (i.openSection name))) :
    Sections p i := by
  intro name q a q' hq hrun
  by_cases hdone : name ∈ q.doneSections
  · rw [resolveSection_of_done hdone] at hrun
    cases hrun
    exact ⟨hq, trivial⟩
  cases hs : q.document.sections.get? name with
  | none =>
    rw [resolveSection_of_missing hdone hs] at hrun
    cases hrun
  | some s =>
    by_cases hidle : name ∈ i.sections
    · rw [resolveSection_of_idle hdone hs hidle] at hrun
      have hadopted := forM fun parent (_ : parent ∈ s.parents) =>
        adoptParent (hsections name hidle) name s.span parent
      exact hadopted.bind (fun _ _ => resolveContents (hreferences name hidle)) q a q' hq hrun
    · rw [resolveSection_of_open hdone hs hidle] at hrun
      cases hrun

/-- **A macro is resolved to a well-formed value**, if what it refers to is. -/
theorem macros (h : ∀ name ∈ i.macros, References (resolveReference p (i.openMacro name))) :
    Macros p i := by
  intro name span q a q' hq hrun
  cases hv : q.document.macros.get? name with
  | none =>
    rw [resolveMacro_of_missing hv] at hrun
    cases hrun
  | some v =>
    have hwell := hq.macros name v hv
    by_cases hdone : name ∈ q.doneMacros
    · rw [resolveMacro_of_done hv hdone] at hrun
      cases hrun
      exact ⟨hq, (v.wellFormed_withSpan span).trans hwell⟩
    by_cases hidle : name ∈ i.macros
    · rw [resolveMacro_of_idle hv hdone hidle] at hrun
      have hnoted : ∀ w : Value, w.wellFormed →
          StaysWell (modify (·.note name w) : Resolve Unit) fun _ => True := by
        intro w hw q a q' hq hrun
        cases hrun
        exact ⟨hq.putMacro name hw, trivial⟩
      have hpure : ∀ w : Value, w.wellFormed →
          StaysWell (Pure.pure (w.withSpan span)) fun v => v.wellFormed :=
        fun w hw => .pure ((w.wellFormed_withSpan span).trans hw)
      exact (value (h name hidle) v hwell).bind (fun w hw => (hnoted w hw).bind fun _ _ => hpure w hw)
        q a q' hq hrun
    · rw [resolveMacro_of_open hv hdone hidle] at hrun
      cases hrun

/-- A property that is read from a well-formed document is well-formed. -/
theorem readProperty {key target : String} {span : Span} :
    StaysWell (readProperty name key target span) fun v => v.wellFormed := by
  intro q a q' hq hrun
  rw [Yini.readProperty, get_bind] at hrun
  cases hv : q.document.get? name key with
  | none =>
    rw [hv] at hrun
    cases hrun
  | some v =>
    rw [hv] at hrun
    cases hrun
    exact ⟨hq, (v.wellFormed_withSpan span).trans (hq.get? hv)⟩

/-- **A reference is resolved to a well-formed value**, if sections and macros are. -/
theorem references (hsections : Sections p i) (hmacros : Macros p i) :
    References (resolveReference p i) := by
  rintro ⟨kind, target⟩ span
  cases kind with
  | localization =>
    rw [resolveReference_localization]
    exact .pure rfl
  | environment =>
    rw [resolveReference_environment]
    unfold Providers.environment
    split
    next henv => split at henv <;> cases henv <;> exact .pure rfl
    next => exact .throw
  | macroName =>
    rw [resolveReference_macroName]
    exact hmacros target span
  | crossSection =>
    intro q a q' hq hrun
    cases hkey : Reference.sectionKey? ⟨.crossSection, target⟩ with
    | none =>
      rw [resolveReference_of_badTarget hkey] at hrun
      cases hrun
    | some e =>
      obtain ⟨name, key⟩ := e
      cases hcontains : q.document.sections.contains name with
      | false =>
        rw [resolveReference_of_missing hkey hcontains] at hrun
        cases hrun
      | true =>
        by_cases hidle : name ∈ i.sections
        · -- the section is resolved first, and what is read from it then is well-formed
          rw [resolveReference_of_idle hkey hcontains hidle] at hrun
          exact (hsections name).bind (fun _ _ => readProperty) q a q' hq hrun
        · rw [resolveReference_of_open hkey hcontains hidle] at hrun
          cases hrun

/-- **Every call of the resolver leaves a well-formed document.** -/
theorem all (p : Providers) (i : Idle) :
    Sections p i ∧ Macros p i ∧ References (resolveReference p i) := by
  induction i using Idle.induction with
  | step i ihs ihm =>
    have hsections : Sections p i :=
      sections (fun name hname => (ihs name hname).1) fun name hname => (ihs name hname).2.2
    have hmacros : Macros p i := macros fun name hname => (ihm name hname).2.2
    exact ⟨hsections, hmacros, references hsections hmacros⟩

/-! ## Documents -/

/-- **The rules of schemas are resolved to well-formed ones**, one schema after the other. -/
theorem schemas (hlookup : References lookup) (es : Entries Section)
    (h : ∀ e ∈ es, e.2.WellFormed) :
    StaysWell (resolveSchemas lookup es) fun fs => ∀ f ∈ fs, f.2.WellFormed := by
  induction es with
  | nil => exact .pure nofun
  | cons e es ih =>
    obtain ⟨hproperties, hregistry⟩ := Section.wellFormed_iff.mp (h e List.mem_cons_self)
    have hschema : StaysWell (resolveSchema lookup e.2) Section.WellFormed :=
      (table hlookup hproperties).bind fun u hu => .pure (Section.wellFormed_iff.mpr ⟨hu, hregistry⟩)
    refine hschema.bind fun s hs => (ih fun f hf => h f (List.mem_cons_of_mem _ hf)).bind
      fun fs hfs => .pure (List.forall_mem_cons.mpr ⟨hs, hfs⟩)

/-- All macros and sections are resolved to well-formed ones. -/
theorem nodes (p : Providers) (d : Document) :
    StaysWell (Progress.resolveNodes p d) fun _ => True := by
  obtain ⟨hsections, hmacros, -⟩ := all p (.all d)
  have hnames : StaysWell (d.macros.keys.forM fun name => do
      let _ ← resolveMacro p (.all d) name .none) fun _ => True :=
    .forM fun name _ => (hmacros name .none).bind fun _ _ => .pure trivial
  exact hnames.bind fun _ _ => .forM fun name _ => hsections name

end StaysWell

/-- **Resolving keeps values well-formed.** -/
theorem Document.WellFormed.resolve {p : Providers} {d r : Document} (hd : d.WellFormed)
    (h : d.resolve p = .ok r) : r.WellFormed := by
  obtain ⟨q, fs, q', hnodes, hschemas, rfl⟩ := resolve_phases.mp h
  have hq := (StaysWell.nodes p d.gatherMacros _ _ q hd.gatherMacros hnodes).1
  have hrules := StaysWell.schemas (StaysWell.all p (.all d.gatherMacros)).2.2
    q.document.schemas.entries fun e he => hq.schemas e.1 e.2 (Table.mem_entries_iff.mp he)
  have hnone : ∀ e ∈ ([] : Entries Section), e.2.WellFormed := nofun
  have hemptied : (q.withSchemas ∅).document.WellFormed := hq.withSchemas hnone
  obtain ⟨hq', hfs⟩ := hrules _ fs q' hemptied hschemas
  exact hq'.withSchemas hfs

end Yini
