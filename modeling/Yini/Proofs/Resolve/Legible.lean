import Yini.Proofs.Grammar.Sections
import Yini.Proofs.Resolve.Again

/-!
What resolving makes of a document that can be written can be written as well.

Resolving puts values in the place of references and results in the place of operations.  The values
come from the document itself, from the environment or from the localized texts, and the results are
numbers and texts, so all that is new can be written (`Stays`, `stays_all`).  Numbers may be negative
from there on.  The registry of `[#define]` and the registries of schema sections are left alone: what
is in them is still as it was read.  For no special section is ever resolved (`Progress.Legible`):
their names cannot be written, so nothing that is read leads to them.
-/

namespace Yini

variable {α β : Type}

/-! ## Documents on their way -/

/-- A section of values, read and perhaps resolved.  What a special one has in its registry is never
    resolved. -/
structure Section.LegibleValues (s : Section) : Prop
    extends s.Legible (Value.Legible false) (Value.Legible s.isSpecial) where
  header : IsHeader s.name s.parents

/-- A section of rules, read and perhaps resolved. -/
structure Section.LegibleRules (s : Section) : Prop
    extends s.Legible (Value.LegibleRule false) (Value.Legible true) where
  header : IsName s.name

/-- **A document that can be written**, read and perhaps resolved. -/
structure Document.Legible (d : Document) : Prop where
  named : d.IsNamed
  macros : ∀ k v, d.macros.get? k = some v → IsName k ∧ v.Legible false
  sections : ∀ n s, d.sections.get? n = some s → s.LegibleValues
  schemas : ∀ n s, d.schemas.get? n = some s → s.LegibleRules

/-- A rule that is legible without signs is legible with them. -/
theorem Value.LegibleRule.signed {v : Value} (h : v.LegibleRule true) : v.LegibleRule false := by
  obtain ⟨r, span, rfl, hr⟩ := h
  exact ⟨r, span, rfl, hr.typeName, hr.fill, fun v hv => (hr.fallback v hv).signed,
    fun v hv => (hr.lower v hv).signed, fun v hv => (hr.upper v hv).signed⟩

namespace Section

variable {s : Section}

/-- The values of a section that has been read are legible. -/
theorem ReadValues.legible (h : s.ReadValues) : s.LegibleValues where
  parents := h.parents
  names := h.names
  properties e he := (h.properties e he).signed
  registry v hv := by
    cases s.isSpecial with
    | true => exact h.registry v hv
    | false => exact (h.registry v hv).signed
  header := h.header

/-- The rules of a section that has been read are legible. -/
theorem ReadRules.legible (h : s.ReadRules) : s.LegibleRules where
  parents := h.parents
  names := h.names
  properties e he := (h.properties e he).signed
  registry := h.registry
  header := h.header

/-- What a section has, whatever its name is. -/
theorem LegibleValues.signed (h : s.LegibleValues) : ∀ v ∈ s.registry, v.Legible false := by
  intro v hv
  have hlegible := h.registry v hv
  cases hspecial : s.isSpecial with
  | true =>
    rw [hspecial] at hlegible
    exact hlegible.signed
  | false => rwa [hspecial] at hlegible

/-- The contents of a legible section are legible. -/
theorem LegibleValues.contents (h : s.LegibleValues) : ∀ v ∈ s.contents, v.Legible false := by
  intro v hv
  rcases List.mem_append.mp hv with hv | hv
  · obtain ⟨e, he, rfl⟩ := List.mem_map.mp hv
    exact h.properties e he
  · exact h.signed v hv

/-- The contents of a legible schema are values or rules that are. -/
theorem LegibleRules.contents (h : s.LegibleRules) :
    ∀ v ∈ s.contents, v.Legible false ∨ v.LegibleRule false := by
  intro v hv
  rcases List.mem_append.mp hv with hv | hv
  · obtain ⟨e, he, rfl⟩ := List.mem_map.mp hv
    exact .inr (h.properties e he)
  · exact .inl (h.registry v hv).signed

/-- Adopted properties are as those of the parent. -/
theorem LegibleValues.adopt (h : s.LegibleValues) {t : Table Value}
    (ht : ∀ e ∈ t.entries, IsName e.1 ∧ e.2.Legible false) : (s.adopt t).LegibleValues := by
  have hentries : ∀ e ∈ (s.adopt t).properties.entries, IsName e.1 ∧ e.2.Legible false := by
    rintro ⟨k, v⟩ he
    have hget := Table.mem_entries_iff.mp he
    rw [get?_adopt, Option.or_eq_some_iff] at hget
    rcases hget with hget | ⟨-, hget⟩
    · have hmem := Table.mem_entries_iff.mpr hget
      exact ⟨h.names _ hmem, h.properties _ hmem⟩
    · exact ht _ (Table.mem_entries_iff.mpr hget)
  exact ⟨⟨h.parents, fun e he => (hentries e he).1, fun e he => (hentries e he).2, h.registry⟩,
    h.header⟩

/-- A section stays legible when a macro is noted in it. -/
theorem LegibleValues.note (h : s.LegibleValues) {name : String} {v : Value} (hname : IsName name)
    (hv : v.Legible false) : (s.note name v).LegibleValues := by
  unfold Section.note
  split
  · refine ⟨⟨h.parents, fun e he => ?_, fun e he => ?_, h.registry⟩, h.header⟩
    · rcases Entries.mem_insert he with he | rfl
      · exact h.names e he
      · exact hname
    · rcases Entries.mem_insert he with he | rfl
      · exact h.properties e he
      · exact hv
  · exact h

/-- The section with other contents. -/
theorem LegibleValues.fill (h : s.LegibleValues) {properties : Table Value} {registry : List Value}
    (hproperties : ∀ e ∈ properties.entries, IsName e.1 ∧ e.2.Legible false)
    (hregistry : ∀ v ∈ registry, v.Legible s.isSpecial) :
    LegibleValues { s with properties, registry } :=
  ⟨⟨h.parents, fun e he => (hproperties e he).1, fun e he => (hproperties e he).2, hregistry⟩,
    h.header⟩

end Section

namespace Document

variable {d : Document}

/-- A document that has been read can be written. -/
theorem Read.legible (h : d.Read) : d.Legible where
  named := h.named
  macros k v hv := by
    rw [h.macros] at hv
    cases hv
  sections n s hs := (h.sections n s hs).legible
  schemas n s hs := (h.schemas n s hs).legible

/-- A value of a document that can be written is an expression or a rule that can be. -/
theorem Legible.of_mem_values (h : d.Legible) {v : Value} (hv : v ∈ d.values) :
    v.Legible false ∨ v.LegibleRule false := by
  rcases mem_values.mp hv with (⟨s, hs, hv⟩ | ⟨s, hs, hv⟩) | hv
  · obtain ⟨n, hn⟩ := Table.mem_values_iff.mp hs
    exact .inl ((h.sections n s hn).contents v hv)
  · obtain ⟨n, hn⟩ := Table.mem_values_iff.mp hs
    exact (h.schemas n s hn).contents v hv
  · obtain ⟨k, hk⟩ := Table.mem_values_iff.mp hv
    exact .inl (h.macros k v hk).2

/-- Changing one section. -/
theorem Legible.modify (h : d.Legible) {name : String} {f : Section → Section}
    (hname : ∀ s, (f s).name = s.name)
    (hf : ∀ s, s.name = name → s.LegibleValues → (f s).LegibleValues) :
    Legible { d with sections := d.sections.modify name f } := by
  have hget : ∀ n t, (d.sections.modify name f).get? n = some t →
      ∃ s, d.sections.get? n = some s ∧ (t = s ∨ n = name ∧ t = f s) := by
    intro n t ht
    by_cases hn : name = n
    · subst hn
      rw [Table.get?_modify_self] at ht
      obtain ⟨s, hs, rfl⟩ := Option.map_eq_some_iff.mp ht
      exact ⟨s, hs, .inr ⟨rfl, rfl⟩⟩
    · rw [Table.get?_modify_of_ne _ hn] at ht
      exact ⟨t, ht, .inl rfl⟩
  refine ⟨⟨fun n t ht => ?_, h.named.schemas⟩, h.macros, fun n t ht => ?_, h.schemas⟩
  · obtain ⟨s, hs, rfl | ⟨-, rfl⟩⟩ := hget n t ht
    · exact h.named.sections n t hs
    · exact (hname s).trans (h.named.sections n s hs)
  · obtain ⟨s, hs, rfl | ⟨hn, rfl⟩⟩ := hget n t ht
    · exact h.sections n t hs
    · exact hf s ((h.named.sections n s hs).trans hn) (h.sections n s hs)

/-- A document stays legible when a section adopts the properties of another one. -/
theorem Legible.inherit (h : d.Legible) (child parent : String) : (d.inherit child parent).Legible := by
  cases hparent : d.sections.get? parent with
  | none =>
    rw [Document.inherit, hparent]
    exact h
  | some p =>
    rw [inherit_eq hparent]
    have hp := h.sections parent p hparent
    exact h.modify (fun _ => rfl) fun _ _ hs =>
      hs.adopt fun e he => ⟨hp.names e he, hp.properties e he⟩

theorem Legible.putMacro (h : d.Legible) {name : String} {v : Value} (hname : IsName name)
    (hv : v.Legible false) : (d.putMacro name v).Legible := by
  have hsections : Legible { d with sections := d.sections.modify defineName (Section.note name v) } :=
    h.modify (fun s => by unfold Section.note; split <;> rfl) fun _ _ hs => hs.note hname hv
  refine ⟨⟨hsections.named.sections, h.named.schemas⟩, fun k w hw => ?_, hsections.sections,
    h.schemas⟩
  change (d.macros.insert name v).get? k = some w at hw
  by_cases hk : name = k
  · subst hk
    rw [Table.get?_insert_self] at hw
    cases hw
    exact ⟨hname, hv⟩
  · rw [Table.get?_insert_of_ne _ hk] at hw
    exact h.macros k w hw

theorem Legible.gatherMacros (h : d.Legible) : d.gatherMacros.Legible := by
  have hsections := d.sections_gatherMacros
  have hschemas := d.schemas_gatherMacros
  refine ⟨⟨by rw [hsections]; exact h.named.sections, by rw [hschemas]; exact h.named.schemas⟩,
    fun k v hv => ?_, by rw [hsections]; exact h.sections, by rw [hschemas]; exact h.schemas⟩
  rw [get?_macros_gatherMacros, Option.or_eq_some_iff] at hv
  rcases hv with hv | ⟨-, hv⟩
  · obtain ⟨s, hs, hget⟩ := Option.bind_eq_some_iff.mp hv
    have hmem := Table.mem_entries_iff.mpr hget
    have hdefine := h.sections _ s hs
    exact ⟨hdefine.names _ hmem, hdefine.properties _ hmem⟩
  · exact h.macros k v hv

end Document

/-! ## Values -/

namespace Value

theorem Legible.withSpan {unsigned : Bool} {v : Value} (h : v.Legible unsigned) (span : Span) :
    (v.withSpan span).Legible unsigned := by
  cases h with
  | atom h => exact .atom h
  | sequence h => exact .sequence h
  | record hnodup hnames hkind h => exact .record hnodup hnames hkind h
  | binary hl hr => exact .binary hl hr
  | neg h => exact .neg h

theorem legible_of_isResult {a : Atom} (h : a.isResult) (span : Span) :
    (Value.atom a span).Legible false := by
  refine .atom ?_
  cases a with
  | int | float => exact nofun
  | string => trivial
  | _ => cases h

end Value

/-- The characters of a name. -/
theorem IsName.continues {name : String} (h : IsName name) : ∀ c ∈ name.toList, Text.continuesName c := by
  unfold IsName at h
  generalize ht : Token.ident name = t at h
  generalize name.toList = text at h
  cases h with
  | word _ _ hstart hcs _ =>
    exact List.forall_mem_cons.mpr ⟨Text.continuesName_of_startsName hstart, hcs⟩
  | _ => cases ht

/-- A name has no point in it, so the first point is the one behind it. -/
theorem splitAtPoint_of_name {name rest : String} (h : IsName name) :
    splitAtPoint (name ++ "." ++ rest) = some (name, rest) := by
  have hpoint : ∀ c ∈ name.toList, (c != '.') = true := fun c hc => by
    refine bne_iff_ne.mpr ?_
    rintro rfl
    exact absurd (h.continues _ hc) (by decide +kernel)
  have htext : (name ++ "." ++ rest).toList = name.toList ++ '.' :: rest.toList := by
    rw [String.toList_append, String.toList_append, List.append_assoc]
    rfl
  rw [splitAtPoint, htext, List.dropWhile_append_of_pos hpoint, List.takeWhile_append_of_pos hpoint]
  simp [String.ofList_toList]

/-- The section of a reference that can be written is not special. -/
theorem IsName.not_special_of_target {target name key : String}
    (h : Reference.Legible ⟨.crossSection, target⟩)
    (hkey : Reference.sectionKey? ⟨.crossSection, target⟩ = some (name, key)) :
    Section.isSpecialName name = false := by
  obtain ⟨first, second, hfirst, -, rfl⟩ := h
  rw [Reference.sectionKey?, splitAtPoint_of_name hfirst] at hkey
  cases hkey
  exact hfirst.not_special

/-- Of two lists of entries with the same names, each has an entry for each name. -/
theorem Entries.exists_of_keys_eq {es fs : Entries α} (h : es.keys = fs.keys) {e : String × α}
    (he : e ∈ es) : ∃ f ∈ fs, f.1 = e.1 :=
  List.mem_map.mp (h ▸ List.mem_map.mpr ⟨e, he, rfl⟩ : e.1 ∈ fs.keys)

/-! ## Steps -/

/-- A state with a document that can be written and no special section that has been resolved. -/
structure Progress.Legible (q : Progress) : Prop extends q.document.Legible where
  ordinary : ∀ n ∈ q.doneSections, Section.isSpecialName n = false

/-- The step leaves a document that can be written, and `post` is true of what it gives. -/
def Stays (x : Resolve α) (post : α → Prop) : Prop :=
  ∀ q a q', q.Legible → x q = .ok a q' → q'.Legible ∧ post a

namespace Stays

theorem pure {post : α → Prop} {a : α} (h : post a) : Stays (pure a) post := by
  intro q b q' hq hrun
  cases hrun
  exact ⟨hq, h⟩

theorem throw {post : α → Prop} {f : Fault} : Stays (throw f) post := nofun

/-- One step after another leaves a legible document, if the second may start from what the first gives. -/
theorem bind {x : Resolve α} {f : α → Resolve β} {post : α → Prop} {post' : β → Prop}
    (hx : Stays x post) (hf : ∀ a, post a → Stays (f a) post') : Stays (x >>= f) post' := by
  intro q b q' hq hrun
  obtain ⟨a, q₁, hrun₁, hrun₂⟩ := bind_eq_ok.mp hrun
  obtain ⟨hq₁, ha⟩ := hx q a q₁ hq hrun₁
  exact hf a ha q₁ b q' hq₁ hrun₂

theorem changeDocument {f : Document → Document} (h : ∀ d, d.Legible → (f d).Legible) :
    Stays (changeDocument f) fun _ => True := by
  intro q a q' hq hrun
  cases hrun
  exact ⟨⟨h _ hq.toLegible, hq.ordinary⟩, trivial⟩

theorem changeProgress {f : Progress → Progress} (h : ∀ q, q.Legible → (f q).Legible) :
    Stays (modify f : Resolve Unit) fun _ => True := by
  intro q a q' hq hrun
  cases hrun
  exact ⟨h _ hq, trivial⟩

/-- **A loop leaves a legible document if each of its steps does.** -/
theorem forM {as : List α} {step : α → Resolve Unit}
    (h : ∀ a ∈ as, Stays (step a) fun _ => True) : Stays (as.forM step) fun _ => True := by
  induction as with
  | nil => exact .pure trivial
  | cons a as ih =>
    exact (h a List.mem_cons_self).bind fun _ _ => ih fun b hb => h b (List.mem_cons_of_mem _ hb)

end Stays

section Values

variable {lookup : Reference → Span → Resolve Value}
  (hlookup : ∀ r span, r.Legible → Stays (lookup r span) (Value.Legible false))

/-- The value is resolved to one that can be written. -/
def ResolvesLegibly (lookup : Reference → Span → Resolve Value) (v : Value) : Prop :=
  Stays (v.resolve lookup) (Value.Legible false)

/-- **Items are resolved to legible ones if each is.**  The document stays legible from one to the next. -/
theorem stays_items {vs : List Value} (h : ∀ v ∈ vs, ResolvesLegibly lookup v) :
    Stays (Value.resolveItems lookup vs) fun ws => ∀ w ∈ ws, w.Legible false := by
  induction vs with
  | nil => exact .pure nofun
  | cons v vs ih =>
    refine (h v List.mem_cons_self).bind fun w hw => ?_
    refine (ih fun u hu => h u (List.mem_cons_of_mem _ hu)).bind fun ws hws => ?_
    exact .pure (List.forall_mem_cons.mpr ⟨hw, hws⟩)

/-- Fields keep their names. -/
theorem stays_fields {P : Value → Prop} {fs : Entries Value}
    (h : ∀ e ∈ fs, Stays (e.2.resolve lookup) P) :
    Stays (Value.resolveFields lookup fs) fun gs => Entries.keys gs = fs.keys ∧
      ∀ e ∈ gs, P e.2 := by
  induction fs with
  | nil => exact .pure ⟨rfl, nofun⟩
  | cons e fs ih =>
    refine (h e List.mem_cons_self).bind fun w hw => ?_
    refine (ih fun f hf => h f (List.mem_cons_of_mem _ hf)).bind fun gs hgs => ?_
    refine .pure ⟨?_, List.forall_mem_cons.mpr ⟨hw, hgs.2⟩⟩
    rw [Entries.keys_cons, Entries.keys_cons, hgs.1]

theorem stays_option {o : Option Value} (h : ∀ v ∈ o, ResolvesLegibly lookup v) :
    Stays (Value.resolveOption lookup o) fun o' => o'.isSome = o.isSome ∧
      ∀ v ∈ o', v.Legible false := by
  cases o with
  | none => exact .pure ⟨rfl, nofun⟩
  | some v =>
    refine (h v rfl).bind fun w hw => .pure ⟨rfl, fun u hu => ?_⟩
    cases hu
    exact hw

include hlookup

/-- **A value that can be written is resolved to one.** -/
theorem resolvesLegibly {unsigned : Bool} {v : Value} (h : v.Legible unsigned) :
    ResolvesLegibly lookup v := by
  induction h with
  | @atom a span h =>
    cases a with
    | reference r => exact hlookup r span h
    | int => exact .pure (.atom nofun)
    | float => exact .pure (.atom nofun)
    | _ => exact .pure (.atom h)
  | sequence _ ih => exact (stays_items ih).bind fun ws hws => .pure (.sequence hws)
  | @record kind fields span hnodup hnames hkind _ ih =>
    refine (stays_fields ih).bind fun gs hgs => .pure ?_
    obtain ⟨hkeys, hgs⟩ := hgs
    refine .record (by rwa [hkeys]) (fun e he => ?_) (fun hstruct hnil => ?_) hgs
    · obtain ⟨f, hf, hname⟩ := Entries.exists_of_keys_eq hkeys he
      exact hname ▸ hnames f hf
    · rw [hnil] at hkeys
      exact hkind hstruct (List.map_eq_nil_iff.mp hkeys.symm)
  | binary _ _ ihl ihr =>
    -- a result is a number or a text, whatever the operands are
    refine ihl.bind fun v _ => ihr.bind fun w _ => ?_
    split
    next hop =>
      obtain ⟨a, ha, rfl⟩ := Value.combine_eq_ok hop
      exact .pure (Value.legible_of_isResult ha _)
    next => exact .throw
  | neg _ ih =>
    refine ih.bind fun v _ => ?_
    split
    next hop =>
      obtain ⟨a, ha, rfl⟩ := Value.opposite_eq_ok hop
      exact .pure (Value.legible_of_isResult ha _)
    next => exact .throw

/-- A rule is resolved to a rule with the same marks. -/
theorem stays_rule {v : Value} (h : v.LegibleRule false) :
    Stays (v.resolve lookup) (Value.LegibleRule false) := by
  obtain ⟨r, span, rfl, hr⟩ := h
  have hoption : ∀ {o : Option Value}, (∀ v ∈ o, v.Legible false) →
      Stays (Value.resolveOption lookup o) fun o' => o'.isSome = o.isSome ∧ ∀ v ∈ o', v.Legible false :=
    fun ho => stays_option fun v hv => resolvesLegibly hlookup (ho v hv)
  refine (hoption hr.fallback).bind fun fallback hfallback => ?_
  refine (hoption hr.lower).bind fun lower hlower => ?_
  refine (hoption hr.upper).bind fun upper hupper => .pure ?_
  refine ⟨⟨r.marks, fallback, lower, upper⟩, span, rfl, hr.typeName, fun hfill => ?_, hfallback.2,
    hlower.2, hupper.2⟩
  show fallback.isSome
  rw [hfallback.1]
  exact hr.fill hfill

end Values

/-- Properties keep their names, and their values are resolved to such values as each is. -/
theorem stays_table {lookup : Reference → Span → Resolve Value} {P : Value → Prop} {t : Table Value}
    (hnames : ∀ e ∈ t.entries, IsName e.1) (h : ∀ e ∈ t.entries, Stays (e.2.resolve lookup) P) :
    Stays (resolveTable lookup t) fun u => ∀ e ∈ u.entries, IsName e.1 ∧ P e.2 := by
  refine (stays_fields h).bind fun gs hgs => .pure ?_
  obtain ⟨hkeys, hgs⟩ := hgs
  refine Entries.forall_mem_insertAll (fun e he => ⟨?_, hgs e he⟩) nofun
  obtain ⟨f, hf, hname⟩ := Entries.exists_of_keys_eq hkeys he
  exact hname ▸ hnames f hf

/-! ## Sections and macros -/

section Steps

variable {p : Providers} {i : Idle} {name : String}

/-- Sections with a name of their own are resolved. -/
def SectionStays (p : Providers) (i : Idle) : Prop :=
  ∀ name, Section.isSpecialName name = false → Stays (resolveSection p i name) fun _ => True

/-- Macros are resolved. -/
def MacroStays (p : Providers) (i : Idle) : Prop :=
  ∀ name span, Stays (resolveMacro p i name span) (Value.Legible false)

/-- References that can be written are resolved. -/
def ReferenceStays (p : Providers) (i : Idle) : Prop :=
  ∀ r span, r.Legible → Stays (resolveReference p i r span) (Value.Legible false)

/-- The contents that are taken out of a section are legible. -/
theorem stays_takeContents : Stays (takeContents name) fun contents =>
    (∀ e ∈ contents.1.entries, IsName e.1 ∧ e.2.Legible false) ∧
      ∀ v ∈ contents.2, v.Legible false := by
  intro q a q' hq hrun
  cases hs : q.document.sections.get? name with
  | none =>
    rw [takeContents, get_bind, hs] at hrun
    cases hrun
    exact ⟨hq, List.forall_mem_nil _, List.forall_mem_nil _⟩
  | some s =>
    rw [takeContents_of_declared hs] at hrun
    cases hrun
    have hlegible := hq.sections name s hs
    have hemptied : (q.alter name ({ · with properties := ∅, registry := [] })).document.Legible :=
      hq.modify (fun _ => rfl) fun _ _ hs => hs.fill (List.forall_mem_nil _) (List.forall_mem_nil _)
    exact ⟨⟨hemptied, hq.ordinary⟩, fun e he => ⟨hlegible.names e he, hlegible.properties e he⟩,
      hlegible.signed⟩

/-- Legible contents may be put into a section that is not special. -/
theorem stays_putContents (hname : Section.isSpecialName name = false) {properties : Table Value}
    {registry : List Value}
    (hproperties : ∀ e ∈ properties.entries, IsName e.1 ∧ e.2.Legible false)
    (hregistry : ∀ v ∈ registry, v.Legible false) :
    Stays (putContents name properties registry) fun _ => True := by
  refine .changeDocument fun d hd => hd.modify (fun _ => rfl) fun s hs hlegible =>
    hlegible.fill hproperties ?_
  rwa [Section.isSpecial, hs, hname]

/-- What a section holds is resolved, if references are. -/
theorem stays_resolveContents {j : Idle} (hname : Section.isSpecialName name = false)
    (h : ReferenceStays p j) : Stays (resolveContents p j name) fun _ => True := by
  refine stays_takeContents.bind ?_
  rintro ⟨properties, registry⟩ ⟨hproperties, hregistry⟩
  have htable := stays_table (fun e he => (hproperties e he).1) fun e he =>
    resolvesLegibly h (hproperties e he).2
  refine htable.bind fun properties' hproperties' => ?_
  refine (stays_items fun v hv => resolvesLegibly h (hregistry v hv)).bind fun registry' hregistry' => ?_
  refine (stays_putContents hname hproperties' hregistry').bind fun _ _ => .changeProgress fun q hq => ?_
  exact ⟨hq.toLegible, List.forall_mem_cons.mpr ⟨hname, hq.ordinary⟩⟩

/-- To adopt a parent leaves a legible document. -/
theorem stays_adoptParent {j : Idle} (h : SectionStays p j) {parent : String} (hparent : IsName parent)
    (span : Span) : Stays (adoptParent p j name span parent) fun _ => True := by
  intro q a q' hq hrun
  cases hcontains : q.document.sections.contains parent with
  | false =>
    rw [adoptParent_of_missing hcontains] at hrun
    cases hrun
  | true =>
    rw [adoptParent_of_declared hcontains] at hrun
    have hadopt := (h parent hparent.not_special).bind fun _ _ =>
      Stays.changeDocument fun d hd => hd.inherit name parent
    exact hadopt q a q' hq hrun

/-- **A section is resolved to a legible one**, if the calls that go deeper leave a legible document. -/
theorem sectionStays (hsection : ∀ name ∈ i.sections, SectionStays p (i.openSection name))
    (hreference : ∀ name ∈ i.sections, ReferenceStays p (i.openSection name)) : SectionStays p i := by
  intro name hname q a q' hq hrun
  by_cases hdone : name ∈ q.doneSections
  · rw [resolveSection_of_done hdone] at hrun
    cases hrun
    exact ⟨hq, trivial⟩
  cases hs : q.document.sections.get? name with
  | none =>
    rw [resolveSection_of_missing hdone hs] at hrun
    cases hrun
  | some s =>
    by_cases hidle : name ∈ i.sections
    · rw [resolveSection_of_idle hdone hs hidle] at hrun
      have hparents := (hq.sections name s hs).parents
      have hadopted : Stays (s.parents.forM (adoptParent p (i.openSection name) name s.span))
          fun _ => True := .forM fun parent hparent =>
        stays_adoptParent (hsection name hidle) (hparents parent hparent) s.span
      exact hadopted.bind (fun _ _ => stays_resolveContents hname (hreference name hidle))
        q a q' hq hrun
    · rw [resolveSection_of_open hdone hs hidle] at hrun
      cases hrun

/-- **A macro is resolved to a legible value**, if what it refers to is. -/
theorem macroStays (h : ∀ name ∈ i.macros, ReferenceStays p (i.openMacro name)) : MacroStays p i := by
  intro name span q a q' hq hrun
  cases hv : q.document.macros.get? name with
  | none =>
    rw [resolveMacro_of_missing hv] at hrun
    cases hrun
  | some v =>
    obtain ⟨hname, hlegible⟩ := hq.macros name v hv
    by_cases hdone : name ∈ q.doneMacros
    · rw [resolveMacro_of_done hv hdone] at hrun
      cases hrun
      exact ⟨hq, hlegible.withSpan span⟩
    by_cases hidle : name ∈ i.macros
    · rw [resolveMacro_of_idle hv hdone hidle] at hrun
      have hnoted : ∀ w : Value, w.Legible false → Stays (modify (·.note name w) : Resolve Unit)
          fun _ => True := fun w hw =>
        .changeProgress fun q hq => ⟨hq.toLegible.putMacro hname hw, hq.ordinary⟩
      exact (resolvesLegibly (h name hidle) hlegible).bind (fun w hw =>
        (hnoted w hw).bind fun _ _ => .pure (hw.withSpan span)) q a q' hq hrun
    · rw [resolveMacro_of_open hv hdone hidle] at hrun
      cases hrun

/-- A property that is read from a legible document is legible. -/
theorem stays_readProperty {key target : String} {span : Span} :
    Stays (readProperty name key target span) (Value.Legible false) := by
  intro q a q' hq hrun
  rw [readProperty, get_bind] at hrun
  cases hv : q.document.get? name key with
  | none =>
    rw [hv] at hrun
    cases hrun
  | some v =>
    rw [hv] at hrun
    cases hrun
    obtain ⟨s, hs, hget⟩ := Option.bind_eq_some_iff.mp hv
    have hlegible := (hq.sections name s hs).properties _ (Table.mem_entries_iff.mpr hget)
    exact ⟨hq, hlegible.withSpan span⟩

/-- **A reference is resolved to a legible value**, if sections and macros are. -/
theorem referenceStays (hsection : SectionStays p i) (hmacros : MacroStays p i) :
    ReferenceStays p i := by
  rintro ⟨kind, target⟩ span hr
  cases kind with
  | localization =>
    rw [resolveReference_localization]
    exact .pure (.atom trivial)
  | environment =>
    rw [resolveReference_environment]
    unfold Providers.environment
    split
    next henv => split at henv <;> cases henv <;> exact .pure (.atom trivial)
    next => exact .throw
  | macroName =>
    rw [resolveReference_macroName]
    exact hmacros target span
  | crossSection =>
    intro q a q' hq hrun
    cases hkey : Reference.sectionKey? ⟨.crossSection, target⟩ with
    | none =>
      rw [resolveReference_of_badTarget hkey] at hrun
      cases hrun
    | some e =>
      obtain ⟨name, key⟩ := e
      cases hcontains : q.document.sections.contains name with
      | false =>
        rw [resolveReference_of_missing hkey hcontains] at hrun
        cases hrun
      | true =>
        by_cases hidle : name ∈ i.sections
        · rw [resolveReference_of_idle hkey hcontains hidle] at hrun
          have hname := IsName.not_special_of_target hr hkey
          exact (hsection name hname).bind (fun _ _ => stays_readProperty) q a q' hq hrun
        · rw [resolveReference_of_open hkey hcontains hidle] at hrun
          cases hrun

end Steps

/-- **Every call of the resolver leaves a document that can be written.** -/
theorem stays_all (p : Providers) (i : Idle) :
    SectionStays p i ∧ MacroStays p i ∧ ReferenceStays p i := by
  induction i using Idle.induction with
  | step i ihs ihm =>
    have hsection : SectionStays p i :=
      sectionStays (fun name hname => (ihs name hname).1) fun name hname => (ihs name hname).2.2
    have hmacros : MacroStays p i := macroStays fun name hname => (ihm name hname).2.2
    exact ⟨hsection, hmacros, referenceStays hsection hmacros⟩

/-! ## Documents -/

/-- Schema sections keep their names. -/
theorem stays_schemas {lookup : Reference → Span → Resolve Value}
    (hlookup : ∀ r span, r.Legible → Stays (lookup r span) (Value.Legible false))
    (es : Entries Section) (h : ∀ e ∈ es, e.2.name = e.1 ∧ e.2.LegibleRules) :
    Stays (resolveSchemas lookup es) fun fs => ∀ f ∈ fs, f.2.name = f.1 ∧ f.2.LegibleRules := by
  induction es with
  | nil => exact .pure nofun
  | cons e es ih =>
    obtain ⟨hname, hs⟩ := h e List.mem_cons_self
    have hschema : Stays (resolveSchema lookup e.2) fun s => s.name = e.1 ∧ s.LegibleRules := by
      refine (stays_table hs.names fun f hf => stays_rule hlookup (hs.properties f hf)).bind
        fun u hu => .pure ⟨hname, ?_⟩
      exact ⟨⟨hs.parents, fun e he => (hu e he).1, fun e he => (hu e he).2, hs.registry⟩, hs.header⟩
    refine hschema.bind fun s hs => (ih fun f hf => h f (List.mem_cons_of_mem _ hf)).bind
      fun fs hfs => .pure (List.forall_mem_cons.mpr ⟨hs, hfs⟩)

namespace Document

theorem Legible.withSchemas {d : Document} (h : d.Legible) (es : Entries Section)
    (hes : ∀ e ∈ es, e.2.name = e.1 ∧ e.2.LegibleRules) :
    Legible { d with schemas := .ofList es } := by
  have hmem : ∀ n s, (Table.ofList es).get? n = some s → s.name = n ∧ s.LegibleRules := by
    intro n s hs
    have hall : ∀ e ∈ (Table.ofList es).entries, e.2.name = e.1 ∧ e.2.LegibleRules :=
      Entries.forall_mem_insertAll hes nofun
    exact hall _ (Table.mem_entries_iff.mpr hs)
  exact ⟨⟨h.named.sections, fun n s hs => (hmem n s hs).1⟩, h.macros, h.sections,
    fun n s hs => (hmem n s hs).2⟩

/-- All macros and sections are resolved to legible ones. -/
theorem stays_resolveNodes (p : Providers) (d : Document) :
    Stays (Progress.resolveNodes p d) fun _ => True := by
  obtain ⟨hsection, hmacros, -⟩ := stays_all p (.all d)
  have hnames : Stays (d.macros.keys.forM fun name => do
      let _ ← resolveMacro p (.all d) name .none) fun _ => True :=
    .forM fun name _ => (hmacros name .none).bind fun _ _ => .pure trivial
  refine hnames.bind fun _ _ => .forM fun name hname => ?_
  exact hsection name (by simpa using (List.mem_filter.mp hname).2)

/-- The schemas are taken out, resolved, and put back, all of them legible. -/
theorem stays_resolveRules (p : Providers) (i : Idle) {schemas : Table Section}
    (h : ∀ n s, schemas.get? n = some s → s.name = n ∧ s.LegibleRules) : Stays (do
      changeDocument ({ · with schemas := ∅ })
      let schemas ← resolveSchemas (resolveReference p i) schemas.entries
      changeDocument ({ · with schemas := .ofList schemas })) fun _ => True := by
  have hemptied : Stays (changeDocument ({ · with schemas := ∅ })) fun _ => True :=
    .changeDocument fun d hd => hd.withSchemas [] nofun
  refine hemptied.bind fun _ _ => ?_
  have hschemas := stays_schemas (stays_all p i).2.2 schemas.entries fun e he =>
    h e.1 e.2 (Table.mem_entries_iff.mp he)
  exact hschemas.bind fun fs hfs => .changeDocument fun d hd => hd.withSchemas fs hfs

/-- **What resolving makes of a document that can be written** can be written. -/
theorem Legible.resolveAll {p : Providers} {d : Document} {q : Progress} (hd : d.Legible)
    (h : Yini.resolveAll p ⟨d, [], []⟩ = .ok () q) : q.Legible := by
  rw [Progress.resolveAll_eq] at h
  obtain ⟨_, q₁, hnodes, hrest⟩ := bind_eq_ok.mp h
  have hstart : Progress.Legible ⟨d.gatherMacros, [], []⟩ := ⟨hd.gatherMacros, List.forall_mem_nil _⟩
  have hq₁ := (stays_resolveNodes p d.gatherMacros _ _ q₁ hstart hnodes).1
  have hrules := stays_resolveRules p (.all d.gatherMacros) fun n s hs =>
    ⟨hq₁.named.schemas n s hs, hq₁.schemas n s hs⟩
  exact (hrules q₁ _ q hq₁ hrest).1

/-- **A legible document is resolved to a legible one.** -/
theorem Legible.resolve {p : Providers} {d r : Document} (hd : d.Legible)
    (h : d.resolve p = .ok r) : r.Legible := by
  obtain ⟨q, hrun, rfl⟩ := resolve_eq_ok.mp h
  exact (hd.resolveAll hrun).toLegible

end Document

end Yini
