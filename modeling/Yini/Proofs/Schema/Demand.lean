import Mathlib.Data.List.Nodup
import Yini.Proofs.Merge
import Yini.Proofs.Schema.Rule

/-!
What schemas ask of a document.

Every rule of a schema section is a demand on one property (`Demand`), and checking a document against
its schemas is checking one demand after the other (`checkSchemas_eq`).  A demand that is met fills in
at most the property that it is about, and one that is violated changes nothing (`check_eq_ok_iff`,
`check_eq_error_iff`).  As all demands are about different properties, what one fills in makes no
difference to the others (`met_fill`, `violated_fill`), and so a whole run can be read off the document
that it starts with (`forM_check_eq_ok_iff`, `forM_check_eq_error_iff`).
-/

namespace Yini

/-- A rule of a schema section, with the section and the property that it is about. -/
structure Demand where
  sectionName : String
  key : String
  rule : Value

/-- The demands of schema sections, in the order of the sections and of their rules. -/
def demandsOf (schemas : Entries Section) : List Demand :=
  schemas.flatMap fun (name, schema) =>
    schema.properties.entries.map fun (key, rule) => ⟨name, key, rule⟩

/-- What the schema sections of a document ask of it. -/
def Document.demands (d : Document) : List Demand := demandsOf d.schemas.entries

namespace Demand

variable {d e : Document} {b c : Demand} {f : Fault}

/-- The property that the demand is about. -/
def place (c : Demand) : String × String := (c.sectionName, c.key)

/-- What the document has at the place of the demand. -/
def property? (d : Document) (c : Demand) : Option Value := d.get? c.sectionName c.key

/-- Whether a document meets a demand: if the section is there, the rule allows what there is of the
    property; and if it is not, the property need not be there. -/
def Met (d : Document) (c : Demand) : Prop :=
  match d.sections.get? c.sectionName with
  | some s => c.rule.Allows (s.properties.get? c.key)
  | none => ¬c.rule.IsRequired

/-- How a document violates a demand. -/
inductive Violated (d : Document) (c : Demand) : Fault → Prop where
  | section (h : d.sections.get? c.sectionName = none) (hrequired : c.rule.IsRequired) :
    Violated d c (.validation .missingSection c.sectionName)
  | property {s : Section} {violation : Violation} (hs : d.sections.get? c.sectionName = some s)
    (h : Violates c.rule c.key (s.properties.get? c.key) violation) :
    Violated d c (.validation violation s.name)

/-- The document with what the demand fills in. -/
def fill (d : Document) (c : Demand) : Document :=
  { d with sections := d.sections.modify c.sectionName (Section.supply c.key c.rule) }

/-- Checks a document against one demand. -/
def check (c : Demand) : EStateM Fault Document Unit := do
  let d ← get
  match d.sections.get? c.sectionName with
  | some s =>
    match s.checkRule c.key c.rule with
    | .ok t => set { d with sections := d.sections.insert c.sectionName t }
    | .error violation => throw (.validation violation s.name)
  | none => if c.rule.isRequiredRule then throw (.validation .missingSection c.sectionName)

/-- If the section is there, the property is that of the section. -/
theorem property?_of_present {s : Section} (hs : d.sections.get? c.sectionName = some s) :
    c.property? d = s.properties.get? c.key := by
  rw [property?, Document.get?, hs]
  rfl

/-- If the section is missing, so is the property. -/
theorem property?_of_missing (hs : d.sections.get? c.sectionName = none) : c.property? d = none := by
  rw [property?, Document.get?, hs]
  rfl

/-! ## One demand -/

/-- Checking a demand on a section that is there is checking its rule. -/
theorem check_of_present {s : Section} (hs : d.sections.get? c.sectionName = some s) :
    c.check d =
      match s.checkRule c.key c.rule with
      | .ok t => .ok () { d with sections := d.sections.insert c.sectionName t }
      | .error violation => .error (.validation violation s.name) d := by
  rw [check, get_bind, hs]
  show (match s.checkRule c.key c.rule with
    | .ok t => _
    | .error violation => _ : EStateM Fault Document Unit) d = _
  cases s.checkRule c.key c.rule <;> rfl

/-- Checking a demand on a section that is missing is asking whether it must be there. -/
theorem check_of_missing (hs : d.sections.get? c.sectionName = none) :
    c.check d = if c.rule.isRequiredRule then .error (.validation .missingSection c.sectionName) d
      else .ok () d := by
  rw [check, get_bind, hs]
  cases c.rule.isRequiredRule <;> rfl

/-- What a demand fills in comes into its section. -/
theorem fill_of_present {s : Section} (hs : d.sections.get? c.sectionName = some s) :
    c.fill d = { d with sections := d.sections.insert c.sectionName (s.supply c.key c.rule) } := by
  rw [fill, Table.modify_of_get? hs]

/-- Nothing is filled into a section that is missing. -/
theorem fill_of_missing (hs : d.sections.get? c.sectionName = none) : c.fill d = d := by
  rw [fill, Table.modify_of_get?_eq_none hs]

/-- **A demand is checked successfully exactly if it is met**, and then it is filled. -/
theorem check_eq_ok_iff : c.check d = .ok () e ↔ c.Met d ∧ e = c.fill d := by
  unfold Met
  cases hs : d.sections.get? c.sectionName with
  | none =>
    rw [check_of_missing hs, fill_of_missing hs]
    simp only [← Value.isRequiredRule_eq_false_iff]
    cases c.rule.isRequiredRule <;> simp [eq_comm]
  | some s =>
    rw [check_of_present hs, fill_of_present hs]
    cases hcheck : s.checkRule c.key c.rule with
    | ok t =>
      obtain ⟨hallows, rfl⟩ := Section.checkRule_eq_ok_iff.mp hcheck
      simp [hallows, eq_comm]
    | error violation =>
      refine iff_of_false (fun h => by cases h) fun h => ?_
      rw [Section.checkRule_eq_ok_iff.mpr ⟨h.1, rfl⟩] at hcheck
      cases hcheck

/-- **The check of a demand fails exactly if it is violated**, and then it changes nothing. -/
theorem check_eq_error_iff : c.check d = .error f e ↔ c.Violated d f ∧ e = d := by
  constructor
  · intro h
    cases hs : d.sections.get? c.sectionName with
    | none =>
      rw [check_of_missing hs] at h
      split at h
      next hrequired => cases h; exact ⟨.section hs (Value.isRequiredRule_iff.mp hrequired), rfl⟩
      next => cases h
    | some s =>
      rw [check_of_present hs] at h
      split at h
      next => cases h
      next violation hcheck =>
        cases h
        exact ⟨.property hs (Section.checkRule_eq_error_iff.mp hcheck), rfl⟩
  · rintro ⟨h, rfl⟩
    cases h with
    | «section» hs hrequired => rw [check_of_missing hs, if_pos (Value.isRequiredRule_iff.mpr hrequired)]
    | property hs h => rw [check_of_present hs, Section.checkRule_eq_error_iff.mpr h]

/-- A demand that is not met is violated in exactly one way. -/
theorem not_met_iff : ¬c.Met d ↔ ∃ f, c.Violated d f := by
  cases hcheck : c.check d with
  | ok _ e =>
    refine iff_of_false (not_not.mpr (check_eq_ok_iff.mp hcheck).1) ?_
    rintro ⟨f, hviolated⟩
    rw [check_eq_error_iff.mpr ⟨hviolated, rfl⟩] at hcheck
    cases hcheck
  | error f e =>
    refine iff_of_true (fun hmet => ?_) ⟨f, (check_eq_error_iff.mp hcheck).1⟩
    rw [check_eq_ok_iff.mpr ⟨hmet, rfl⟩] at hcheck
    cases hcheck

/-! ## One demand beside another -/

/-- The section `n`, if it is `s`, with what the demand fills in. -/
def supplied (n : String) (s : Section) (c : Demand) : Section :=
  if c.sectionName = n then s.supply c.key c.rule else s

/-- What is filled in does not change the name of the section. -/
theorem name_supplied (n : String) (s : Section) (c : Demand) : (supplied n s c).name = s.name := by
  unfold supplied
  split
  · exact Section.name_supply c.key c.rule s
  · rfl

theorem get?_supplied_of_ne {n k : String} (h : c.place ≠ (n, k)) (s : Section) :
    (supplied n s c).properties.get? k = s.properties.get? k := by
  unfold supplied
  split
  next hn => exact Section.get?_supply_of_ne (fun hkey => h (Prod.ext hn hkey)) c.rule s
  next => rfl

/-- A demand fills in the same whether the section is looked up before or after. -/
theorem sections_fill (d : Document) (c : Demand) (n : String) :
    (c.fill d).sections.get? n = (d.sections.get? n).map (supplied n · c) := by
  unfold fill supplied
  by_cases h : c.sectionName = n
  · subst h
    simp [Table.get?_modify_self]
  · simp [Table.get?_modify_of_ne _ h, h]

/-- What is filled in at one place makes no difference to the demand on another. -/
theorem met_fill (h : b.place ≠ c.place) : c.Met (b.fill d) ↔ c.Met d := by
  unfold Met
  rw [sections_fill]
  cases d.sections.get? c.sectionName with
  | none => rfl
  | some s =>
    show c.rule.Allows ((supplied c.sectionName s b).properties.get? c.key) ↔ _
    rw [get?_supplied_of_ne h]

/-- **What one demand fills in makes no difference to how another one is violated.** -/
theorem violated_fill (h : b.place ≠ c.place) : c.Violated (b.fill d) f ↔ c.Violated d f := by
  constructor
  · rintro (⟨hnone, hrequired⟩ | ⟨hs, hviolates⟩) <;> rw [sections_fill] at *
    · exact .section (Option.map_eq_none_iff.mp hnone) hrequired
    · obtain ⟨s, hget, rfl⟩ := Option.map_eq_some_iff.mp hs
      rw [get?_supplied_of_ne h] at hviolates
      rw [name_supplied]
      exact .property hget hviolates
  · rintro (⟨hnone, hrequired⟩ | ⟨hs, hviolates⟩)
    · exact .section (by rw [sections_fill, hnone]; rfl) hrequired
    · rw [← name_supplied c.sectionName _ b]
      refine .property (by rw [sections_fill, hs]; rfl) ?_
      rwa [get?_supplied_of_ne h]

/-! ## All demands -/

variable {cs : List Demand}

/-- **A document passes demands on different properties exactly if it meets them all**, and then they
    are all filled. -/
theorem forM_check_eq_ok_iff (h : (cs.map place).Nodup) :
    cs.forM check d = .ok () e ↔ (∀ c ∈ cs, c.Met d) ∧ e = cs.foldl fill d := by
  induction cs generalizing d with
  | nil =>
    show EStateM.Result.ok () d = _ ↔ _
    simp [eq_comm]
  | cons b cs ih =>
    obtain ⟨hb, hnodup⟩ := List.nodup_cons.mp h
    have hmet : (∀ c ∈ cs, c.Met (b.fill d)) ↔ ∀ c ∈ cs, c.Met d :=
      forall₂_congr fun c hc => met_fill fun heq => hb (heq ▸ List.mem_map_of_mem hc)
    show (b.check >>= fun _ => cs.forM check) d = _ ↔ _
    rw [bind_eq_ok, List.forall_mem_cons, List.foldl_cons, and_assoc, ← hmet, ← ih hnodup]
    constructor
    · rintro ⟨_, t, hcheck, hrest⟩
      obtain ⟨hb, rfl⟩ := check_eq_ok_iff.mp hcheck
      exact ⟨hb, hrest⟩
    · rintro ⟨hb, hrest⟩
      exact ⟨(), _, check_eq_ok_iff.mpr ⟨hb, rfl⟩, hrest⟩

/-- **A document fails demands on different properties exactly if it violates the first that it does
    not meet**, and then those before are filled. -/
theorem forM_check_eq_error_iff (h : (cs.map place).Nodup) :
    cs.forM check d = .error f e ↔ ∃ before c after, cs = before ++ c :: after ∧
      (∀ b ∈ before, b.Met d) ∧ c.Violated d f ∧ e = before.foldl fill d := by
  induction cs generalizing d with
  | nil =>
    refine ⟨fun h => (by cases h), ?_⟩
    rintro ⟨before, c, after, heq, -⟩
    cases before <;> cases heq
  | cons b cs ih =>
    obtain ⟨hb, hnodup⟩ := List.nodup_cons.mp h
    have hne : ∀ c ∈ cs, b.place ≠ c.place := fun c hc heq => hb (heq ▸ List.mem_map_of_mem hc)
    show (b.check >>= fun _ => cs.forM check) d = _ ↔ _
    rw [bind_eq_error]
    constructor
    · rintro (hcheck | ⟨_, t, hcheck, hrest⟩)
      · obtain ⟨hviolated, rfl⟩ := check_eq_error_iff.mp hcheck
        exact ⟨[], b, cs, rfl, fun _ h => absurd h List.not_mem_nil, hviolated, rfl⟩
      · -- the rest starts from the document with `b` filled in, which the other demands do not see
        obtain ⟨hmet, rfl⟩ := check_eq_ok_iff.mp hcheck
        obtain ⟨before, c, after, rfl, hbefore, hc, rfl⟩ := (ih hnodup).mp hrest
        refine ⟨b :: before, c, after, rfl, List.forall_mem_cons.mpr ⟨hmet, fun a ha => ?_⟩, ?_, rfl⟩
        · exact (met_fill (hne a (List.mem_append_left _ ha))).mp (hbefore a ha)
        · exact (violated_fill (hne c (by simp))).mp hc
    · rintro ⟨before, c, after, heq, hbefore, hc, rfl⟩
      cases before with
      | nil =>
        cases heq
        exact .inl (check_eq_error_iff.mpr ⟨hc, rfl⟩)
      | cons a before =>
        cases heq
        obtain ⟨hmet, hbefore⟩ := List.forall_mem_cons.mp hbefore
        refine .inr ⟨(), _, check_eq_ok_iff.mpr ⟨hmet, rfl⟩, (ih hnodup).mpr ⟨before, c, after, rfl,
          fun a' ha => ?_, ?_, rfl⟩⟩
        · exact (met_fill (hne a' (List.mem_append_left _ ha))).mpr (hbefore a' ha)
        · exact (violated_fill (hne c (by simp))).mpr hc

/-! ## What is filled in -/

/-- A property that no demand is about stays as it is. -/
theorem get?_foldl_supplied_of_not_mem {n k : String} (h : (n, k) ∉ cs.map place) (s : Section) :
    (cs.foldl (supplied n) s).properties.get? k = s.properties.get? k := by
  induction cs generalizing s with
  | nil => rfl
  | cons b cs ih =>
    obtain ⟨hb, hcs⟩ := not_or.mp (List.mem_cons.not.mp h)
    rw [List.foldl_cons, ih hcs, get?_supplied_of_ne (Ne.symm hb)]

/-- After all demands, a property is what it was, or if it was missing what its rule supplies. -/
theorem get?_foldl_supplied (h : (cs.map place).Nodup) (hc : c ∈ cs) (s : Section) :
    (cs.foldl (supplied c.sectionName) s).properties.get? c.key
      = (s.properties.get? c.key).or c.rule.supply? := by
  induction cs generalizing s with
  | nil => exact absurd hc List.not_mem_nil
  | cons b cs ih =>
    obtain ⟨hb, hnodup⟩ := List.nodup_cons.mp h
    rw [List.foldl_cons]
    rcases List.mem_cons.mp hc with rfl | hmem
    · rw [get?_foldl_supplied_of_not_mem hb, supplied, if_pos rfl, Section.get?_supply_self]
    · rw [ih hnodup hmem, get?_supplied_of_ne fun heq => hb (heq ▸ List.mem_map_of_mem hmem)]

/-- What the demand fills in, in the section `n`, if it is `s`. -/
def filling? (n : String) (s : Section) (c : Demand) : Option (String × Value) :=
  if c.sectionName = n ∧ s.properties.get? c.key = none then c.rule.supply?.map (c.key, ·) else none

/-- What demands fill in, in the section `n`, if it is `s`, in the order of the demands. -/
def fillings (n : String) (s : Section) (cs : List Demand) : Entries Value :=
  cs.filterMap (filling? n s)

/-- What a demand fills in comes behind the properties that are there. -/
theorem supplied_eq (n : String) (s : Section) (c : Demand) :
    ∃ u, supplied n s c = { s with properties := u } ∧
      u.entries = s.properties.entries ++ (filling? n s c).toList := by
  unfold supplied filling? Section.supply
  by_cases hn : c.sectionName = n
  · cases hkey : s.properties.get? c.key with
    | some v => exact ⟨s.properties, by simp [hn], by simp⟩
    | none =>
      cases c.rule.supply? with
      | none => exact ⟨s.properties, by simp [hn], by simp⟩
      | some v =>
        refine ⟨s.properties.insert c.key v, by simp [hn], ?_⟩
        rw [Table.entries_insert_of_not_mem (Table.get?_eq_none_iff.mp hkey)]
        simp [hn]
  · exact ⟨s.properties, by simp [hn], by simp [hn]⟩

/-- What demands fill in does not depend on a demand about another property. -/
theorem fillings_supplied {n : String} (h : b.place ∉ cs.map place) (s : Section) :
    fillings n (supplied n s b) cs = fillings n s cs := by
  refine List.filterMap_congr fun c hc => ?_
  unfold filling?
  by_cases hn : c.sectionName = n
  · have hne : b.place ≠ (n, c.key) := fun heq => h (List.mem_map.mpr ⟨c, hc, by rw [heq, ← hn]; rfl⟩)
    rw [get?_supplied_of_ne hne]
  · simp [hn]

/-- **What demands on different properties fill in** comes behind those that are there, in the order of the
    demands. -/
theorem foldl_supplied {n : String} (h : (cs.map place).Nodup) (s : Section) :
    ∃ u, cs.foldl (supplied n) s = { s with properties := u } ∧
      u.entries = s.properties.entries ++ fillings n s cs := by
  induction cs generalizing s with
  | nil => exact ⟨s.properties, rfl, (List.append_nil _).symm⟩
  | cons b cs ih =>
    obtain ⟨hb, hnodup⟩ := List.nodup_cons.mp h
    obtain ⟨u, hu, hentries⟩ := supplied_eq n s b
    obtain ⟨w, hw, hrest⟩ := ih hnodup (supplied n s b)
    refine ⟨w, ?_, ?_⟩
    · rw [List.foldl_cons, hw, hu]
    · rw [hrest, fillings_supplied hb, hu, hentries, List.append_assoc]
      congr 1
      show _ = List.filterMap _ _
      rw [List.filterMap_cons]
      cases filling? n s b <;> rfl

end Demand

open Demand in
/-- The document `e` is `d` with what the demands fill in, behind the properties that are there. -/
structure Document.Filled (cs : List Demand) (d e : Document) : Prop where
  macros : e.macros = d.macros
  schemas : e.schemas = d.schemas
  keys : e.sections.keys = d.sections.keys
  sections : ∀ n s, d.sections.get? n = some s →
    ∃ u, e.sections.get? n = some { s with properties := u } ∧
      u.entries = s.properties.entries ++ fillings n s cs

/-- A document is unchanged exactly if nothing is filled in. -/
theorem Document.Filled.eq_self_iff {cs : List Demand} {d e : Document} (h : Filled cs d e) :
    e = d ↔ ∀ n s, d.sections.get? n = some s → Demand.fillings n s cs = [] := by
  constructor
  · rintro rfl n s hs
    obtain ⟨u, hu, hentries⟩ := h.sections n s hs
    rw [hs, Option.some.injEq] at hu
    have hsame : s.properties = u := congrArg Section.properties hu
    rw [← hsame] at hentries
    exact List.self_eq_append_right.mp hentries
  · intro hnone
    obtain ⟨sections, macros, schemas⟩ := d
    obtain ⟨_, _, _⟩ := e
    obtain rfl := h.macros
    obtain rfl := h.schemas
    congr 1
    refine Table.ext_get? h.keys fun n => ?_
    cases hs : sections.get? n with
    | none => rwa [Table.get?_eq_none_iff, h.keys, ← Table.get?_eq_none_iff]
    | some s =>
      obtain ⟨u, hu, hentries⟩ := h.sections n s hs
      rw [hnone n s hs, List.append_nil] at hentries
      rw [hu, Table.ext hentries]

namespace Demand

variable {d e : Document} {f : Fault} {cs : List Demand}

/-- Each section gets what is filled in for it, one demand after the other. -/
theorem sections_foldl_fill (cs : List Demand) (d : Document) (n : String) :
    (cs.foldl fill d).sections.get? n = (d.sections.get? n).map (cs.foldl (supplied n)) := by
  induction cs generalizing d with
  | nil => exact (Option.map_id_apply).symm
  | cons b cs ih =>
    rw [List.foldl_cons, ih, sections_fill, Option.map_map]
    rfl

/-- Filling in brings in no sections. -/
theorem keys_foldl_fill (cs : List Demand) (d : Document) :
    (cs.foldl fill d).sections.keys = d.sections.keys := by
  induction cs generalizing d with
  | nil => rfl
  | cons c cs ih =>
    rw [List.foldl_cons, ih]
    cases hs : d.sections.get? c.sectionName with
    | none => rw [fill_of_missing hs]
    | some s =>
      rw [fill_of_present hs]
      refine Table.keys_insert_of_mem ?_
      by_contra hnone
      rw [Table.get?_eq_none_iff.mpr hnone] at hs
      cases hs

/-- Filling in changes neither macros nor schemas. -/
theorem tables_foldl_fill (cs : List Demand) (d : Document) :
    (cs.foldl fill d).macros = d.macros ∧ (cs.foldl fill d).schemas = d.schemas := by
  induction cs generalizing d with
  | nil => exact ⟨rfl, rfl⟩
  | cons c cs ih => exact ih (c.fill d)

/-- **All demands together** fill in what each of them does. -/
theorem filled_foldl_fill (h : (cs.map place).Nodup) (d : Document) :
    Document.Filled cs d (cs.foldl fill d) where
  macros := (tables_foldl_fill cs d).1
  schemas := (tables_foldl_fill cs d).2
  keys := keys_foldl_fill cs d
  sections n s hs := by
    obtain ⟨u, hu, hentries⟩ := foldl_supplied (n := n) h s
    exact ⟨u, by rw [sections_foldl_fill, hs, ← hu]; rfl, hentries⟩

/-- If no demand fills in anything, nothing changes. -/
theorem foldl_fill_eq_self (h : ∀ c ∈ cs, c.fill d = d) : cs.foldl fill d = d := by
  induction cs with
  | nil => rfl
  | cons c cs ih =>
    obtain ⟨hc, hcs⟩ := List.forall_mem_cons.mp h
    rw [List.foldl_cons, hc, ih hcs]

/-! ## Schemas are lists of demands -/

/-- The demands of one schema section. -/
def ofRules (name : String) (rules : Entries Value) : List Demand :=
  rules.map fun (key, rule) => ⟨name, key, rule⟩

theorem demandsOf_cons (name : String) (schema : Section) (rest : Entries Section) :
    demandsOf ((name, schema) :: rest) = ofRules name schema.properties.entries ++ demandsOf rest := rfl

/-- The demands on a section that is missing fail as one, if one of them needs it. -/
theorem forM_check_of_missing {name : String} (hs : d.sections.get? name = none)
    (rules : Entries Value) :
    (ofRules name rules).forM check d =
      if (rules.map Prod.snd).any Value.isRequiredRule
        then .error (.validation .missingSection name) d
        else .ok () d := by
  induction rules with
  | nil => rfl
  | cons e rules ih =>
    show (check ⟨name, e.1, e.2⟩ >>= fun _ => (ofRules name rules).forM check) d = _
    have hcheck := check_of_missing (c := ⟨name, e.1, e.2⟩) hs
    rw [List.map_cons, List.any_cons]
    cases hrequired : e.2.isRequiredRule with
    | true =>
      rw [hrequired, if_pos rfl] at hcheck
      rw [Bool.true_or, if_pos rfl, bind_eq_error]
      exact .inl hcheck
    | false =>
      simp only [hrequired, if_neg Bool.false_ne_true] at hcheck
      rw [bind_of_ok hcheck, ih, Bool.false_or]

/-- The demands on a section that is there are its rules, with the section put back after each. -/
theorem forM_check_of_present {name : String} {s : Section} (hs : d.sections.get? name = some s)
    (rules : Entries Value) :
    (ofRules name rules).forM check d
      = match checkRules rules s with
        | .ok _ t => .ok () { d with sections := d.sections.insert name t }
        | .error fault t => .error fault { d with sections := d.sections.insert name t } := by
  induction rules generalizing d s with
  | nil =>
    show EStateM.Result.ok () d = .ok () { d with sections := d.sections.insert name s }
    rw [Table.insert_of_get? hs]
  | cons e rules ih =>
    obtain ⟨key, rule⟩ := e
    show (check ⟨name, key, rule⟩ >>= fun _ => (ofRules name rules).forM check) d = _
    have hcheck := check_of_present (c := ⟨name, key, rule⟩) hs
    rw [checkRules, get_bind]
    -- one rule changes the section or refuses it; the induction goes on with the section as it is then
    cases hrule : s.checkRule key rule with
    | error violation =>
      simp only [hrule] at hcheck
      rw [bind_eq_error.mpr (.inl hcheck)]
      show _ = EStateM.Result.error _ { d with sections := d.sections.insert name s }
      rw [Table.insert_of_get? hs]
    | ok t =>
      simp only [hrule] at hcheck
      rw [bind_of_ok hcheck, ih (Table.get?_insert_self _ _ _)]
      show _ = match checkRules rules t with
        | .ok _ t => _
        | .error fault t => _
      cases checkRules rules t <;> simp only [Table.insert_insert]

/-- Checking a schema section is checking its demands. -/
theorem checkSchema_eq (name : String) (schema : Section) :
    checkSchema name schema = (ofRules name schema.properties.entries).forM check := by
  funext d
  rw [checkSchema, get_bind]
  cases hs : d.sections.get? name with
  | none =>
    rw [forM_check_of_missing hs]
    show (if (schema.properties.entries.map Prod.snd).any Value.isRequiredRule then _ else _ :
      EStateM Fault Document Unit) d = _
    split <;> rfl
  | some s =>
    rw [forM_check_of_present hs]
    show (match checkRules schema.properties.entries s with
      | .ok _ t => _
      | .error fault t => _ : EStateM Fault Document Unit) d = _
    cases checkRules schema.properties.entries s <;> rfl

/-- **Checking a document against schema sections is checking their demands one after the other.** -/
theorem checkSchemas_eq (schemas : Entries Section) :
    checkSchemas schemas = (demandsOf schemas).forM check := by
  induction schemas with
  | nil => rfl
  | cons e rest ih =>
    show (checkSchema e.1 e.2 >>= fun _ => checkSchemas rest)
      = forM (ofRules e.1 e.2.properties.entries ++ demandsOf rest) check
    rw [List.forM_append, checkSchema_eq, ih]
    rfl

/-- The demands of schema sections are the rules in them. -/
theorem mem_demandsOf {schemas : Entries Section} {c : Demand} : c ∈ demandsOf schemas ↔
    ∃ schema, (c.sectionName, schema) ∈ schemas ∧ (c.key, c.rule) ∈ schema.properties.entries := by
  simp only [demandsOf, List.mem_flatMap, List.mem_map, Prod.exists]
  constructor
  · rintro ⟨name, schema, hschema, key, rule, hrule, rfl⟩
    exact ⟨schema, hschema, hrule⟩
  · rintro ⟨schema, hschema, hrule⟩
    exact ⟨c.sectionName, schema, hschema, c.key, c.rule, hrule, rfl⟩

/-- The demands of a document are on different properties. -/
theorem nodup_place_demandsOf {schemas : Entries Section} (h : schemas.keys.Nodup) :
    ((demandsOf schemas).map place).Nodup := by
  induction schemas with
  | nil => exact List.nodup_nil
  | cons e rest ih =>
    obtain ⟨name, schema⟩ := e
    obtain ⟨hname, hrest⟩ := List.nodup_cons.mp h
    rw [demandsOf_cons, List.map_append]
    -- rules of one schema differ in the key, and those of two schemas in the section
    refine List.nodup_append.mpr ⟨?_, ih hrest, fun a ha b hb heq => ?_⟩
    · refine List.Nodup.of_map Prod.snd ?_
      rw [ofRules, List.map_map, List.map_map]
      exact schema.properties.nodup_keys
    · obtain ⟨c, hc, rfl⟩ := List.mem_map.mp hb
      obtain ⟨_, hother, -⟩ := mem_demandsOf.mp hc
      rw [ofRules, List.map_map] at ha
      obtain ⟨e, -, rfl⟩ := List.mem_map.mp ha
      exact hname (List.mem_map.mpr ⟨_, hother, (congrArg Prod.fst heq).symm⟩)

end Demand

end Yini
