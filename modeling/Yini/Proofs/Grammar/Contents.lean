import Yini.Proofs.Document
import Yini.Proofs.Grammar.Pace
import Yini.Proofs.Merge

/-!
What the values of a document hold.

A document that is read holds expressions, and in the properties of its schemas rules with expressions in
them.  So what every expression has, and every rule, the values of a document have, whatever pace its source
is read at (`leads_document`).
-/

namespace Yini

/-! ## Where values stand -/

section Consists

variable {R X Y : Value → Prop} {s t : Section} {d : Document}

/-- What the values of a section have: its properties `R`, and what is in its registry `X`. -/
structure Section.Consists (R X : Value → Prop) (s : Section) : Prop where
  properties : ∀ e ∈ s.properties.entries, R e.2
  registry : ∀ v ∈ s.registry, X v

/-- A value of a section is one of its properties, or it is in its registry. -/
theorem Section.Consists.mem_contents (h : s.Consists R X) {v : Value} (hv : v ∈ s.contents) : R v ∨ X v := by
  rcases List.mem_append.mp hv with hv | hv
  · obtain ⟨e, he, rfl⟩ := List.mem_map.mp hv
    exact .inl (h.properties e he)
  · exact .inr (h.registry v hv)

/-- A section that is declared again holds what both declarations hold. -/
theorem Section.Consists.merge (hs : s.Consists R X) (ht : t.Consists R X) : (s.merge t).Consists R X where
  properties := Entries.forall_mem_insertAll ht.properties hs.properties
  registry v hv := (List.mem_append.mp hv).elim (hs.registry v) (ht.registry v)

/-- One more declaration leaves every section of a table with what sections have. -/
theorem Document.consists_declare {table : Table Section} (htable : ∀ t ∈ table.values, t.Consists R X)
    (hs : s.Consists R X) : ∀ t ∈ (declare table s).values, t.Consists R X := by
  intro t ht
  obtain ⟨n, hn⟩ := Table.mem_values_iff.mp ht
  rcases get?_declare_cases hn with hn | ⟨-, rfl | ⟨first, hfirst, rfl⟩⟩
  · exact htable t (Table.mem_values_iff.mpr ⟨n, hn⟩)
  · exact hs
  · exact (htable first (Table.mem_values_iff.mpr ⟨n, hfirst⟩)).merge hs

/-- **What the values of a document have, by where they stand**: the properties of its schemas have `R`, and
    all other values `X`.  There are no macros in it. -/
structure Document.Consists (R X : Value → Prop) (d : Document) : Prop where
  sections : ∀ s ∈ d.sections.values, s.Consists X X
  schemas : ∀ s ∈ d.schemas.values, s.Consists R X
  macros : d.macros = ∅

namespace Document

/-- The empty document holds nothing. -/
theorem consists_empty : empty.Consists R X := ⟨List.forall_mem_nil _, List.forall_mem_nil _, rfl⟩

/-- A section adds what it holds. -/
theorem Consists.insertSection (h : d.Consists R X) (hs : s.Consists X X) : (d.insertSection s).Consists R X :=
  ⟨consists_declare h.sections hs, h.schemas, h.macros⟩

/-- A schema adds what it holds. -/
theorem Consists.insertSchema (h : d.Consists R X) (hs : s.Consists R X) : (d.insertSchema s).Consists R X :=
  ⟨h.sections, consists_declare h.schemas hs, h.macros⟩

/-- What rules and all other values have, all values of a document have. -/
theorem Consists.forall_values (h : d.Consists R X) (hR : ∀ v, R v → Y v) (hX : ∀ v, X v → Y v) :
    ∀ v ∈ d.values, Y v := by
  intro v hv
  rcases mem_values.mp hv with (⟨s, hs, hv⟩ | ⟨s, hs, hv⟩) | hv
  · exact hX v ((h.sections s hs).mem_contents hv |>.elim id id)
  · exact ((h.schemas s hs).mem_contents hv).elim (hR v) (hX v)
  · rw [h.macros] at hv
    cases hv

end Document

end Consists

namespace Grammar

variable {K : Pace} {R X : Value → Prop}

/-! ## Rules -/

/-- The values in a rule have a property. -/
def Holding (X : Value → Prop) (r : Rule) : Prop := ∀ v, v ∈ r.fallback ∨ v ∈ r.lower ∨ v ∈ r.upper → X v

section Rules

variable (h : Leads K expression fun v _ => X v)

include h

/-- A mark of a rule adds at most one expression to what the rule holds. -/
theorem leads_ruleMark {r : Rule} (hr : Holding X r) : Leads K (ruleMark r) fun r _ => Holding X r := by
  -- the expression behind a mark takes one of the three places
  have hvalue {g : Value → Rule} (hg : ∀ v, X v → Holding X (g v)) :
      Leads K (do return g (← expression)) fun r _ => Holding X r :=
    h.bind fun v _ hv => leads_pure (hg v hv)
  refine passes_peek.then fun t => ?_
  dsimp only
  split
  · exact passes_bump.then fun _ => leads_pure hr
  · exact passes_bump.then fun _ => leads_pure hr
  · exact passes_bump.then fun _ => leads_pure hr
  · refine passes_bump.then fun _ => hvalue fun v hv u hu => ?_
    rcases hu with hu | hu
    · cases hu
      exact hv
    · exact hr u (.inr hu)
  · refine passes_get.then fun p => passes_bump.then fun _ => ?_
    split
    · exact leads_pure hr
    split
    · refine passes_bump.then fun _ => hvalue fun v hv u hu => ?_
      rcases hu with hu | hu | hu
      · exact hr u (.inl hu)
      · cases hu
        exact hv
      · exact hr u (.inr (.inr hu))
    split
    · refine passes_bump.then fun _ => hvalue fun v hv u hu => ?_
      rcases hu with hu | hu | hu
      · exact hr u (.inl hu)
      · exact hr u (.inr (.inl hu))
      · cases hu
        exact hv
    · exact (passes_elementType _).then fun _ => leads_pure hr
  · exact leads_fail

/-- Mark by mark, the rule so far holds expressions. -/
theorem leads_ruleMarks (bound : Nat) {r : Rule} (hr : Holding X r) :
    Leads K (ruleMarks bound r) fun r _ => Holding X r := by
  induction bound generalizing r with
  | zero => exact leads_pure hr
  | succ bound ih =>
    refine (leads_ruleMark h hr).bind fun r' _ hr' => (passes_eat _).then fun more => ?_
    cases more with
    | true => exact ih hr'
    | false => exact leads_pure hr'

/-- **What is read as a rule** is a rule that holds expressions. -/
theorem leads_rule : Leads K rule fun v _ => ∃ r span, v = Rule.toValue r span ∧ Holding X r := by
  refine passes_here.then fun span => passes_remaining.then fun bound => ?_
  have hstart : Holding X {} := by
    rintro v (hv | hv | hv) <;> cases hv
  exact (leads_ruleMarks h (bound + 1) hstart).bind fun r _ hr => leads_pure ⟨r, span, rfl, hr⟩

end Rules

/-! ## Sections -/

section Sections

variable (h : Leads K expression fun v _ => X v) {value : Grammar Value} (hvalue : Leads K value fun v _ => R v)

include h hvalue

/-- The entries of a body: at each of them, what has been read holds what it should. -/
theorem leads_bodyFrom (bound : Nat) {b : Body} (hproperties : ∀ e ∈ b.properties.entries, R e.2)
    (hregistry : ∀ v ∈ b.registry, X v) :
    Leads K (bodyFrom value bound b) fun b _ =>
      (∀ e ∈ b.properties.entries, R e.2) ∧ ∀ v ∈ b.registry, X v := by
  induction bound generalizing b with
  | zero => exact leads_pure ⟨hproperties, hregistry⟩
  | succ bound ih =>
    refine passes_peek.then fun t => ?_
    split
    · exact leads_pure ⟨hproperties, hregistry⟩
    · exact leads_pure ⟨hproperties, hregistry⟩
    · refine passes_bump.then fun _ => h.bind fun v _ hv => ?_
      exact ih hproperties (List.forall_mem_cons.mpr ⟨hv, hregistry⟩)
    · refine passes_here.then fun span => passes_bump.then fun _ => (passes_expect _ _).then fun _ => ?_
      refine hvalue.bind fun v _ hv => ih (fun e he => ?_) hregistry
      rcases Entries.mem_insert he with he | rfl
      · exact hproperties e he
      · exact hv
    · exact leads_fail

/-- A section: its properties are what `value` reads, and its registry holds expressions. -/
theorem leads_sectionWith (name : String) (ps : List String) (span : Span) :
    Leads K (sectionWith value name ps span) fun s _ => s.Consists R X := by
  refine passes_remaining.then fun bound => ?_
  refine (leads_bodyFrom h hvalue (bound + 1) (List.forall_mem_nil _) (List.forall_mem_nil _)).bind ?_
  exact fun b _ hb => leads_pure ⟨hb.1, fun v hv => hb.2 v (List.mem_reverse.mp hv)⟩

end Sections

/-! ## Documents -/

section Documents

variable (h : Leads K expression fun v _ => X v) (hrule : Leads K rule fun v _ => R v) {d : Document}

include h

/-- A section with a special meaning never holds rules. -/
theorem leads_specialSection (hd : d.Consists R X) : Leads K (specialSection d) fun d _ => d.Consists R X := by
  refine passes_here.then fun span => passes_bump.then fun _ => (passes_expectName _).then fun name => ?_
  refine (passes_expect _ _).then fun _ => ?_
  dsimp only
  split
  · refine passes_peek.then fun t => ?_
    split
    · exact (passes_turn _).then fun _ => leads_pure hd
    · exact (passes_turn _).then fun _ => leads_pure hd
    · exact leads_fail_bind
  · split
    · exact (leads_sectionWith h h _ _ _).bind fun s _ hs => leads_pure (hd.insertSection hs)
    · exact leads_throw

include hrule

/-- A section with a name of its own holds rules only between the markers of schemas. -/
theorem leads_namedSection (hd : d.Consists R X) : Leads K (namedSection d) fun d _ => d.Consists R X := by
  refine (passes_expectName _).then fun name => (passes_expect _ _).then fun _ => ?_
  refine passes_parents.then fun ps => passes_get.then fun p => ?_
  split
  · exact (leads_sectionWith h hrule _ _ _).bind fun s _ hs => leads_pure (hd.insertSchema hs)
  · exact (leads_sectionWith h h _ _ _).bind fun s _ hs => leads_pure (hd.insertSection hs)

/-- Section by section, what has been read holds what it should. -/
theorem leads_sectionsFrom (bound : Nat) (hd : d.Consists R X) :
    Leads K (sectionsFrom bound d) fun d _ => d.Consists R X := by
  induction bound generalizing d with
  | zero => exact leads_pure hd
  | succ bound ih =>
    refine passes_peek.then fun t => ?_
    dsimp only
    split
    · exact leads_pure hd
    · refine passes_bump.then fun _ => (passes_sees _).then fun special => ?_
      cases special with
      | true => exact (leads_specialSection h hd).bind fun d' _ hd' => ih hd'
      | false => exact (leads_namedSection h hrule hd).bind fun d' _ hd' => ih hd'
    · exact leads_fail

/-- **The values of a document** are what is read as rules, in the properties of its schemas, and what is
    read as expressions everywhere else. -/
theorem leads_document : Leads K document fun d _ => d.Consists R X :=
  passes_remaining.then fun bound => leads_sectionsFrom h hrule (bound + 1) Document.consists_empty

omit hrule in
/-- An expression that stands alone is one. -/
theorem leads_loneExpression : Leads K loneExpression fun v _ => X v := by
  refine h.bind fun v _ hv => passes_peek.then fun t => ?_
  split
  · exact leads_pure hv
  · exact leads_fail

end Documents

end Grammar

end Yini
