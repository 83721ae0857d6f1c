import Yini.Proofs.Grammar.Reading

/-!
What a document that has been read is made of: sections and schema sections with legible contents,
inserted one after the other (`Document.ofSource_induction`).  So it holds no macros, every section
stands under its own name, and nothing in it could not be written (`Document.read_of_ofSource`).
-/

namespace Yini

namespace Grammar

variable {k : Scene} {p q : Parser} {w : Word} {ws : List Word}

/-- What a rule gives has a property, and the rest can be read further. -/
def Keeps (x : Grammar α) (P : α → Prop) : Prop :=
  ∀ {k p ws a q}, p.Faces k ws → x p = .ok a q → ∃ rest, q.Faces k rest ∧ P a

theorem keeps_expression : Keeps expression (Value.Legible true) := by
  intro k p ws v q hp hrun
  obtain ⟨_, rest, -, hq, -, hlegible⟩ := takes_expression hp hrun
  exact ⟨rest, hq, hlegible⟩

/-! ## Rules -/

/-- What is read as the type of the elements is the name of a type. -/
theorem keeps_elementType {name : String} (hname : IsName name) (hword : name ≠ "e") :
    Keeps (elementType name) IsTypeName := by
  intro k p ws t q hp hrun
  rw [elementType, sees_bind hp, get_bind] at hrun
  split at hrun
  next hopen =>
    rw [Bool.and_eq_true] at hopen
    obtain ⟨opening, ws, rfl, hopening⟩ := cons_of_front (by simpa using hopen.1) Token.noConfusion
    rw [bump_bind] at hrun
    obtain ⟨w, ws, element, _, rfl, hw, hp₂, hrun⟩ := expectName_ok hp.advance hrun
    obtain ⟨close, ws, rfl, -, hp₃, hrun⟩ := expect_ok hp₂ hrun
    cases hrun
    exact ⟨ws, hp₃, name, hname, hword,
      .inr ⟨element, isName_of_cut hp.advance.cut hw, rfl⟩⟩
  next =>
    cases hrun
    exact ⟨ws, hp, name, hname, hword, .inl rfl⟩

/-- The expression behind the mark of a default value or a bound. -/
theorem keeps_ruleValue {f : Value → Rule} (hf : ∀ v, v.Legible true → (f v).Legible true) :
    Keeps (do return f (← expression)) (Rule.Legible true) := by
  intro k p ws r q hp hrun
  obtain ⟨v, q₁, hv, hrun⟩ := bind_eq_ok.mp hrun
  obtain ⟨rest, hq, hlegible⟩ := keeps_expression hp hv
  cases hrun
  exact ⟨rest, hq, hf v hlegible⟩

theorem keeps_ruleMark {r : Rule} (hr : r.Legible true) :
    Keeps (ruleMark r) (Rule.Legible true) := by
  intro k p ws r' q hp hrun
  rw [ruleMark, peek_bind hp] at hrun
  -- one mark changes one member of the rule; all the others are as legible as before
  generalize ht : front ws = t at hrun
  have hfront : t ≠ .finish → ∃ w ws', ws = w :: ws' ∧ w.token = t := cons_of_front ht
  split at hrun
  next =>
    obtain ⟨w, ws, rfl, -⟩ := hfront Token.noConfusion
    cases hrun
    exact ⟨ws, hp.advance, hr.typeName, hr.fill, hr.fallback, hr.lower, hr.upper⟩
  next =>
    obtain ⟨w, ws, rfl, -⟩ := hfront Token.noConfusion
    cases hrun
    exact ⟨ws, hp.advance, hr.typeName, hr.fill, hr.fallback, hr.lower, hr.upper⟩
  next =>
    obtain ⟨w, ws, rfl, -⟩ := hfront Token.noConfusion
    cases hrun
    exact ⟨ws, hp.advance, hr.typeName, nofun, hr.fallback, hr.lower, hr.upper⟩
  next =>
    obtain ⟨w, ws, rfl, -⟩ := hfront Token.noConfusion
    refine keeps_ruleValue (fun v hv => ?_) hp.advance hrun
    exact ⟨hr.typeName, fun _ => rfl, fun u hu => by cases hu; exact hv, hr.lower, hr.upper⟩
  next word =>
    obtain ⟨w, ws, rfl, hw⟩ := hfront Token.noConfusion
    have hword := isName_of_cut hp.cut hw
    rw [get_bind, bump_bind, hp.second, List.tail_cons] at hrun
    split at hrun
    next =>
      cases hrun
      exact ⟨ws, hp.advance, hr.typeName, nofun, hr.fallback, hr.lower, hr.upper⟩
    next he =>
      split at hrun
      next hmin =>
        obtain ⟨w', ws, rfl, -⟩ := cons_of_front (by simpa using hmin.2) Token.noConfusion
        refine keeps_ruleValue (fun v hv => ?_) hp.advance.advance hrun
        exact ⟨hr.typeName, hr.fill, hr.fallback, fun u hu => by cases hu; exact hv, hr.upper⟩
      next =>
        split at hrun
        next hmax =>
          obtain ⟨w', ws, rfl, -⟩ := cons_of_front (by simpa using hmax.2) Token.noConfusion
          refine keeps_ruleValue (fun v hv => ?_) hp.advance.advance hrun
          exact ⟨hr.typeName, hr.fill, hr.fallback, hr.lower, fun u hu => by cases hu; exact hv⟩
        next =>
          obtain ⟨typeName, q₁, htype, hrun⟩ := bind_eq_ok.mp hrun
          obtain ⟨rest, hq, hlegible⟩ := keeps_elementType hword he hp.advance htype
          cases hrun
          exact ⟨rest, hq, fun t ht => by cases ht; exact hlegible, hr.fill, hr.fallback,
            hr.lower, hr.upper⟩
  next => cases hrun

/-- **Marks keep the rule legible**, one after the other. -/
theorem keeps_ruleMarks {n : Nat} {r : Rule} (hr : r.Legible true) :
    Keeps (ruleMarks n r) (Rule.Legible true) := by
  induction n generalizing r with
  | zero =>
    intro k p ws r' q hp hrun
    cases hrun
    exact ⟨ws, hp, hr⟩
  | succ n ih =>
    intro k p ws r' q hp hrun
    obtain ⟨r₁, q₁, hmark, hrun⟩ := bind_eq_ok.mp hrun
    obtain ⟨rest, hq₁, hr₁⟩ := keeps_ruleMark hr hp hmark
    rcases eat_cases hq₁ hrun with ⟨w, rest, rfl, -, hq₂, hrun⟩ | ⟨-, hrun⟩
    · exact ih hr₁ hq₂ hrun
    · cases hrun
      exact ⟨rest, hq₁, hr₁⟩

/-- **What is read as a rule** is a legible rule. -/
theorem keeps_rule : Keeps rule (Value.LegibleRule true) := by
  intro k p ws v q hp hrun
  rw [rule, here_bind, remaining_bind hp] at hrun
  obtain ⟨r, q₁, hr, hend⟩ := bind_eq_ok.mp hrun
  have hstart : Rule.Legible true {} := ⟨nofun, nofun, nofun, nofun, nofun⟩
  obtain ⟨rest, hq, hlegible⟩ := keeps_ruleMarks hstart hp hr
  cases hend
  exact ⟨rest, hq, r, _, rfl, hlegible⟩

/-! ## Sections -/

/-- **The names of parents are names**, those that have been read and each one more. -/
theorem keeps_parentsFrom {n : Nat} {before : List String} (hbefore : ∀ p ∈ before, IsName p) :
    Keeps (parentsFrom n before) fun ps => ∀ p ∈ ps, IsName p := by
  induction n generalizing before with
  | zero =>
    intro k p ws ps q hp hrun
    cases hrun
    exact ⟨ws, hp, by simpa using hbefore⟩
  | succ n ih =>
    intro k p ws ps q hp hrun
    rw [parentsFrom] at hrun
    obtain ⟨w, ws, name, _, rfl, hw, hp₁, hrun⟩ := expectName_ok hp hrun
    have hmore : ∀ p ∈ name :: before, IsName p :=
      List.forall_mem_cons.mpr ⟨isName_of_cut hp.cut hw, hbefore⟩
    rcases eat_cases hp₁ hrun with ⟨w', ws, rfl, -, hp₂, hrun⟩ | ⟨-, hrun⟩
    · exact ih hmore hp₂ hrun
    · cases hrun
      exact ⟨ws, hp₁, fun p hp => hmore p (List.mem_reverse.mp hp)⟩

theorem keeps_parents : Keeps parents fun ps => ∀ p ∈ ps, IsName p := by
  intro k p ws ps q hp hrun
  rw [parents] at hrun
  rcases eat_cases hp hrun with ⟨w, ws, rfl, -, hp₁, hrun⟩ | ⟨-, hrun⟩
  · rw [if_pos rfl, remaining_bind hp₁] at hrun
    exact keeps_parentsFrom (fun _ h => absurd h List.not_mem_nil) hp₁ hrun
  · cases hrun
    exact ⟨ws, hp, fun _ h => absurd h List.not_mem_nil⟩

/-- The entries that have been read are legible. -/
structure Body.Legible (P : Value → Prop) (b : Body) : Prop where
  names : ∀ e ∈ b.properties.entries, IsName e.1
  properties : ∀ e ∈ b.properties.entries, P e.2
  registry : ∀ v ∈ b.registry, v.Legible true

/-- **Lines keep the body of a section legible**, one after the other. -/
theorem keeps_bodyFrom {value : Grammar Value} {P : Value → Prop} (h : Keeps value P)
    {n : Nat} {b : Body} (hb : b.Legible P) : Keeps (bodyFrom value n b) (Body.Legible P) := by
  induction n generalizing b with
  | zero =>
    intro k p ws b' q hp hrun
    cases hrun
    exact ⟨ws, hp, hb⟩
  | succ n ih =>
    intro k p ws b' q hp hrun
    rw [bodyFrom, peek_bind hp] at hrun
    generalize ht : front ws = t at hrun
    have hfront : t ≠ .finish → ∃ w ws', ws = w :: ws' ∧ w.token = t := cons_of_front ht
    split at hrun
    next => cases hrun; exact ⟨ws, hp, hb⟩
    next => cases hrun; exact ⟨ws, hp, hb⟩
    next =>
      obtain ⟨w, ws, rfl, -⟩ := hfront Token.noConfusion
      rw [bump_bind] at hrun
      obtain ⟨v, q₁, hv, hrun⟩ := bind_eq_ok.mp hrun
      obtain ⟨rest, hq₁, hlegible⟩ := keeps_expression hp.advance hv
      refine ih (b := { b with registry := v :: b.registry }) ⟨hb.names, hb.properties, ?_⟩ hq₁ hrun
      exact List.forall_mem_cons.mpr ⟨hlegible, hb.registry⟩
    next key =>
      obtain ⟨w, ws, rfl, hw⟩ := hfront Token.noConfusion
      rw [here_bind, bump_bind] at hrun
      obtain ⟨w', ws, rfl, -, hp₂, hrun⟩ := expect_ok hp.advance hrun
      obtain ⟨v, q₁, hv, hrun⟩ := bind_eq_ok.mp hrun
      obtain ⟨rest, hq₁, hlegible⟩ := h hp₂ hv
      refine ih (b := { b with properties := b.properties.insert key v, keySpans := _ })
        ⟨fun e he => ?_, fun e he => ?_, hb.registry⟩ hq₁ hrun
      · -- the key is the text of a name, for it has been cut out as one
        rcases Entries.mem_insert he with he | rfl
        · exact hb.names e he
        · exact isName_of_cut hp.cut hw
      · rcases Entries.mem_insert he with he | rfl
        · exact hb.properties e he
        · exact hlegible
    next => cases hrun

/-- The section of a header has its name and its parents, and is legible. -/
theorem keeps_sectionWith {value : Grammar Value} {P : Value → Prop} (h : Keeps value P)
    {name : String} {ps : List String} (hps : ∀ p ∈ ps, IsName p) (span : Span) :
    Keeps (sectionWith value name ps span) fun s =>
      s.name = name ∧ s.parents = ps ∧ s.Legible P (Value.Legible true) := by
  intro k p ws s q hp hrun
  rw [sectionWith, remaining_bind hp] at hrun
  obtain ⟨b, q₁, hb, hend⟩ := bind_eq_ok.mp hrun
  have hstart : Body.Legible P {} := ⟨nofun, nofun, nofun⟩
  obtain ⟨rest, hq, hlegible⟩ := keeps_bodyFrom h hstart hp hb
  cases hend
  exact ⟨rest, hq, rfl, rfl, hps, hlegible.names, hlegible.properties,
    by simpa using hlegible.registry⟩

/-- A section with a name of its own is inserted, as rules or as values. -/
theorem namedSection_cases {d d' : Document} (hp : p.Faces k ws) (h : namedSection d p = .ok d' q) :
    ∃ rest s, q.Faces k rest ∧ (d' = d.insertSection s ∧ s.ReadValues ∨
      d' = d.insertSchema s ∧ s.ReadRules) := by
  rw [namedSection] at h
  obtain ⟨w, ws, name, span, rfl, hw, hp₁, h⟩ := expectName_ok hp h
  have hname := isName_of_cut hp.cut hw
  dsimp only at h
  obtain ⟨close, ws, rfl, -, hp₂, h⟩ := expect_ok hp₁ h
  obtain ⟨ps, p₃, hps, h⟩ := bind_eq_ok.mp h
  obtain ⟨rest, hp₃, hparents⟩ := keeps_parents hp₂ hps
  rw [get_bind] at h
  split at h
  · obtain ⟨s, p₄, hs, hend⟩ := bind_eq_ok.mp h
    obtain ⟨rest, hp₄, hheader, -, hlegible⟩ := keeps_sectionWith keeps_rule hparents span hp₃ hs
    cases hend
    exact ⟨rest, s, hp₄, .inr ⟨rfl, hlegible, by rwa [hheader]⟩⟩
  · obtain ⟨s, p₄, hs, hend⟩ := bind_eq_ok.mp h
    obtain ⟨rest, hp₄, hheader, -, hlegible⟩ := keeps_sectionWith keeps_expression hparents span hp₃ hs
    cases hend
    exact ⟨rest, s, hp₄, .inl ⟨rfl, hlegible, .inl (by rwa [hheader])⟩⟩

/-- A section with a special meaning is inserted; a marker adds nothing. -/
theorem specialSection_cases {d d' : Document} (hp : p.Faces k ws) (hhash : front ws = .mark .hash)
    (h : specialSection d p = .ok d' q) :
    ∃ k' rest, q.Faces k' rest ∧ (d' = d ∨ ∃ s, d' = d.insertSection s ∧ s.ReadValues) := by
  obtain ⟨w, ws, rfl, -⟩ := cons_of_front hhash Token.noConfusion
  rw [specialSection, here_bind, bump_bind] at h
  obtain ⟨_, ws, name, _, rfl, -, hp₂, h⟩ := expectName_ok hp.advance h
  dsimp only at h
  obtain ⟨close, ws, rfl, -, hp₃, h⟩ := expect_ok hp₂ h
  split at h
  · -- a marker changes nothing but the kind of the sections to come
    rw [peek_bind hp₃] at h
    generalize front ws = t at h
    split at h
    · cases h
      exact ⟨_, ws, hp₃.turn _, .inl rfl⟩
    · cases h
      exact ⟨_, ws, hp₃.turn _, .inl rfl⟩
    · cases h
  · split at h
    next hname =>
      obtain ⟨s, p₄, hs, hend⟩ := bind_eq_ok.mp h
      have hnone : ∀ p ∈ ([] : List String), IsName p := fun _ h => absurd h List.not_mem_nil
      obtain ⟨rest, hp₄, hheader, hparents, hlegible⟩ :=
        keeps_sectionWith keeps_expression hnone _ hp₃ hs
      cases hend
      refine ⟨k, rest, hp₄, .inr ⟨s, rfl, hlegible, .inr ⟨?_, hparents⟩⟩⟩
      rw [hheader]
      exact hname.imp (congrArg ("#" ++ ·)) (congrArg ("#" ++ ·))
    · cases h

/-- What inserting a section keeps holds of all that is read. -/
theorem sectionsFrom_induction {motive : Document → Prop}
    (data : ∀ d s, s.ReadValues → motive d → motive (d.insertSection s))
    (rules : ∀ d s, s.ReadRules → motive d → motive (d.insertSchema s)) {n : Nat} :
    ∀ {k : Scene} {p q : Parser} {ws : List Word} {d d' : Document}, p.Faces k ws →
      sectionsFrom n d p = .ok d' q → motive d → motive d' := by
  induction n with
  | zero =>
    intro k p q ws d d' _ h hd
    cases h
    exact hd
  | succ n ih =>
    intro k p q ws d d' hp h hd
    rw [sectionsFrom, peek_bind hp] at h
    generalize ht : front ws = t at h
    split at h
    next => cases h; exact hd
    next =>
      obtain ⟨w, ws, rfl, -⟩ := cons_of_front ht Token.noConfusion
      rw [bump_bind, sees_bind hp.advance] at h
      split at h
      next hhash =>
        obtain ⟨d₁, p₁, hsection, h⟩ := bind_eq_ok.mp h
        obtain ⟨k', rest, hp₁, hcases⟩ :=
          specialSection_cases hp.advance (by simpa using hhash) hsection
        refine ih hp₁ h ?_
        -- the mark that begins the schemas is no section: it only changes the mode
        rcases hcases with rfl | ⟨s, rfl, hs⟩
        · exact hd
        · exact data d s hs hd
      next =>
        obtain ⟨d₁, p₁, hsection, h⟩ := bind_eq_ok.mp h
        obtain ⟨rest, s, hp₁, ⟨rfl, hs⟩ | ⟨rfl, hs⟩⟩ := namedSection_cases hp.advance hsection
        · exact ih hp₁ h (data d s hs hd)
        · exact ih hp₁ h (rules d s hs hd)
    next => cases h

end Grammar

/-! ## Sections that are joined -/

namespace Section

variable {s t : Section}

theorem Legible.merge {P Q : Value → Prop} (hs : s.Legible P Q) (ht : t.Legible P Q) :
    (s.merge t).Legible P Q where
  parents p hp := (mem_joinParents.mp hp).elim (hs.parents p) (ht.parents p)
  names := Entries.forall_mem_insertAll ht.names hs.names
  properties := Entries.forall_mem_insertAll ht.properties hs.properties
  registry v hv := (List.mem_append.mp hv).elim (hs.registry v) (ht.registry v)

theorem ReadRules.merge (hs : s.ReadRules) (ht : t.ReadRules) : (s.merge t).ReadRules :=
  ⟨hs.toLegible.merge ht.toLegible, hs.header⟩

theorem ReadValues.merge (hs : s.ReadValues) (ht : t.ReadValues) (hname : s.name = t.name) :
    (s.merge t).ReadValues := by
  refine ⟨hs.toLegible.merge ht.toLegible, ?_⟩
  rcases hs.header with hheader | ⟨hspecial, hparents⟩
  · exact .inl hheader
  · refine .inr ⟨hspecial, ?_⟩
    have hparents' : t.parents = [] := by
      rcases ht.header with hheader | ⟨-, hparents'⟩
      · -- a special name is no name
        have hnot := hheader.not_special
        rw [← hname] at hnot
        rcases hspecial with h | h <;> rw [h] at hnot <;> cases hnot
      · exact hparents'
    show joinParents s.parents t.parents = []
    rw [hparents, hparents']
    rfl

end Section

namespace Document

theorem read_empty : Read .empty := ⟨rfl, isNamed_empty, nofun, nofun⟩

/-- A section that has been read comes into a document that has been read. -/
theorem Read.insertSection {d : Document} (h : d.Read) {s : Section} (hs : s.ReadValues) :
    (d.insertSection s).Read where
  macros := h.macros
  named := h.named.insertSection s
  schemas := h.schemas
  sections n u hu := by
    rcases get?_declare_cases hu with hu | ⟨hn, rfl | ⟨first, hfirst, rfl⟩⟩
    · exact h.sections n u hu
    · exact hs
    · exact (h.sections n first hfirst).merge hs ((h.named.sections n first hfirst).trans hn.symm)

/-- A schema that has been read comes into a document that has been read. -/
theorem Read.insertSchema {d : Document} (h : d.Read) {s : Section} (hs : s.ReadRules) :
    (d.insertSchema s).Read where
  macros := h.macros
  named := h.named.insertSchema s
  sections := h.sections
  schemas n u hu := by
    rcases get?_declare_cases hu with hu | ⟨hn, rfl | ⟨first, hfirst, rfl⟩⟩
    · exact h.schemas n u hu
    · exact hs
    · exact (h.schemas n first hfirst).merge hs

/-- Documents that are read are merged into one that could have been read. -/
theorem Read.merge {d e : Document} (hd : d.Read) (he : e.Read) : (d.merge e).Read := by
  rw [merge_eq_insertDocument d he.macros]
  have hsections : (e.sections.values.foldl Document.insertSection d).Read := by
    refine List.foldlRecOn _ _ hd fun d hd s hs => ?_
    obtain ⟨n, hn⟩ := Table.mem_values_iff.mp hs
    exact hd.insertSection (he.sections n s hn)
  refine List.foldlRecOn _ _ hsections fun d hd s hs => ?_
  obtain ⟨n, hn⟩ := Table.mem_values_iff.mp hs
  exact hd.insertSchema (he.schemas n s hn)

/-- **What inserting a section keeps holds of every document that is read.** -/
theorem ofSource_induction {motive : Document → Prop} (empty : motive .empty)
    (data : ∀ d s, s.ReadValues → motive d → motive (d.insertSection s))
    (rules : ∀ d s, s.ReadRules → motive d → motive (d.insertSchema s))
    {file : Option String} {text : String} {d : Document} (h : ofSource file text = .ok d) :
    motive d := by
  obtain ⟨p, q, hp, hrun⟩ := ofSource_eq_ok.mp h
  obtain ⟨ws, last, hfaces⟩ := Parser.faces_ofSource hp
  rw [Grammar.document, Grammar.remaining_bind hfaces] at hrun
  exact Grammar.sectionsFrom_induction data rules hfaces hrun empty

/-- **A document that is read** holds no macros yet, its sections stand under their names, and all in
    it can be written. -/
theorem read_of_ofSource {file : Option String} {text : String} {d : Document}
    (h : ofSource file text = .ok d) : d.Read :=
  ofSource_induction (motive := Read) read_empty (fun _ _ hs hd => hd.insertSection hs)
    (fun _ _ hs hd => hd.insertSchema hs) h

/-- A document that is read holds no macros yet, and its sections stand under their names. -/
theorem ofSource_shape {file : Option String} {text : String} {d : Document}
    (h : ofSource file text = .ok d) : d.macros = ∅ ∧ d.IsNamed :=
  ⟨(read_of_ofSource h).macros, (read_of_ofSource h).named⟩

end Document

end Yini
