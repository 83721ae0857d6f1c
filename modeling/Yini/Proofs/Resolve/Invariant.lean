import Yini.Proofs.Resolve.State

/-!
The invariant holds through the single steps of resolving.

A section may be changed freely while it is open (`Sound.alter`); it is closed when it is solved
(`Sound.close`), and a macro is noted when its expression has a value (`Sound.note`).  Everything
else that happens in a run is one of these steps after another.
-/

namespace Yini.Progress

variable {d : Document} {p : Providers} {i j : Idle} {q q' q'' : Progress}

/-! ## The invariant -/

/-- What has become of a section that others are to leave alone: macros may have been noted in
    it. -/
structure Touched (q : Progress) (n : String) (t t' : Section) : Prop where
  registry : t'.registry = t.registry
  value : ∀ k, t'.properties.get? k = t.properties.get? k ∨
    (n = defineName ∧ k ∈ q.doneMacros ∧ (t.properties.get? k).isSome ∧
      ∃ v, q.document.macros.get? k = some v ∧ t'.properties.get? k = some v)

/-- What is done stays, and what is not idle is left alone, as are the schemas. -/
structure Advance (d : Document) (i : Idle) (q q' : Progress) : Prop where
  keeps : Keeps d q q'
  schemas : q'.document.schemas = q.document.schemas
  left : ∀ n, n ∉ i.sections → ∀ t, q.document.sections.get? n = some t →
    ∃ t', q'.document.sections.get? n = some t' ∧ Touched q' n t t'

/-- Every macro that is done has the value of its expression. -/
def MacrosSolved (d : Document) (p : Providers) (q : Progress) : Prop :=
  ∀ m ∈ q.doneMacros, ∃ e v, d.macros.get? m = some e ∧ q.document.macros.get? m = some v ∧
    Evaluated d p q e v

/-- **The invariant of resolving**: `d` is the document as it was declared, and `i` says what is not
    open. -/
structure Sound (d : Document) (p : Providers) (i : Idle) (q : Progress) : Prop where
  nodupSections : i.sections.Nodup
  nodupMacros : i.macros.Nodup
  idleSection : ∀ n ∈ q.doneSections, n ∈ i.sections
  idleMacro : ∀ m ∈ q.doneMacros, m ∈ i.macros
  headings : ∀ n, (q.document.sections.get? n).map Section.heading
    = (d.sections.get? n).map Section.heading
  waitingMacro : ∀ m, m ∉ q.doneMacros → q.document.macros.get? m = d.macros.get? m
  doneMacro : MacrosSolved d p q
  waitingSection : ∀ n ∈ i.sections, n ∉ q.doneSections → ∀ s t, d.sections.get? n = some s →
    q.document.sections.get? n = some t → Adopting d q n s t []
  doneSection : ∀ n ∈ q.doneSections, ∃ s t, d.sections.get? n = some s ∧
    q.document.sections.get? n = some t ∧ Solved d p q n s t
  grounded : ∀ n, q.Done n → d.Grounded n
  reached : ∀ n, q.Done n → d.Reached n
  noted : defineName ∈ i.sections → defineName ∉ q.doneSections → ∀ m ∈ q.doneMacros, ∀ v,
    q.document.get? defineName m = some v → q.document.macros.get? m = some v

/-! ## Advancing -/

theorem Touched.refl (q : Progress) (n : String) (t : Section) : Touched q n t t :=
  ⟨rfl, fun _ => .inl rfl⟩

theorem Touched.trans {n : String} {t t' t'' : Section} (h : Touched q n t t')
    (h' : Touched q' n t' t'') (hk : Keeps d q q') : Touched q' n t t'' := by
  refine ⟨h'.registry.trans h.registry, fun k => ?_⟩
  rcases h.value k with heq | ⟨hn, hdone, hsome, v, hv, hget⟩
  · rcases h'.value k with heq' | ⟨hn, hdone, hsome, hvalue⟩
    · exact .inl (heq'.trans heq)
    · exact .inr ⟨hn, hdone, by rwa [heq] at hsome, hvalue⟩
  · rcases h'.value k with heq' | ⟨-, hdone', -, hvalue⟩
    · exact .inr ⟨hn, hk.macros k hdone, hsome, v, (hk.macroValue k hdone).trans hv,
        heq'.trans hget⟩
    · exact .inr ⟨hn, hdone', hsome, hvalue⟩

theorem Advance.refl (d : Document) (i : Idle) (q : Progress) : Advance d i q q :=
  ⟨.refl d q, rfl, fun n _ t ht => ⟨t, ht, .refl q n t⟩⟩

theorem Advance.trans (h : Advance d i q q') (h' : Advance d i q' q'') : Advance d i q q'' := by
  refine ⟨h.keeps.trans h'.keeps, h'.schemas.trans h.schemas, fun n hn t ht => ?_⟩
  obtain ⟨t', ht', htouched⟩ := h.left n hn t ht
  obtain ⟨t'', ht'', htouched'⟩ := h'.left n hn t' ht'
  exact ⟨t'', ht'', htouched.trans htouched' h'.keeps⟩

/-- With more names idle, less has to be left alone. -/
theorem Advance.weaken (h : Advance d j q q') (hsub : ∀ n ∈ j.sections, n ∈ i.sections) :
    Advance d i q q' :=
  ⟨h.keeps, h.schemas, fun n hn => h.left n fun hj => hn (hsub n hj)⟩

/-- Macros stay solved as long as no other macro is done. -/
theorem MacrosSolved.mono (h : MacrosSolved d p q) (hk : Keeps d q q')
    (hdone : q'.doneMacros = q.doneMacros) : MacrosSolved d p q' := by
  intro m hm
  rw [hdone] at hm
  obtain ⟨e, v, he, hv, heval⟩ := h m hm
  exact ⟨e, v, he, (hk.macroValue m hm).trans hv, heval.mono hk⟩

/-- A macro that is noted over an inherited property makes it contested. -/
theorem Inherited.touch {n : String} {s t t' : Section} {parents : List String} {k : String}
    (h : Inherited d q n parents k (t.properties.get? k)) (ht : Touched q n t t')
    (hs : d.sections.get? n = some s) (hnone : s.properties.get? k = none)
    (hmacros : MacrosSolved d p q) : Inherited d q n parents k (t'.properties.get? k) := by
  rcases ht.value k with heq | ⟨rfl, hdone, hsome, w, hw, hget⟩
  · rwa [heq]
  · obtain ⟨e, v, he, hv, heval⟩ := hmacros k hdone
    have hcontested : d.contested k = true := by
      simp [Document.contested, Table.contains, he, Document.get?, hs, hnone]
    unfold Inherited at h ⊢
    split at h
    · rw [h] at hsome
      cases hsome
    · refine ⟨w, hget, ?_, fun h => absurd rfl (h hcontested).1⟩
      rw [hw] at hv
      cases hv
      exact heval.plain

theorem Adopting.mono {n : String} {s t : Section} {parents : List String}
    (h : Adopting d q n s t parents) (hk : Keeps d q q') : Adopting d q' n s t parents where
  adopted parent hp := hk.sections parent (h.adopted parent hp)
  registry := h.registry
  declared k e he := by
    obtain ⟨v, hv, hcurrent⟩ := h.declared k e he
    refine ⟨v, hv, hcurrent.imp id ?_⟩
    rintro ⟨hn, hdone, hvalue⟩
    exact ⟨hn, hk.macros k hdone, (hk.macroValue k hdone).trans hvalue⟩
  inherited k hnone := (h.inherited k hnone).mono h.adopted hk

/-- A section that waits has the properties that it declares, but for macros that are noted. -/
theorem Adopting.value {n k : String} {s t : Section} (h : Adopting d q n s t []) :
    t.properties.get? k = s.properties.get? k ∨
      n = defineName ∧ k ∈ q.doneMacros ∧ t.properties.get? k = q.document.macros.get? k := by
  cases hk : s.properties.get? k with
  | none => exact .inl (h.inherited k hk)
  | some v =>
    obtain ⟨w, hw, rfl | ⟨hn, hdone, hvalue⟩⟩ := h.declared k v hk
    · exact .inl hw
    · exact .inr ⟨hn, hdone, hw.trans hvalue.symm⟩

/-- A section goes on adopting when a macro has been noted in it. -/
theorem Adopting.touch {n : String} {s t t' : Section} {parents : List String}
    (h : Adopting d q n s t parents) (ht : Touched q n t t') (hs : d.sections.get? n = some s)
    (hmacros : MacrosSolved d p q) : Adopting d q n s t' parents where
  adopted := h.adopted
  registry := ht.registry.trans h.registry
  declared k e he := by
    rcases ht.value k with heq | ⟨hn, hdone, -, w, hw, hget⟩
    · rw [heq]
      exact h.declared k e he
    · exact ⟨w, hget, .inr ⟨hn, hdone, hw⟩⟩
  inherited k hnone := (h.inherited k hnone).touch ht hs hnone hmacros

/-- A value that an adopting section holds is declared in it, or it is plain. -/
theorem Adopting.plain_or_declared {n : String} {s t : Section} {parents : List String}
    (h : Adopting d q n s t parents) (hmacros : MacrosSolved d p q) {k : String} {v : Value}
    (hv : t.properties.get? k = some v) : v.plain ∨ s.properties.get? k = some v := by
  cases hs : s.properties.get? k with
  | none =>
    have hinherited := h.inherited k hs
    rw [hv] at hinherited
    exact .inl hinherited.plain
  | some e =>
    obtain ⟨w, hw, hcurrent⟩ := h.declared k e hs
    rw [hv] at hw
    cases hw
    rcases hcurrent with rfl | ⟨-, hdone, hvalue⟩
    · exact .inr rfl
    · obtain ⟨_, u, -, hu, heval⟩ := hmacros k hdone
      rw [hvalue] at hu
      cases hu
      exact .inl heval.plain

/-- So every value that it holds is declared in it, or plain. -/
theorem Adopting.plain_or_mem_contents {n : String} {s t : Section} {parents : List String}
    (h : Adopting d q n s t parents) (hmacros : MacrosSolved d p q) {v : Value} (hv : v ∈ t.contents) :
    v.plain ∨ v ∈ s.contents := by
  rcases List.mem_append.mp hv with hv | hv
  · obtain ⟨k, hk⟩ := Table.mem_values_iff.mp hv
    refine (h.plain_or_declared hmacros hk).imp id fun hs => ?_
    exact List.mem_append_left _ (Table.mem_values_iff.mpr ⟨k, hs⟩)
  · rw [h.registry] at hv
    exact .inr (Section.mem_contents_of_entry hv)

/-- **Adopting one parent more.** -/
theorem Adopting.adopt {n parent : String} {s t u : Section} {parents : List String}
    (h : Adopting d q n s t parents) (hdone : parent ∈ q.doneSections)
    (hu : q.document.sections.get? parent = some u)
    (hplain : ∀ k v, u.properties.get? k = some v → v.plain) :
    Adopting d q n s (t.adopt u.properties) (parents ++ [parent]) where
  adopted x hx := by
    rcases List.mem_append.mp hx with hx | hx
    · exact h.adopted x hx
    · rwa [List.mem_singleton.mp hx]
  registry := h.registry
  declared k e he := by
    obtain ⟨v, hv, hcurrent⟩ := h.declared k e he
    refine ⟨v, ?_, hcurrent⟩
    rw [Section.get?_adopt, hv]
    rfl
  inherited k hnone := by
    have hbefore := h.inherited k hnone
    have hget : q.document.get? parent k = u.properties.get? k := by simp [Document.get?, hu]
    unfold Inherited at hbefore ⊢
    rw [List.find?_append, Section.get?_adopt]
    cases hfirst : parents.find? (fun x => (q.document.get? x k).isSome) with
    | some x =>
      rw [hfirst] at hbefore
      obtain ⟨v, hv, hrest⟩ := hbefore
      exact ⟨v, by rw [hv]; rfl, hrest⟩
    | none =>
      -- no earlier parent has the name, so it is this parent's turn
      rw [hfirst] at hbefore
      simp only at hbefore
      rw [hbefore, Option.none_or, Option.none_or, List.find?_singleton, hget]
      cases hv : u.properties.get? k with
      | none => rfl
      | some v => exact ⟨v, rfl, hplain k v hv, fun _ => hget.trans hv⟩

/-- **A section that has adopted all its parents is solved** when everything that it holds has a
    value. -/
theorem Adopting.solve (hd : d.Gathered) {n : String} {s t u : Section}
    (h : Adopting d q n s t s.parents) (hs : d.sections.get? n = some s)
    (hmacros : MacrosSolved d p q)
    (hproperties : ∀ k, OptionEvaluated d p q (t.properties.get? k) (u.properties.get? k))
    (hregistry : List.Forall₂ (Evaluated d p q) t.registry u.registry) : Solved d p q n s u where
  adopted := h.adopted
  registry := by rwa [h.registry] at hregistry
  declared k e he := by
    obtain ⟨v, hv, hcurrent⟩ := h.declared k e he
    have hvalue := hproperties k
    rw [hv] at hvalue
    obtain ⟨w, hw, heval⟩ := hvalue
    refine ⟨w, hw, ?_⟩
    rcases hcurrent with rfl | ⟨rfl, hdone, hnoted⟩
    · exact heval
    · -- the macro has been noted here, with the value of the same expression
      obtain ⟨e', v', he', hv', heval'⟩ := hmacros k hdone
      rw [hd k e (by simp [Document.get?, hs, he])] at he'
      rw [hnoted] at hv'
      cases he'
      cases hv'
      rwa [heval.eq_of_plain heval'.plain]
  inherited k hnone := by
    have hinherited := h.inherited k hnone
    have hvalue := hproperties k
    cases hv : t.properties.get? k with
    | none =>
      rw [hv] at hinherited hvalue
      rw [show u.properties.get? k = none from hvalue]
      exact hinherited
    | some v =>
      -- what has been adopted is plain, so its value is the same
      rw [hv] at hinherited hvalue
      obtain ⟨w, hw, heval⟩ := hvalue
      rw [hw, heval.eq_of_plain hinherited.plain]
      exact hinherited

/-- A section stays solved when a macro has been noted in it. -/
theorem Solved.touch (hd : d.Gathered) {n : String} {s t t' : Section} (h : Solved d p q n s t)
    (ht : Touched q n t t') (hs : d.sections.get? n = some s) (hmacros : MacrosSolved d p q) :
    Solved d p q n s t' where
  adopted := h.adopted
  registry := by
    rw [ht.registry]
    exact h.registry
  declared k e he := by
    rcases ht.value k with heq | ⟨rfl, hdone, -, w, hw, hget⟩
    · rw [heq]
      exact h.declared k e he
    · -- the macro has the same expression as the property
      obtain ⟨e', v, he', hv, heval⟩ := hmacros k hdone
      rw [hd k e (by simp [Document.get?, hs, he])] at he'
      rw [hw] at hv
      cases he'
      cases hv
      exact ⟨w, hget, heval⟩
  inherited k hnone := (h.inherited k hnone).touch ht hs hnone hmacros

/-- A declared section is there at every moment, with its parents. -/
theorem Sound.exists_section (h : Sound d p j q) {n : String} {s : Section}
    (hs : d.sections.get? n = some s) :
    ∃ t, q.document.sections.get? n = some t ∧ t.parents = s.parents := by
  have hheading := h.headings n
  rw [hs] at hheading
  obtain ⟨t, ht, heq⟩ := Option.map_eq_some_iff.mp hheading
  exact ⟨t, ht, congrArg Prod.snd heq⟩

/-- A section that is there has been declared with these parents. -/
theorem Sound.declared_section (h : Sound d p j q) {n : String} {t : Section}
    (ht : q.document.sections.get? n = some t) :
    ∃ s, d.sections.get? n = some s ∧ s.parents = t.parents := by
  have hheading := h.headings n
  rw [ht] at hheading
  obtain ⟨s, hs, heq⟩ := Option.map_eq_some_iff.mp hheading.symm
  exact ⟨s, hs, congrArg Prod.snd heq⟩

/-- No section appears that has not been declared. -/
theorem Sound.get?_of_missing (h : Sound d p j q) {n : String} (hn : d.sections.get? n = none) :
    q.document.sections.get? n = none := by
  have hheading := h.headings n
  rw [hn] at hheading
  exact Option.map_eq_none_iff.mp hheading

/-- Macros neither come nor go. -/
theorem Sound.isSome_macro (h : Sound d p j q) (m : String) :
    (q.document.macros.get? m).isSome = (d.macros.get? m).isSome := by
  by_cases hm : m ∈ q.doneMacros
  · obtain ⟨e, v, he, hv, -⟩ := h.doneMacro m hm
    rw [he, hv]
    rfl
  · rw [h.waitingMacro m hm]

/-- All that a node that is done leads to is done. -/
theorem Sound.edge_done (h : Sound d p j q) {n m : Node} (hn : q.Done n) (he : d.Edge n m) :
    q.Done m := by
  cases n with
  | ofSection name =>
    obtain ⟨s, t, hs, -, hsolved⟩ := h.doneSection name hn
    exact hsolved.edge_done hs he
  | ofMacro name =>
    obtain ⟨e, v, he', -, heval⟩ := h.doneMacro name hn
    obtain ⟨r, hr, hm⟩ := Document.edge_macro_cases he' he
    exact heval.settled r hr m hm

/-- What a step makes done is grounded, as all that it leads to was done before. -/
theorem Sound.grounded_of_step (h : Sound d p j q) {new : Node}
    (hstep : ∀ n, q'.Done n → n = new ∨ q.Done n) (hedges : ∀ n, d.Edge new n → q.Done n) :
    ∀ n, q'.Done n → d.Grounded n := by
  intro n hn
  rcases hstep n hn with rfl | hn
  · exact Document.grounded_of_edges fun m hedge => h.grounded m (hedges m hedge)
  · exact h.grounded n hn

/-- If only a reached node becomes done, all that is done is reached. -/
theorem Sound.reached_of_step (h : Sound d p j q) {new : Node}
    (hstep : ∀ n, q'.Done n → n = new ∨ q.Done n) (hreached : d.Reached new) :
    ∀ n, q'.Done n → d.Reached n := by
  intro n hn
  rcases hstep n hn with rfl | hn
  · exact hreached
  · exact h.reached n hn

/-! ## Opening -/

theorem Sound.openSection (h : Sound d p i q) {name : String} (hname : name ∉ q.doneSections) :
    Sound d p (i.openSection name) q where
  nodupSections := h.nodupSections.erase name
  nodupMacros := h.nodupMacros
  idleSection n hn :=
    (List.mem_erase_of_ne (ne_of_mem_of_not_mem hn hname)).mpr (h.idleSection n hn)
  idleMacro := h.idleMacro
  headings := h.headings
  waitingMacro := h.waitingMacro
  doneMacro := h.doneMacro
  waitingSection n hn := h.waitingSection n (List.mem_of_mem_erase hn)
  doneSection := h.doneSection
  grounded := h.grounded
  reached := h.reached
  noted hidle := h.noted (List.mem_of_mem_erase hidle)

theorem Sound.openMacro (h : Sound d p i q) {name : String} (hname : name ∉ q.doneMacros) :
    Sound d p (i.openMacro name) q where
  nodupSections := h.nodupSections
  nodupMacros := h.nodupMacros.erase name
  idleSection := h.idleSection
  idleMacro m hm := (List.mem_erase_of_ne (ne_of_mem_of_not_mem hm hname)).mpr (h.idleMacro m hm)
  headings := h.headings
  waitingMacro := h.waitingMacro
  doneMacro := h.doneMacro
  waitingSection := h.waitingSection
  doneSection := h.doneSection
  grounded := h.grounded
  reached := h.reached
  noted := h.noted

/-! ## Changing an open section -/

/-- The state with one section changed. -/
def alter (q : Progress) (name : String) (f : Section → Section) : Progress :=
  { q with document :=
    { q.document with sections := q.document.sections.modify name f } }

theorem get?_alter_self (q : Progress) (name : String) (f : Section → Section) :
    (q.alter name f).document.sections.get? name = (q.document.sections.get? name).map f :=
  Table.get?_modify_self q.document.sections name f

theorem get?_alter_of_ne (q : Progress) {name n : String} (h : name ≠ n) (f : Section → Section) :
    (q.alter name f).document.sections.get? n = q.document.sections.get? n :=
  Table.get?_modify_of_ne q.document.sections h f

/-- A section that is not done may be altered. -/
theorem Keeps.alter {name : String} (hname : name ∉ q.doneSections) (f : Section → Section) :
    Keeps d q (q.alter name f) := by
  have hsame : ∀ n ∈ q.doneSections, ∀ k,
      (q.alter name f).document.get? n k = q.document.get? n k := by
    intro n hn k
    have hne : name ≠ n := (ne_of_mem_of_not_mem hn hname).symm
    rw [Document.get?, get?_alter_of_ne q hne, ← Document.get?]
  exact ⟨fun _ h => h, fun _ h => h, fun _ _ => rfl, fun n hn k => by rw [hsame n hn k],
    fun n hn k _ => hsame n hn k⟩

/-- Changing a section that is idle for the caller leaves alone what the caller has open. -/
theorem Advance.alter {name : String} (hdone : name ∉ q.doneSections) (hidle : name ∈ i.sections)
    (f : Section → Section) : Advance d i q (q.alter name f) := by
  refine ⟨.alter hdone f, rfl, fun n hn t ht => ⟨t, ?_, .refl _ n t⟩⟩
  have hne : name ≠ n := ne_of_mem_of_not_mem hidle hn
  rw [get?_alter_of_ne q hne]
  exact ht

/-- **An open section may be changed**, as long as its heading stays. -/
theorem Sound.alter (h : Sound d p j q) {name : String} (hopen : name ∉ j.sections)
    {f : Section → Section} (hf : ∀ t, (f t).heading = t.heading) :
    Sound d p j (q.alter name f) := by
  have hdone : name ∉ q.doneSections := fun hmem => hopen (h.idleSection name hmem)
  have hk : Keeps d q (q.alter name f) := .alter hdone f
  have hother : ∀ n ∈ j.sections,
      (q.alter name f).document.sections.get? n = q.document.sections.get? n :=
    fun n hn => get?_alter_of_ne q (ne_of_mem_of_not_mem hn hopen).symm f
  refine ⟨h.nodupSections, h.nodupMacros, h.idleSection, h.idleMacro, ?_, h.waitingMacro,
    h.doneMacro.mono hk rfl, ?_, ?_, h.grounded, h.reached, ?_⟩
  · -- headings
    intro n
    by_cases hn : name = n
    · subst hn
      rw [get?_alter_self, ← h.headings name]
      cases q.document.sections.get? name with
      | none => rfl
      | some t => exact congrArg some (hf t)
    · rw [get?_alter_of_ne q hn]
      exact h.headings n
  · -- sections that wait
    intro n hn hwait s t hs ht
    rw [hother n hn] at ht
    exact (h.waitingSection n hn hwait s t hs ht).mono hk
  · -- sections that are done
    intro n hn
    obtain ⟨s, t, hs, ht, hsolved⟩ := h.doneSection n hn
    exact ⟨s, t, hs, by rwa [hother n (h.idleSection n hn)], hsolved.mono hk⟩
  · -- macros that have been noted
    intro hidle hwait m hm v hv
    rw [Document.get?, hother defineName hidle] at hv
    exact h.noted hidle hwait m hm v hv

/-! ## Closing a section -/

/-- The state with a section that has become done. -/
def close (q : Progress) (name : String) (properties : Table Value) (registry : List Value) :
    Progress :=
  { q.alter name ({ · with properties, registry }) with doneSections := name :: q.doneSections }

/-- To close an idle section leaves all the others alone. -/
theorem Advance.close {name : String} (hdone : name ∉ q.doneSections) (hidle : name ∈ i.sections)
    (properties : Table Value) (registry : List Value) :
    Advance d i q (q.close name properties registry) := by
  have h : Advance d i q (q.alter name ({ · with properties, registry })) := .alter hdone hidle _
  refine ⟨⟨fun n hn => List.mem_cons_of_mem _ hn, h.keeps.macros, h.keeps.macroValue,
    h.keeps.present, h.keeps.value⟩, rfl, fun n hn t ht => ?_⟩
  obtain ⟨t', ht', htouched⟩ := h.left n hn t ht
  exact ⟨t', ht', htouched.registry, htouched.value⟩

theorem get?_close_self {name : String} {t : Section} (ht : q.document.sections.get? name = some t)
    (properties : Table Value) (registry : List Value) :
    (q.close name properties registry).document.sections.get? name
      = some { t with properties, registry } := by
  show (q.alter name _).document.sections.get? name = _
  rw [get?_alter_self, ht]
  rfl

theorem get?_close_of_ne {name n : String} (hn : n ≠ name) (properties : Table Value)
    (registry : List Value) : (q.close name properties registry).document.sections.get? n
      = q.document.sections.get? n :=
  get?_alter_of_ne q hn.symm _

/-- When a section is closed, it is done, and nothing else has become so. -/
theorem done_close_cases {name : String} {properties : Table Value} {registry : List Value} :
    ∀ n, (q.close name properties registry).Done n → n = .ofSection name ∨ q.Done n
  | .ofMacro _, hn => .inr hn
  | .ofSection _, hn => (List.mem_cons.mp hn).imp (congrArg _) id

/-- **An open section is done when it is solved.** -/
theorem Sound.close {name : String} (h : Sound d p (i.openSection name) q)
    (hnodup : i.sections.Nodup) (hidle : name ∈ i.sections) {s t : Section}
    (hs : d.sections.get? name = some s) (ht : q.document.sections.get? name = some t)
    {properties : Table Value} {registry : List Value}
    (hsolved : Solved d p q name s { t with properties, registry })
    (hreached : d.Reached (.ofSection name)) :
    Sound d p i (q.close name properties registry) := by
  have hopen : name ∉ (i.openSection name).sections := hnodup.not_mem_erase
  have hdone : name ∉ q.doneSections := fun hmem => hopen (h.idleSection name hmem)
  have halter := h.alter hopen (f := ({ · with properties, registry })) fun _ => rfl
  have hk : Keeps d q (q.close name properties registry) :=
    (Advance.close hdone hidle properties registry).keeps
  refine ⟨hnodup, h.nodupMacros, ?_, h.idleMacro, halter.headings, h.waitingMacro,
    h.doneMacro.mono hk rfl, ?_, ?_, ?_, ?_, ?_⟩
  · intro n hn
    rcases List.mem_cons.mp hn with rfl | hn
    · exact hidle
    · exact List.mem_of_mem_erase (h.idleSection n hn)
  · -- sections that wait
    intro n hn hwait s t hs ht
    obtain ⟨hne, hwait⟩ := List.ne_and_not_mem_of_not_mem_cons hwait
    rw [get?_close_of_ne hne] at ht
    exact (h.waitingSection n ((List.mem_erase_of_ne hne).mpr hn) hwait s t hs ht).mono hk
  · -- sections that are done, this one among them
    intro n hn
    by_cases hne : n = name
    · subst hne
      exact ⟨s, _, hs, get?_close_self ht properties registry, hsolved.mono hk⟩
    · obtain ⟨s, t, hs, ht, hsolved⟩ := h.doneSection n ((List.mem_cons.mp hn).resolve_left hne)
      exact ⟨s, t, hs, by rwa [get?_close_of_ne hne], hsolved.mono hk⟩
  · exact h.grounded_of_step done_close_cases fun n hedge => hsolved.edge_done hs hedge
  · exact h.reached_of_step done_close_cases hreached
  · -- macros that have been noted
    intro hdefine hwait m hm v hv
    obtain ⟨hne, hwait⟩ := List.ne_and_not_mem_of_not_mem_cons hwait
    rw [Document.get?, get?_close_of_ne hne] at hv
    exact h.noted ((List.mem_erase_of_ne hne).mpr hdefine) hwait m hm v hv

/-! ## Noting a macro -/

/-- The state with a macro that has become done. -/
def note (q : Progress) (name : String) (v : Value) : Progress :=
  { q with document := q.document.putMacro name v, doneMacros := name :: q.doneMacros }

/-- A macro that is noted shows in `[#define]` only. -/
theorem get?_note_sections (q : Progress) (name : String) (v : Value) (n : String) :
    (q.note name v).document.sections.get? n = (q.document.sections.get? n).map
      fun t => if n = defineName then t.note name v else t := by
  show (q.document.sections.modify defineName (Section.note name v)).get? n = _
  by_cases hn : n = defineName
  · subst hn
    simp only [if_true, Table.get?_modify_self]
  · simp only [if_neg hn, Table.get?_modify_of_ne q.document.sections (Ne.symm hn), Option.map_id']

/-- That is all a section may feel that is left alone. -/
theorem touched_note (q : Progress) (name : String) (v : Value) (n : String) (t : Section) :
    Touched (q.note name v) n t (if n = defineName then t.note name v else t) := by
  by_cases hn : n = defineName
  · rw [if_pos hn]
    refine ⟨Section.registry_note name v t, fun k => ?_⟩
    by_cases hk : name = k
    · subst hk
      rw [Section.get?_note_self]
      cases hget : t.properties.get? name with
      | none => exact .inl rfl
      | some w => exact .inr ⟨hn, List.mem_cons_self, rfl, v, Table.get?_insert_self _ _ _, rfl⟩
    · exact .inl (Section.get?_note_of_ne hk v t)
  · rw [if_neg hn]
    exact .refl _ n t

/-- No heading is changed when a macro is noted. -/
theorem heading_note (q : Progress) (name : String) (v : Value) (n : String) :
    ((q.note name v).document.sections.get? n).map Section.heading
      = (q.document.sections.get? n).map Section.heading := by
  rw [get?_note_sections]
  cases q.document.sections.get? n with
  | none => rfl
  | some t =>
    simp only [Option.map_some]
    split <;> simp

/-- When a macro is noted, it is done, and nothing else has become so. -/
theorem done_note_cases {name : String} {v : Value} :
    ∀ n, (q.note name v).Done n → n = .ofMacro name ∨ q.Done n
  | .ofSection _, hn => .inr hn
  | .ofMacro _, hn => (List.mem_cons.mp hn).imp (congrArg _) id

/-- While `[#define]` waits, a macro that it holds is noted in it with its value. -/
theorem Sound.noted_note {name : String} (h : Sound d p j q) (v : Value)
    (hidle : defineName ∈ j.sections) (hwait : defineName ∉ q.doneSections) :
    ∀ m ∈ (q.note name v).doneMacros, ∀ w, (q.note name v).document.get? defineName m = some w →
      (q.note name v).document.macros.get? m = some w := by
  intro m hm w hw
  show (q.document.macros.insert name v).get? m = some w
  rw [Document.get?, get?_note_sections] at hw
  obtain ⟨t', ht', hw⟩ := Option.bind_eq_some_iff.mp hw
  obtain ⟨t, ht, rfl⟩ := Option.map_eq_some_iff.mp ht'
  rw [if_pos rfl] at hw
  by_cases hne : name = m
  · subst hne
    rw [Section.get?_note_self] at hw
    obtain ⟨_, -, rfl⟩ := Option.map_eq_some_iff.mp hw
    exact Table.get?_insert_self _ _ _
  · rw [Section.get?_note_of_ne hne] at hw
    rw [Table.get?_insert_of_ne _ hne]
    refine h.noted hidle hwait m ((List.mem_cons.mp hm).resolve_left (Ne.symm hne)) w ?_
    rw [Document.get?, ht]
    exact hw

/-- An expression that `[#define]` declares refers to no contested property, as `[#define]` cannot
    refer to itself. -/
theorem steady_of_grounded {s : Section} (hs : d.sections.get? defineName = some s) {k : String}
    {e : Value} (he : s.properties.get? k = some e) (h : d.Grounded (.ofSection defineName)) :
    e.steady d := by
  refine Value.steady_iff.mpr fun r hr => ?_
  cases hc : r.contested d with
  | false => rfl
  | true =>
    have hmem : e ∈ s.contents := List.mem_append_left _ (Table.mem_values_iff.mpr ⟨k, he⟩)
    have hself := Document.edge_contents hs hmem hr (Reference.node?_of_contested hc)
    exact absurd (.single hself) h.not_self

section Note

variable {name : String} {e v : Value} (hd : d.Gathered) (h : Sound d p j q)
  (hname : name ∉ q.doneMacros) (he : d.macros.get? name = some e) (heval : Evaluated d p q e v)

include h hname he heval

/-- The macros that are done with the new one have the values that the state before gives them. -/
theorem macro_note : ∀ m ∈ (q.note name v).doneMacros, ∃ e w, d.macros.get? m = some e ∧
    (q.note name v).document.macros.get? m = some w ∧ Evaluated d p q e w := by
  intro m hm
  by_cases heq : m = name
  · subst heq
    exact ⟨e, v, he, Table.get?_insert_self _ _ _, heval⟩
  · obtain ⟨e, w, he, hw, heval⟩ := h.doneMacro m ((List.mem_cons.mp hm).resolve_left heq)
    refine ⟨e, w, he, ?_, heval⟩
    show (q.document.macros.insert name v).get? m = some w
    rw [Table.get?_insert_of_ne _ (Ne.symm heq)]
    exact hw

include hd

/-- **Noting a macro changes nothing that counts**: if `[#define]` is done and declares the macro, it
    has the same value there already. -/
theorem Keeps.note : Keeps d q (q.note name v) := by
  have hpair : ∀ n ∈ q.doneSections, ∃ s t t', d.sections.get? n = some s ∧
      q.document.sections.get? n = some t ∧ (q.note name v).document.sections.get? n = some t' ∧
        Solved d p q n s t ∧ Touched (q.note name v) n t t' := by
    intro n hn
    obtain ⟨s, t, hs, ht, hsolved⟩ := h.doneSection n hn
    refine ⟨s, t, _, hs, ht, ?_, hsolved, touched_note q name v n t⟩
    rw [get?_note_sections, ht]
    rfl
  refine ⟨fun n hn => hn, fun m hm => List.mem_cons_of_mem _ hm, ?_, ?_, ?_⟩
  · intro m hm
    have hne : name ≠ m := (ne_of_mem_of_not_mem hm hname).symm
    exact Table.get?_insert_of_ne q.document.macros hne v
  · intro n hn k
    obtain ⟨s, t, t', -, ht, ht', -, htouched⟩ := hpair n hn
    simp only [Document.get?, ht, ht', Option.bind_some]
    rcases htouched.value k with heq | ⟨-, -, hsome, w, -, hget⟩
    · rw [heq]
    · rw [hget, hsome, Option.isSome_some]
  · intro n hn k hk
    obtain ⟨s, t, t', hs, ht, ht', hsolved, htouched⟩ := hpair n hn
    simp only [Document.get?, ht, ht', Option.bind_some]
    rcases htouched.value k with heq | ⟨rfl, hdone, -, w, hw, hget⟩
    · exact heq
    · obtain ⟨e', w', he', hw', heval'⟩ := macro_note h hname he heval k hdone
      rw [hw] at hw'
      cases hw'
      -- the property is not contested, so it is declared, with the expression of the macro
      obtain ⟨e'', hdeclared⟩ : ∃ e'', s.properties.get? k = some e'' := by
        have hcontested := hk rfl
        simp only [Document.contested, Table.contains, he', Document.get?, hs, Option.isSome_some,
          Bool.true_and, Option.bind_some] at hcontested
        exact Option.isSome_iff_exists.mp (by simpa using hcontested)
      have hsame := hd k e'' (by simp [Document.get?, hs, hdeclared])
      rw [he'] at hsame
      cases hsame
      -- nor does the expression refer to what is contested, so both values are its meaning
      obtain ⟨u, hu, hevalu⟩ := hsolved.declared k e' hdeclared
      have hsteady := steady_of_grounded hs hdeclared (h.grounded (.ofSection defineName) hn)
      have hwu := (heval'.means hsteady).symm.trans (hevalu.means hsteady)
      rw [hget, hu, Except.ok.inj hwu]

/-- To note a macro leaves alone what is open. -/
theorem Advance.note (i : Idle) : Advance d i q (q.note name v) := by
  refine ⟨.note hd h hname he heval, rfl, fun n _ t ht => ⟨_, ?_, touched_note q name v n t⟩⟩
  rw [get?_note_sections, ht]
  rfl

end Note

/-- **An open macro is done when its expression has a value.** -/
theorem Sound.note {name : String} (hd : d.Gathered) (h : Sound d p (i.openMacro name) q)
    (hnodup : i.macros.Nodup) (hidle : name ∈ i.macros) {e v : Value}
    (he : d.macros.get? name = some e) (heval : Evaluated d p q e v)
    (hreached : d.Reached (.ofMacro name)) :
    Sound d p i (q.note name v) := by
  have hopen : name ∉ (i.openMacro name).macros := hnodup.not_mem_erase
  have hname : name ∉ q.doneMacros := fun hmem => hopen (h.idleMacro name hmem)
  have hk : Keeps d q (q.note name v) := .note hd h hname he heval
  have hmacros : MacrosSolved d p (q.note name v) := by
    intro m hm
    obtain ⟨e, w, he, hw, heval⟩ := macro_note h hname he heval m hm
    exact ⟨e, w, he, hw, heval.mono hk⟩
  refine ⟨h.nodupSections, hnodup, h.idleSection, ?_, fun n => ?_, ?_, hmacros, ?_, ?_, ?_, ?_, ?_⟩
  · intro m hm
    rcases List.mem_cons.mp hm with rfl | hm
    · exact hidle
    · exact List.mem_of_mem_erase (h.idleMacro m hm)
  · rw [heading_note, h.headings n]
  · intro m hm
    obtain ⟨hne, hwait⟩ := List.ne_and_not_mem_of_not_mem_cons hm
    show (q.document.macros.insert name v).get? m = _
    rw [Table.get?_insert_of_ne _ hne.symm]
    exact h.waitingMacro m hwait
  · -- sections that wait
    intro n hn hwait s t' hs ht'
    rw [get?_note_sections] at ht'
    obtain ⟨t, ht, rfl⟩ := Option.map_eq_some_iff.mp ht'
    exact ((h.waitingSection n hn hwait s t hs ht).mono hk).touch (touched_note q name v n t) hs
      hmacros
  · -- sections that are done
    intro n hn
    obtain ⟨s, t, hs, ht, hsolved⟩ := h.doneSection n hn
    refine ⟨s, _, hs, ?_, (hsolved.mono hk).touch hd (touched_note q name v n t) hs hmacros⟩
    rw [get?_note_sections, ht]
    rfl
  · refine h.grounded_of_step done_note_cases fun n hedge => ?_
    obtain ⟨r, hr, hnode⟩ := Document.edge_macro_cases he hedge
    exact heval.settled r hr n hnode
  · exact h.reached_of_step done_note_cases hreached
  · exact h.noted_note v

end Yini.Progress
