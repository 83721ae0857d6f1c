import Yini.Proofs.Resolve.Tainted

/-!
What a document becomes when it is resolved.

The last state of a run that has succeeded is a *solution* of the document (`Progress.Solution`).
Two solutions of one document have the same names everywhere, and the same values but for tainted ones
(`Solution.agree`): what has been reached is done in both, and what has not been waits in both.
-/

namespace Yini

namespace Document

variable {d e : Document}

/-- Two documents have the same names everywhere, and the same values but in some slots. -/
structure AgreeBut (except : Slot → Prop) (d e : Document) : Prop where
  names : d.Match (fun _ _ => True) e
  values : ∀ s, ¬except s → d.valueAt? s = e.valueAt? s
  /-- What stands in the registry of a schema is never resolved. -/
  schemaRegistries : ∀ n, (d.schemas.get? n).map Section.registry
    = (e.schemas.get? n).map Section.registry

/-- What is in use leads to `[#define]` if it is tainted: the taint comes from there. -/
theorem Tainted.reached_define {s : Slot} (h : d.Tainted s) (huse : d.InUse s) :
    d.Reached (.ofSection defineName) := by
  induction h with
  | contested => exact huse _ rfl
  | inherited hs _ hparents _ _ ih =>
    refine ih fun m hm => ?_
    cases hm
    exact (huse _ rfl).edge (edge_parent hs (hparents ▸ List.mem_append_right _ List.mem_cons_self))
  | refers _ hx hr hs _ ih => exact ih (huse.refers hx hr hs)

end Document

namespace Progress

variable {d e : Document} {p : Providers} {q q' : Progress}

/-- A section that waits has the names that it declares. -/
theorem Adopting.isSome_eq {n : String} {s t : Section} (h : Adopting d q n s t []) (k : String) :
    (t.properties.get? k).isSome = (s.properties.get? k).isSome := by
  cases hk : s.properties.get? k with
  | none => rw [show t.properties.get? k = none from h.inherited k hk]
  | some v =>
    obtain ⟨w, hw, -⟩ := h.declared k v hk
    rw [hw]
    rfl

/-! ## Solutions -/

/-- The invariant holds, and everything is resolved. -/
structure Solution (d : Document) (p : Providers) (q : Progress) : Prop where
  sound : Sound d p (.all d) q
  complete : Complete d p q

namespace Solution

/-- All that has been reached is done. -/
theorem done (h : Solution d p q) {n : Node} (hn : d.Reached n) : q.Done n := by
  obtain ⟨root, hroot, hreach⟩ := hn
  induction hreach with
  | refl => exact h.complete.done_of_root hroot
  | tail _ hedge ih => exact h.sound.edge_done ih hedge

/-- What is done in one solution is done in every other. -/
theorem done_iff (h : Solution d p q) (h' : Solution d p q') (n : Node) : q.Done n ↔ q'.Done n :=
  ⟨fun hn => h'.done (h.sound.reached n hn), fun hn => h.done (h'.sound.reached n hn)⟩

/-- A section that is not done still waits. -/
theorem waiting (h : Solution d p q) {n : String} (hn : n ∉ q.doneSections) {s : Section}
    (hs : d.sections.get? n = some s) :
    ∃ t, q.document.sections.get? n = some t ∧ Adopting d q n s t [] := by
  obtain ⟨t, ht, -⟩ := h.sound.exists_section hs
  have hidle : n ∈ (Idle.all d).sections :=
    Table.contains_iff.mp (by rw [Table.contains, hs]; rfl)
  exact ⟨t, ht, h.sound.waitingSection n hidle hn s t hs ht⟩

/-- As long as `[#define]` waits, what it declares has the value of the macro. -/
theorem waiting_define (h : Solution d p q) (hd : d.Gathered) (hn : defineName ∉ q.doneSections)
    {s t : Section} (hs : d.sections.get? defineName = some s)
    (ht : q.document.sections.get? defineName = some t) {k : String} {e : Value}
    (hk : s.properties.get? k = some e) : t.properties.get? k = q.document.macros.get? k := by
  obtain ⟨u, hu, hadopting⟩ := h.waiting hn hs
  obtain rfl := Option.some.inj (ht.symm.trans hu)
  obtain ⟨v, hv, -⟩ := hadopting.declared k e hk
  have hget : q.document.get? defineName k = some v := by rw [Document.get?, ht]; exact hv
  rw [hv, Document.gathered_of_waiting h.sound h.complete hd hn k v hget]

/-- The rules of schemas have their values. -/
theorem rule (h : Solution d p q) (n k : String) :
    OptionEvaluated d p q (d.valueAt? (.rule n k)) (q.document.valueAt? (.rule n k)) := by
  have hn := h.complete.schemas n
  simp only [Document.valueAt?]
  generalize d.schemas.get? n = o at hn
  generalize q.document.schemas.get? n = o' at hn
  cases hn with
  | none => rfl
  | some hschema => exact hschema.rules k

/-! ## Two solutions of one document -/

section Two

variable (h : Solution d p q) (h' : Solution d p q')

include h h'

/-- A section is done in both solutions, or it waits in both. -/
theorem section_cases {n : String} {s : Section} (hs : d.sections.get? n = some s) :
    ∃ t t', q.document.sections.get? n = some t ∧ q'.document.sections.get? n = some t' ∧
      t.heading = t'.heading ∧
        (q.Done (.ofSection n) ∧ Solved d p q n s t ∧ Solved d p q' n s t' ∨
          n ∉ q.doneSections ∧ Adopting d q n s t [] ∧ Adopting d q' n s t' []) := by
  have hheading := (h.sound.headings n).trans (h'.sound.headings n).symm
  by_cases hn : q.Done (.ofSection n)
  · obtain ⟨u, t, hu, ht, hsolved⟩ := h.sound.doneSection n hn
    obtain ⟨u', t', hu', ht', hsolved'⟩ := h'.sound.doneSection n ((h.done_iff h' _).mp hn)
    obtain rfl := Option.some.inj (hs.symm.trans hu)
    obtain rfl := Option.some.inj (hs.symm.trans hu')
    rw [ht, ht'] at hheading
    exact ⟨t, t', ht, ht', Option.some.inj hheading, .inl ⟨hn, hsolved, hsolved'⟩⟩
  · obtain ⟨t, ht, hadopting⟩ := h.waiting hn hs
    obtain ⟨t', ht', hadopting'⟩ := h'.waiting (fun hn' => hn ((h.done_iff h' _).mpr hn')) hs
    rw [ht, ht'] at hheading
    exact ⟨t, t', ht, ht', Option.some.inj hheading, .inr ⟨hn, hadopting, hadopting'⟩⟩

/-- **Both solutions have the same properties.** -/
theorem isSome_property_eq {n : String} {s t t' : Section} (hs : d.sections.get? n = some s)
    (ht : q.document.sections.get? n = some t) (ht' : q'.document.sections.get? n = some t')
    (k : String) : (t.properties.get? k).isSome = (t'.properties.get? k).isSome := by
  obtain ⟨u, u', hu, hu', -, ⟨hn, -, -⟩ | ⟨-, hadopting, hadopting'⟩⟩ := h.section_cases h' hs
  · have hholds := h.sound.isSome_iff_holds hn k
    have hholds' := h'.sound.isSome_iff_holds ((h.done_iff h' _).mp hn) k
    rw [Document.get?, ht] at hholds
    rw [Document.get?, ht'] at hholds'
    exact Bool.eq_iff_iff.mpr (hholds.trans hholds'.symm)
  · obtain rfl := Option.some.inj (ht.symm.trans hu)
    obtain rfl := Option.some.inj (ht'.symm.trans hu')
    rw [hadopting.isSome_eq, hadopting'.isSome_eq]

/-- Two solutions have registries of the same length, that of the declaration. -/
theorem length_registry_eq {n : String} {s t t' : Section} (hs : d.sections.get? n = some s)
    (ht : q.document.sections.get? n = some t) (ht' : q'.document.sections.get? n = some t') :
    t.registry.length = t'.registry.length := by
  obtain ⟨u, u', hu, hu', -, hcases⟩ := h.section_cases h' hs
  obtain rfl := Option.some.inj (ht.symm.trans hu)
  obtain rfl := Option.some.inj (ht'.symm.trans hu')
  rcases hcases with ⟨-, hsolved, hsolved'⟩ | ⟨-, hadopting, hadopting'⟩
  · rw [← hsolved.registry.length_eq, ← hsolved'.registry.length_eq]
  · rw [hadopting.registry, hadopting'.registry]

/-- A section that waits has the same properties in both solutions, if that is so of the macros when
    it is `[#define]`, where they are noted. -/
theorem waiting_property_eq (hd : d.Gathered) {n k : String} {s t t' : Section}
    (hn : n ∉ q.doneSections) (hs : d.sections.get? n = some s)
    (ht : q.document.sections.get? n = some t) (ht' : q'.document.sections.get? n = some t')
    (hnamed : n = defineName → q.document.macros.get? k = q'.document.macros.get? k) :
    t.properties.get? k = t'.properties.get? k := by
  obtain ⟨u, u', hu, hu', -, ⟨hn', -, -⟩ | ⟨-, hadopting, hadopting'⟩⟩ := h.section_cases h' hs
  · exact absurd hn' hn
  obtain rfl := Option.some.inj (ht.symm.trans hu)
  obtain rfl := Option.some.inj (ht'.symm.trans hu')
  by_cases hdefine : n = defineName
  · subst hdefine
    cases hk : s.properties.get? k with
    | none =>
      rw [show t.properties.get? k = none from hadopting.inherited k hk]
      exact (hadopting'.inherited k hk).symm
    | some e =>
      have hn' := (h.done_iff h' (.ofSection defineName)).not.mp hn
      rw [h.waiting_define hd hn hs ht hk, h'.waiting_define hd hn' hs ht' hk, hnamed rfl]
  · rw [hadopting.value.resolve_right fun hvalue => hdefine hvalue.1,
      hadopting'.value.resolve_right fun hvalue => hdefine hvalue.1]

/-- The macros have the same values in both solutions, apart from tainted ones. -/
theorem macro_eq {m : String} (hclean : ¬d.Tainted (.ofMacro m)) :
    q.document.macros.get? m = q'.document.macros.get? m := by
  by_cases hm : q.Done (.ofMacro m)
  · exact h.sound.valueAt?_eq h'.sound hm ((h.done_iff h' _).mp hm) rfl hclean
  · have hm' : ¬q'.Done (.ofMacro m) := fun hm' => hm ((h.done_iff h' _).mpr hm')
    exact (h.sound.waitingMacro m hm).trans (h'.sound.waitingMacro m hm').symm

/-- **Two solutions of one document have the same values**, apart from tainted ones. -/
theorem valueAt?_eq (hd : d.Gathered) {s : Slot} (hclean : ¬d.Tainted s) :
    q.document.valueAt? s = q'.document.valueAt? s := by
  by_cases hdone : ∃ n, s.node? = some n ∧ q.Done n
  · obtain ⟨n, hs, hn⟩ := hdone
    exact h.sound.valueAt?_eq h'.sound hn ((h.done_iff h' n).mp hn) hs hclean
  have hwait : ∀ n, s.node? = some n → ¬q.Done n := fun n hs hn => hdone ⟨n, hs, hn⟩
  cases s with
  | ofMacro m => exact h.macro_eq h' hclean
  | rule n k =>
    refine (h.rule n k).eq_of_clean (h'.rule n k) fun x hx v v' hv hv' => ?_
    have hxclean := Value.clean_of_not_tainted (fun m hm => by cases hm) hx hclean
    refine hv.eq_of_clean hv' h.sound h'.sound hxclean fun r hr s' hslot => ?_
    obtain ⟨m, hm, hsm⟩ := Reference.node?_of_slot? hslot
    exact h.sound.valueAt?_eq h'.sound (hv.settled r hr m hm) (hv'.settled r hr m hm) hsm
      (hxclean r hr s' hslot)
  | entry n index =>
    cases hs : d.sections.get? n with
    | none => simp only [Document.valueAt?, h.sound.get?_of_missing hs, h'.sound.get?_of_missing hs]
    | some u =>
      obtain ⟨t, t', ht, ht', -, ⟨hn, -, -⟩ | ⟨-, hadopting, hadopting'⟩⟩ := h.section_cases h' hs
      · exact absurd hn (hwait _ rfl)
      · simp only [Document.valueAt?, ht, ht', Option.bind_some, hadopting.registry,
          hadopting'.registry]
  | property n k =>
    cases hs : d.sections.get? n with
    | none =>
      simp only [Document.valueAt?, Document.get?, h.sound.get?_of_missing hs,
        h'.sound.get?_of_missing hs]
    | some u =>
      obtain ⟨t, t', ht, ht', -, -⟩ := h.section_cases h' hs
      simp only [Document.valueAt?, Document.get?, ht, ht', Option.bind_some]
      refine h.waiting_property_eq h' hd (hwait _ rfl) hs ht ht' ?_
      rintro rfl
      -- nothing has reached `[#define]`, so no macro is tainted
      refine h.macro_eq h' fun htainted => hwait _ rfl (h.done (htainted.reached_define ?_))
      cases htainted with
      | refers huse => exact huse

/-- Two solutions have the same sections with the same names in them. -/
theorem match_sections : q.document.sections.Match (Section.Match fun _ _ => True)
    q'.document.sections := by
  intro n
  cases hs : d.sections.get? n with
  | none =>
    rw [h.sound.get?_of_missing hs, h'.sound.get?_of_missing hs]
    exact .none
  | some s =>
    obtain ⟨t, t', ht, ht', hheading, -⟩ := h.section_cases h' hs
    rw [ht, ht']
    exact .some (.of_heading_eq hheading (h.isSome_property_eq h' hs ht ht')
      (h.length_registry_eq h' hs ht ht'))

theorem match_schemas : q.document.schemas.Match (Section.Match fun _ _ => True)
    q'.document.schemas := by
  intro n
  cases hs : d.schemas.get? n with
  | none =>
    rw [h.complete.schemas.get?_eq_none_iff.mp hs, h'.complete.schemas.get?_eq_none_iff.mp hs]
    exact .none
  | some s =>
    obtain ⟨t, ht, hschema⟩ := h.complete.schemas.exists_right hs
    obtain ⟨t', ht', hschema'⟩ := h'.complete.schemas.exists_right hs
    have hregistry := hschema.registry.trans hschema'.registry.symm
    rw [ht, ht']
    exact .some (.of_heading_eq (hschema.heading.trans hschema'.heading.symm)
      (fun k => by rw [(hschema.rules k).isSome_eq, (hschema'.rules k).isSome_eq])
      (congrArg List.length hregistry))

/-- **Two solutions of one document agree** on all but tainted values. -/
theorem agree (hd : d.Gathered) : q.document.AgreeBut d.Tainted q'.document where
  names := ⟨h.match_sections h',
    .of_isSome_eq fun m => by rw [h.sound.isSome_macro, h'.sound.isSome_macro], h.match_schemas h'⟩
  values _ hclean := h.valueAt?_eq h' hd hclean
  schemaRegistries n := by
    have hregistry : ∀ {r : Progress}, Solution d p r → (d.schemas.get? n).map Section.registry
        = (r.document.schemas.get? n).map Section.registry := fun hr =>
      hr.complete.schemas.map_eq (fun _ _ hschema => hschema.registry.symm) n
    rw [← hregistry h, ← hregistry h']

end Two

end Solution

end Progress

end Yini
