import Yini.Proofs.Equality
import Yini.Proofs.Grammar.DocumentText

/-!
Resolving a document that has been written out and read back.

What is read back differs from what was written in its places, and in that a negative number is an
operation on a positive one (`Value.Near`).  Such a value is resolved to the one that was written, up to
places and without a look at the document (`Value.settles_of_near`).  So every step of resolving succeeds
near a settled document and stays near it (`Document.Settled.resolve_near`), and in the end nothing but
places is different (`Value.Near.bare_eq`).
-/

namespace Yini

/-- What is given whatever references stand for is one and the same. -/
theorem eq_of_pure {α : Type} {x : (Reference → Span → Resolve Value) → Resolve α} {a b : α}
    (ha : ∀ lookup, x lookup = pure a) (hb : ∀ lookup, x lookup = pure b) : a = b := by
  have hresult := congrFun ((ha (resolveReference .none ⟨[], []⟩)).symm.trans (hb _)) ⟨.empty, [], []⟩
  injection hresult

/-! ## Values -/

namespace Value

/-- The value is the first one, or what the text of the first one stands for, but for places. -/
def Near (v w : Value) : Prop := w.bare = v.bare ∨ w.bare = v.spelled

/-- The value is resolved to the first one but for places, whatever references stand for. -/
def Settles (v w : Value) : Prop :=
  ∃ u : Value, u.bare = v.bare ∧ ∀ lookup, w.resolve lookup = pure u

variable {v w : Value} {span : Span}

/-- An atom that is no reference stays as it is. -/
theorem settles_atom {a : Atom} (hplain : (atom a span).plain) (h : w.bare = (atom a span).bare) :
    (atom a span).Settles w := by
  cases w <;> simp only [bare, reduceCtorEq, atom.injEq, and_true] at h
  subst h
  next span' =>
  have hplain' : (atom _ span').plain := (plain_withSpan _ span').trans hplain
  exact ⟨.atom _ span', rfl, fun lookup => resolve_of_plain _ hplain'⟩

/-- The opposite of the positive counterpart is the negative number. -/
theorem opposite_natAbs {n : Int32} (hneg : n.toInt < 0) (hleast : n ≠ Int32.minValue) (span span' : Span) :
    (atom (.int (Int32.ofNat n.toInt.natAbs)) span).opposite span' = .ok (.atom (.int n) span') := by
  have hlow := n.le_toInt
  have hne : n.toInt ≠ -2147483648 := fun heq => hleast (Int32.toInt_inj.mp heq)
  have habs : (Int32.ofNat n.toInt.natAbs).toInt = n.toInt.natAbs := Int32.toInt_ofNat_of_lt (by omega)
  have hvalue : -(Int32.ofNat n.toInt.natAbs).toInt = n.toInt := by rw [habs]; omega
  have hback : int32? n.toInt = some n := by
    rw [int32?, if_pos (by omega), Int32.ofInt_toInt]
  rw [opposite, hvalue, hback]

/-- A number behind a minus sign. -/
theorem settles_of_opposite {a b : Atom} (hplain : ∀ span, (atom b span).plain)
    (hopposite : ∀ span span', (atom b span).opposite span' = .ok (.atom a span'))
    (h : w.bare = .neg (.atom b .none) .none) : (atom a span).Settles w := by
  cases w <;> simp only [bare, reduceCtorEq, neg.injEq, and_true] at h
  next w span' =>
  cases w <;> simp only [bare, reduceCtorEq, atom.injEq, and_true] at h
  subst h
  refine ⟨.atom a span', rfl, fun lookup => ?_⟩
  rw [resolve, resolve_of_plain _ (hplain _), pure_bind, hopposite]

/-- A plain atom, or the negation that a negative number was read back as, settles at once. -/
theorem settles_of_near_atom {a : Atom} (hplain : (atom a span).plain) (h : (atom a span).Near w) :
    (atom a span).Settles w := by
  rcases h with h | h
  · exact settles_atom hplain h
  rw [spelled] at h
  cases a with
  | int n =>
    rw [Atom.spelled] at h
    split at h
    next hneg => exact settles_of_opposite (fun _ => rfl) (opposite_natAbs hneg.1 hneg.2) h
    next => exact settles_atom hplain h
  | float x =>
    rw [Atom.spelled] at h
    split at h
    next => exact settles_atom hplain h
    next =>
      refine settles_of_opposite (fun _ => rfl) (fun span span' => ?_) h
      rw [opposite, Binary32.neg_neg]
  | _ => exact settles_atom hplain h

/-- **Items settle if each does**, and the lookup is not asked. -/
theorem settles_items {vs ws : List Value} (h : List.Forall₂ Settles vs ws) :
    ∃ us, us.map bare = vs.map bare ∧ ∀ lookup, resolveItems lookup ws = pure us := by
  induction h with
  | nil => exact ⟨[], rfl, fun _ => rfl⟩
  | @cons v w vs ws h _ ih =>
    obtain ⟨u, hu, hresolve⟩ := h
    obtain ⟨us, hus, hresolves⟩ := ih
    refine ⟨u :: us, by rw [List.map_cons, hu, hus, List.map_cons], fun lookup => ?_⟩
    rw [resolveItems, hresolve, hresolves]
    rfl

/-- Fields settle if each value does, under the same names. -/
theorem settles_fields {fs gs : Entries Value}
    (h : List.Forall₂ (fun e f => f.1 = e.1 ∧ e.2.Settles f.2) fs gs) :
    ∃ es : Entries Value, (es.map fun e => (e.1, e.2.bare)) = fs.map (fun e => (e.1, e.2.bare)) ∧
      ∀ lookup, resolveFields lookup gs = pure es := by
  induction h with
  | nil => exact ⟨[], rfl, fun _ => rfl⟩
  | @cons e f fs gs h _ ih =>
    obtain ⟨k, w⟩ := f
    obtain ⟨rfl, u, hu, hresolve⟩ := h
    obtain ⟨es, hes, hresolves⟩ := ih
    refine ⟨(e.1, u) :: es, by rw [List.map_cons, hu, hes, List.map_cons], fun lookup => ?_⟩
    rw [resolveFields, hresolve, hresolves]
    rfl

theorem settles_option {o o' : Option Value} (h : Option.Rel Settles o o') :
    ∃ o'', bareOption o'' = bareOption o ∧ ∀ lookup, resolveOption lookup o' = pure o'' := by
  cases h with
  | none => exact ⟨none, rfl, fun _ => rfl⟩
  | some h =>
    obtain ⟨u, hu, hresolve⟩ := h
    refine ⟨some u, by rw [bareOption, hu, bareOption], fun lookup => ?_⟩
    rw [resolveOption, hresolve]
    rfl

/-! What is near a value is made in the same way from what is near its parts. -/

/-- What is near a sequence is a sequence whose items are near its items. -/
theorem near_sequence {k : SequenceKind} {vs : List Value} (h : (sequence k vs span).Near w) :
    ∃ ws span', w = sequence k ws span' ∧ List.Forall₂ Near vs ws := by
  cases w <;> simp only [Near, bare, spelled, reduceCtorEq, or_self, sequence.injEq, and_true,
    bareItems_eq_map, spelledItems_eq_map] at h
  rcases h with ⟨rfl, h⟩ | ⟨rfl, h⟩
  · exact ⟨_, _, rfl, (forall₂_of_map_eq h).imp fun _ _ => .inl⟩
  · exact ⟨_, _, rfl, (forall₂_of_map_eq h).imp fun _ _ => .inr⟩

/-- What is near a record is a record whose fields are near its fields. -/
theorem near_record {k : RecordKind} {fs : Entries Value} (h : (record k fs span).Near w) :
    ∃ gs span', w = record k gs span' ∧ List.Forall₂ (fun e f => f.1 = e.1 ∧ e.2.Near f.2) fs gs := by
  cases w <;> simp only [Near, bare, spelled, reduceCtorEq, or_self, record.injEq, and_true,
    bareFields_eq_map, spelledFields_eq_map] at h
  rcases h with ⟨rfl, h⟩ | ⟨rfl, h⟩
  · exact ⟨_, _, rfl, (forall₂_of_map_eq h).imp fun _ _ h => (Prod.mk.inj h).imp id .inl⟩
  · exact ⟨_, _, rfl, (forall₂_of_map_eq h).imp fun _ _ h => (Prod.mk.inj h).imp id .inr⟩

theorem near_option {o o' : Option Value}
    (h : bareOption o' = bareOption o ∨ bareOption o' = spelledOption o) : Option.Rel Near o o' := by
  cases o with
  | none =>
    cases o' with
    | none => exact .none
    | some => rcases h with h | h <;> cases h
  | some v =>
    cases o' with
    | none => rcases h with h | h <;> cases h
    | some w => exact .some (h.imp Option.some.inj Option.some.inj)

/-- What is near a rule is a rule with the same marks, near in its default and its bounds. -/
theorem near_rule {m : RuleMarks} {d lo hi : Option Value} (h : (rule m d lo hi span).Near w) :
    ∃ d' lo' hi' span', w = rule m d' lo' hi' span' ∧ Option.Rel Near d d' ∧ Option.Rel Near lo lo' ∧
      Option.Rel Near hi hi' := by
  cases w <;> simp only [Near, bare, spelled, reduceCtorEq, or_self, rule.injEq, and_true] at h
  rcases h with ⟨rfl, hd, hlo, hhi⟩ | ⟨rfl, hd, hlo, hhi⟩
  · exact ⟨_, _, _, _, rfl, near_option (.inl hd), near_option (.inl hlo), near_option (.inl hhi)⟩
  · exact ⟨_, _, _, _, rfl, near_option (.inr hd), near_option (.inr hlo), near_option (.inr hhi)⟩

/-- **A value near a plain one is resolved to it** but for places. -/
theorem settles_of_near (hplain : v.plain) (h : v.Near w) : v.Settles w := by
  induction v using Value.induction generalizing w with
  | atom a span => exact settles_of_near_atom hplain h
  | sequence k vs span ih =>
    obtain ⟨ws, span', rfl, hnear⟩ := near_sequence h
    obtain ⟨us, hus, hresolve⟩ := settles_items <| (forall₂_mem hnear).imp fun v _ h =>
      ih v h.1 (allPlain_iff.mp hplain v h.1) h.2.2
    refine ⟨.sequence k us span', ?_, fun lookup => ?_⟩
    · rw [bare, bare, bareItems_eq_map, bareItems_eq_map, hus]
    · rw [resolve, hresolve]
      rfl
  | record k fs span ih =>
    obtain ⟨gs, span', rfl, hnear⟩ := near_record h
    obtain ⟨es, hes, hresolve⟩ := settles_fields <| (forall₂_mem hnear).imp fun e _ h =>
      ⟨h.2.2.1, ih e h.1 (allFieldsPlain_iff.mp hplain e h.1) h.2.2.2⟩
    refine ⟨.record k es span', ?_, fun lookup => ?_⟩
    · rw [bare, bare, bareFields_eq_map, bareFields_eq_map, hes]
    · rw [resolve, hresolve]
      rfl
  -- no operation is left in a plain value: a negation that was read back was an atom before
  | binary l op r span ihl ihr => cases hplain
  | neg v span ih => cases hplain
  | rule m d lo hi span ihd ihlo ihhi =>
    obtain ⟨d', lo', hi', span', rfl, hd, hlo, hhi⟩ := near_rule h
    simp only [plain, Bool.and_eq_true, optionPlain_iff] at hplain
    have hoption : ∀ {o o' : Option Value}, (∀ v ∈ o, ∀ {w}, v.plain → v.Near w → v.Settles w) →
        (∀ v ∈ o, v.plain) → Option.Rel Near o o' → Option.Rel Settles o o' := by
      intro o o' ih hplain h
      cases h with
      | none => exact .none
      | some h => exact .some (ih _ rfl (hplain _ rfl) h)
    obtain ⟨d'', hd'', hresolved⟩ := settles_option (hoption ihd hplain.1 hd)
    obtain ⟨lo'', hlo'', hresolvelo⟩ := settles_option (hoption ihlo hplain.2.1 hlo)
    obtain ⟨hi'', hhi'', hresolvehi⟩ := settles_option (hoption ihhi hplain.2.2 hhi)
    refine ⟨.rule m d'' lo'' hi'' span', ?_, fun lookup => ?_⟩
    · rw [bare, bare, hd'', hlo'', hhi'']
    · rw [resolve, hresolved, hresolvelo, hresolvehi]
      rfl

/-- **Where nothing is left to resolve**, values that are near differ in their places only. -/
theorem Near.bare_eq (h : v.Near w) (hv : v.plain) (hw : w.plain) : w.bare = v.bare := by
  obtain ⟨u, hu, hresolve⟩ := settles_of_near hv h
  rw [← eq_of_pure hresolve fun _ => resolve_of_plain w hw, hu]

end Value

/-! ## Tables and sections -/

/-- The properties of a section are resolved one after the other. -/
theorem settles_table {t u : Table Value} (h : t.Match Value.Near u) (hplain : ∀ v ∈ t.values, v.plain) :
    ∃ new, t.Match (fun v w => w.bare = v.bare) new ∧ ∀ lookup, resolveTable lookup u = pure new := by
  have hsettles : ∀ {k v w}, t.get? k = some v → v.Near w → v.Settles w := fun hv hnear =>
    Value.settles_of_near (hplain _ (Table.mem_values_iff.mpr ⟨_, hv⟩)) hnear
  have hall : ∀ w ∈ u.values, ∃ w', ∀ lookup, w.resolve lookup = pure w' := by
    intro w hw
    obtain ⟨k, hk⟩ := Table.mem_values_iff.mp hw
    obtain ⟨v, hv, hnear⟩ := h.exists_left hk
    obtain ⟨w', -, hw'⟩ := hsettles hv hnear
    exact ⟨w', hw'⟩
  choose! f hf using hall
  refine ⟨u.mapValues f, ?_, fun lookup => ?_⟩
  · refine h.mapValues fun k v w hv hw hnear => ?_
    obtain ⟨w', hbare, hw'⟩ := hsettles hv hnear
    have hmem : w ∈ u.values := Table.mem_values_iff.mpr ⟨k, hw⟩
    rw [eq_of_pure (hf w hmem) hw', hbare]
  · have hfields : Value.resolveFields lookup u.entries = pure (u.mapValues f).entries :=
      Value.resolveFields_of_forall <| List.forall₂_map_right_iff.mpr <| List.forall₂_same.mpr fun e he =>
        ⟨rfl, hf e.2 (List.mem_map.mpr ⟨e, he, rfl⟩) lookup⟩
    rw [resolveTable, hfields, pure_bind, Table.ofList_entries]

/-- The rules of schema sections are resolved one section after the other. -/
theorem settles_schemas {ss ts : Table Section} (h : ss.Match (Section.Match Value.Near) ts)
    (hplain : ∀ s ∈ ss.values, ∀ v ∈ s.properties.values, v.plain) :
    ∃ new, ss.Match (Section.Match Value.Near) new ∧
      ∀ lookup, resolveSchemas lookup ts.entries = pure new.entries := by
  have hsettles : ∀ {k s t}, ss.get? k = some s → s.Match Value.Near t → ∃ new,
      s.properties.Match (fun v w => w.bare = v.bare) new ∧
        ∀ lookup, resolveTable lookup t.properties = pure new := fun hs hnear =>
    settles_table hnear.properties (hplain _ (Table.mem_values_iff.mpr ⟨_, hs⟩))
  have hall : ∀ t ∈ ts.values, ∃ new, ∀ lookup, resolveTable lookup t.properties = pure new := by
    intro t ht
    obtain ⟨k, hk⟩ := Table.mem_values_iff.mp ht
    obtain ⟨s, hs, hnear⟩ := h.exists_left hk
    obtain ⟨new, -, hnew⟩ := hsettles hs hnear
    exact ⟨new, hnew⟩
  -- what the rules of a schema are resolved to depends on them alone, so it can be named for all
  -- schemas at once
  choose! f hf using hall
  refine ⟨ts.mapValues fun t => { t with properties := f t }, ?_, fun lookup => ?_⟩
  · refine h.mapValues fun k s t hs ht hnear => ?_
    obtain ⟨new, hbare, hnew⟩ := hsettles hs hnear
    have hmem : t ∈ ts.values := Table.mem_values_iff.mpr ⟨k, ht⟩
    refine ⟨hnear.name, hnear.parents, ?_, hnear.registry⟩
    rw [eq_of_pure (hf t hmem) hnew]
    exact hbare.imp fun _ _ _ _ _ => .inl
  · have hschemas : ∀ es : Entries Section, (∀ e ∈ es, e.2 ∈ ts.values) →
        resolveSchemas lookup es = pure (es.map fun e => (e.1, { e.2 with properties := f e.2 })) := by
      intro es hes
      induction es with
      | nil => rfl
      | cons e es ih =>
        rw [resolveSchemas, resolveSchema, hf e.2 (hes e List.mem_cons_self),
          ih fun e he => hes e (List.mem_cons_of_mem _ he)]
        rfl
    exact hschemas ts.entries fun e he => List.mem_map.mpr ⟨e, he, rfl⟩

/-! ## Documents -/

namespace Document

variable {p : Providers} {d e : Document} {ready : List String}

namespace Settled

/-- Noting the value of a macro: `[#define]` has no other. -/
theorem near_putMacro (hd : d.Settled ready) (h : d.Match Value.Near e) {name : String} {v w : Value}
    (hv : d.macros.get? name = some v) (hnear : v.Near w) : d.Match Value.Near (e.putMacro name w) where
  sections := by
    refine h.sections.modify fun s t hs hst => ?_
    have hproperties : s.properties.Match Value.Near (t.note name w).properties := by
      unfold Section.note
      split
      next hcontains =>
        -- the document has this name in `[#define]` too, with the value of the macro
        rw [← hst.properties.contains_eq] at hcontains
        obtain ⟨u, hu⟩ := Option.isSome_iff_exists.mp hcontains
        have hgathered := hd.gathered name u (by rw [get?, hs]; exact hu)
        obtain rfl : v = u := Option.some.inj (hv.symm.trans hgathered)
        exact hst.properties.insert hu hnear
      next => exact hst.properties
    have hname : (t.note name w).name = t.name := by
      unfold Section.note
      split <;> rfl
    exact ⟨hname.trans hst.name, (Section.parents_note _ _ _).trans hst.parents, hproperties,
      (Section.registry_note _ _ _).symm ▸ hst.registry⟩
  macros := h.macros.insert hv hnear
  schemas := h.schemas

/-- A macro near a settled document is resolved, and the document stays near. -/
theorem preserves_resolveMacro (hd : d.Settled ready) {i : Idle} {name : String}
    (hname : name ∈ d.macros.keys) (hidle : name ∈ i.macros) (span : Span) :
    Preserves (d.Match Value.Near) (resolveMacro p i name span) := by
  obtain ⟨v, hv⟩ := Option.isSome_iff_exists.mp (Table.contains_iff.mpr hname)
  have hplain := hd.macros v (Table.mem_values_iff.mpr ⟨name, hv⟩)
  intro q hq
  obtain ⟨w, hw, hnear⟩ := hq.macros.exists_right hv
  by_cases hdone : name ∈ q.doneMacros
  · exact ⟨_, q, resolveMacro_of_done hw hdone, hq⟩
  · obtain ⟨u, hu, hresolve⟩ := Value.settles_of_near hplain hnear
    rw [resolveMacro_of_idle hw hdone hidle, hresolve]
    exact ⟨_, q.note name u, rfl, hd.near_putMacro hq hv (.inl hu)⟩

/-- Taking the contents out of a section and putting back what they are resolved to. -/
theorem preserves_resolveContents (hd : d.Settled ready) {name : String} (hname : name ∈ ready) (j : Idle) :
    Preserves (d.Match Value.Near) (resolveContents p j name) := by
  obtain ⟨s, hs, hplain⟩ := hd.contents name hname
  intro q hq
  obtain ⟨t, ht, hst⟩ := hq.sections.exists_right hs
  obtain ⟨new, hnew, hproperties⟩ := settles_table hst.properties fun v hv => hplain v (List.mem_append_left _ hv)
  obtain ⟨us, hus, hregistry⟩ := Value.settles_items <| (forall₂_mem hst.registry).imp fun v _ h =>
    Value.settles_of_near (hplain v (Section.mem_contents_of_entry h.1)) h.2.2
  rw [resolveContents, bind_of_ok (takeContents_of_declared ht)]
  simp only [hproperties, hregistry, pure_bind]
  have hfilled : ∀ s' t', d.sections.get? name = some s' → s'.Match Value.Near t' →
      s'.Match Value.Near { t' with properties := new, registry := us } := by
    intro s' t' hs' hst'
    obtain rfl : s = s' := Option.some.inj (hs.symm.trans hs')
    exact ⟨hst'.name, hst'.parents, hnew.imp fun _ _ _ _ _ => .inl, (forall₂_of_map_eq hus).imp fun _ _ => .inl⟩
  -- in between the section is empty, but nothing looks at it there
  have hsections : d.sections.Match (Section.Match Value.Near)
      ((q.document.sections.modify name ({ · with properties := ∅, registry := [] })).modify name
        ({ · with properties := new, registry := us })) := by
    rw [Table.modify_modify]
    exact hq.sections.modify hfilled
  exact ⟨(), _, rfl, hsections, hq.macros, hq.schemas⟩

/-- Near a settled document there is nothing to adopt. -/
theorem inherit_near (hd : d.Settled ready) (h : d.Match Value.Near e) {n parent : String} {s : Section}
    (hn : n ∈ ready) (hs : d.sections.get? n = some s) (hparent : parent ∈ s.parents) :
    e.inherit n parent = e := by
  obtain ⟨hready, hnames⟩ := hd.parents n hn s hs parent hparent
  obtain ⟨t, ht, -⟩ := hd.contents parent hready
  obtain ⟨t', ht', htt'⟩ := h.sections.exists_right ht
  have hadopt : ∀ s', e.sections.get? n = some s' → s'.adopt t'.properties = s' := by
    intro s' hs'
    obtain ⟨_, hs'', hss'⟩ := h.sections.exists_left hs'
    obtain rfl := Option.some.inj (hs.symm.trans hs'')
    refine Section.adopt_eq_self fun k hk => ?_
    rw [← hss'.properties.contains_eq]
    refine hnames k ?_
    rw [get?, ht]
    exact Table.contains_iff.mpr (htt'.properties.mem_keys_iff.mpr hk)
  rw [inherit_eq ht', Table.modify_eq_self hadopt]

/-- **Every step of resolving keeps a document near a settled one.** -/
theorem stable_near (hd : d.Settled ready) : Stable p d ready (d.Match Value.Near) where
  declared e he n hn := by
    obtain ⟨s, hs, -⟩ := hd.contents n hn
    obtain ⟨t, ht, hst⟩ := he.sections.exists_right hs
    exact ⟨s, t, hs, ht, hst.parents⟩
  parents n hn s hs parent hparent :=
    ⟨(hd.parents n hn s hs parent hparent).1, fun e he => (hd.inherit_near he hn hs hparent).symm ▸ he⟩
  contents n hn j := hd.preserves_resolveContents hn j
  grounded := hd.grounded

/-- **Resolving succeeds near a settled document and stays near it**, if no section is missing from those
    that are ready. -/
theorem resolve_near (hd : d.Settled ready)
    (hall : ∀ n ∈ d.sections.keys, Section.isSpecialName n = false → n ∈ ready)
    (h : d.Match Value.Near e.gatherMacros) : ∃ r, e.resolve p = .ok r ∧ d.Match Value.Near r := by
  have hpresent : ∀ n ∈ ready, n ∈ e.gatherMacros.sections.keys := by
    intro n hn
    obtain ⟨s, hs, -⟩ := hd.contents n hn
    exact h.sections.mem_keys_iff.mp (Table.contains_iff.mp (by rw [Table.contains, hs]; rfl))
  have hmacros : ∀ m ∈ e.gatherMacros.macros.keys, Preserves (d.Match Value.Near)
      (do let _ ← resolveMacro p (.all e.gatherMacros) m .none) := fun m hm =>
    (hd.preserves_resolveMacro (h.macros.mem_keys_iff.mpr hm) hm .none).bind fun _ => .pure ()
  have hsections : ∀ n ∈ e.gatherMacros.sections.keys.filter (!Section.isSpecialName ·),
      Preserves (d.Match Value.Near) (resolveSection p (.all e.gatherMacros) n) := by
    intro n hn
    obtain ⟨hn, hspecial⟩ := List.mem_filter.mp hn
    have hready := hall n (h.sections.mem_keys_iff.mpr hn) (by simpa using hspecial)
    exact hd.stable_near.preserves_resolveSection (hd.grounded n hready) n hready rfl _
      fun m hm _ => hpresent m hm
  have hnodes : Preserves (d.Match Value.Near) (Progress.resolveNodes p e.gatherMacros) :=
    (Preserves.forM hmacros).bind fun _ => .forM hsections
  obtain ⟨_, q, hrun, hq⟩ := hnodes ⟨e.gatherMacros, [], []⟩ h
  obtain ⟨new, hnew, hschemas⟩ := settles_schemas hq.schemas hd.schemas
  refine ⟨_, resolve_phases.mpr ⟨q, new.entries, q.withSchemas ∅, hrun, by rw [hschemas]; rfl, rfl⟩, ?_⟩
  exact ⟨hq.sections, hq.macros, (Table.ofList_entries new).symm ▸ hnew⟩

end Settled

end Document

end Yini
