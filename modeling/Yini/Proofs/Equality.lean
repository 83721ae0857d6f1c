import Mathlib.Data.List.Perm.Basic
import Mathlib.Data.List.Forall2
import Mathlib.Data.List.Nodup
import Yini.Document.Basic
import Yini.Proofs.Document

/-!
Values that differ in their places only are equal (`Value.same_of_bare_eq`), if all numbers in them are
finite and no record has a field twice.  So are documents that hold such values (`Document.Match.same`).
-/

namespace Yini

variable {α β γ : Type}

/-! ## Tables -/

/-- Entries that keep their names keep the order of the names. -/
theorem keys_of_forall₂ {R : String × α → String × β → Prop} {es : Entries α} {fs : Entries β}
    (hR : ∀ e f, R e f → f.1 = e.1) (h : List.Forall₂ R es fs) : fs.keys = es.keys := by
  induction h with
  | nil => rfl
  | cons h _ ih => rw [Entries.keys_cons, Entries.keys_cons, ih, hR _ _ h]

/-- Entries that go together hold under each name what goes together. -/
theorem Entries.rel_of_forall₂ {R : α → β → Prop} {es : Entries α} {fs : Entries β}
    (h : List.Forall₂ (fun e f => f.1 = e.1 ∧ R e.2 f.2) es fs) (k : String) :
    Option.Rel R (es.get? k) (fs.get? k) := by
  induction h with
  | nil => exact .none
  | @cons e f es fs h _ ih =>
    obtain ⟨l, v⟩ := e
    obtain ⟨l', w⟩ := f
    obtain ⟨rfl, hvw⟩ := h
    by_cases hl : l' = k
    · simpa only [get?, if_pos hl] using .some hvw
    · simpa only [get?, if_neg hl] using ih

/-- Two tables have the same names, and what they hold under each is so related. -/
def Table.Match (R : α → β → Prop) (s : Table α) (t : Table β) : Prop :=
  ∀ k, Option.Rel R (s.get? k) (t.get? k)

namespace Table.Match

variable {R : α → β → Prop} {s : Table α} {t : Table β} {k : String}

/-- What is found in the first table has its match in the second. -/
theorem exists_right (h : Match R s t) {v : α} (hv : s.get? k = some v) : ∃ w, t.get? k = some w ∧ R v w := by
  have hk := h k
  rw [hv] at hk
  generalize ht : t.get? k = o at hk
  cases hk with
  | some hvw => exact ⟨_, rfl, hvw⟩

/-- What is found in the second table has its match in the first. -/
theorem exists_left (h : Match R s t) {w : β} (hw : t.get? k = some w) : ∃ v, s.get? k = some v ∧ R v w := by
  have hk := h k
  rw [hw] at hk
  generalize hs : s.get? k = o at hk
  cases hk with
  | some hvw => exact ⟨_, rfl, hvw⟩

/-- Tables match in any way in which the values do that match in another one. -/
theorem imp {S : α → β → Prop} (h : Match R s t)
    (hRS : ∀ k v w, s.get? k = some v → t.get? k = some w → R v w → S v w) : Match S s t := by
  intro k
  have hk := h k
  generalize hs : s.get? k = o at hk ⊢
  generalize ht : t.get? k = o' at hk ⊢
  cases hk with
  | some hvw => exact .some (hRS k _ _ hs ht hvw)
  | none => exact .none

theorem contains_eq (h : Match R s t) (k : String) : s.contains k = t.contains k := by
  have hk := h k
  unfold Table.contains
  generalize s.get? k = o at hk
  generalize t.get? k = o' at hk
  cases hk <;> rfl

theorem mem_keys_iff (h : Match R s t) : k ∈ s.keys ↔ k ∈ t.keys := by
  rw [← contains_iff, ← contains_iff, h.contains_eq]

/-- The same names are missing from matching tables. -/
theorem get?_eq_none_iff (h : Match R s t) : s.get? k = none ↔ t.get? k = none := by
  rw [Table.get?_eq_none_iff, h.mem_keys_iff, ← Table.get?_eq_none_iff]

theorem refl {R : α → α → Prop} (h : ∀ v, R v v) (t : Table α) : Match R t t := by
  intro k
  cases t.get? k with
  | none => exact .none
  | some v => exact .some (h v)

/-- Tables that match in equal values have the same look-ups. -/
theorem get?_eq {s t : Table α} (h : Match (· = ·) s t) (k : String) : s.get? k = t.get? k := by
  have hk := h k
  generalize s.get? k = o at hk
  generalize t.get? k = o' at hk
  cases hk with
  | none => rfl
  | some hvw => rw [hvw]

/-- Tables with the same look-ups match in equal values. -/
theorem of_get?_eq {s t : Table α} (h : ∀ k, s.get? k = t.get? k) : Match (· = ·) s t := by
  intro k
  rw [h k]
  exact refl Eq.refl t k

/-- What depends on a value in the same way in both tables is the same. -/
theorem bind_eq (h : Match R s t) {f : α → Option γ} {g : β → Option γ}
    (hfg : ∀ v w, R v w → f v = g w) (k : String) : (s.get? k).bind f = (t.get? k).bind g := by
  have hk := h k
  generalize s.get? k = o at hk ⊢
  generalize t.get? k = o' at hk ⊢
  cases hk with
  | none => rfl
  | some hvw => exact hfg _ _ hvw

/-- What is made of a value in the same way in both tables is the same. -/
theorem map_eq (h : Match R s t) {f : α → γ} {g : β → γ} (hfg : ∀ v w, R v w → f v = g w)
    (k : String) : (s.get? k).map f = (t.get? k).map g := by
  rw [Option.map_eq_bind, Option.map_eq_bind]
  exact h.bind_eq (fun v w hvw => congrArg some (hfg v w hvw)) k

/-- Tables that hold the same differ in their order only. -/
theorem iff_perm {s t : Table α} : Match (· = ·) s t ↔ s.entries.Perm t.entries := by
  have hnodup : ∀ u : Table α, u.entries.Nodup := fun u => List.Nodup.of_map _ u.nodup_keys
  rw [List.perm_ext_iff_of_nodup (hnodup s) (hnodup t)]
  constructor
  · rintro h ⟨k, v⟩
    rw [mem_entries_iff, mem_entries_iff, h.get?_eq]
  · refine fun h => of_get?_eq fun k => Option.ext fun v => ?_
    rw [← mem_entries_iff, ← mem_entries_iff, h]

theorem flip (h : Match R s t) : Match (fun w v => R v w) t s := by
  intro k
  have hk := h k
  generalize s.get? k = o at hk ⊢
  generalize t.get? k = o' at hk ⊢
  cases hk with
  | some hvw => exact .some hvw
  | none => exact .none

theorem of_isSome_eq {s : Table α} {t : Table β} (h : ∀ k, (s.get? k).isSome = (t.get? k).isSome) :
    Match (fun _ _ => True) s t := by
  intro k
  have hk := h k
  generalize s.get? k = o at hk
  generalize t.get? k = o' at hk
  cases o <;> cases o' <;> first | exact .none | exact .some trivial | cases hk

theorem size_eq (h : Match R s t) : s.size = t.size := by
  have hperm : s.keys.Perm t.keys :=
    (List.perm_ext_iff_of_nodup s.nodup_keys t.nodup_keys).mpr fun _ => h.mem_keys_iff
  have hlength := hperm.length_eq
  rwa [keys, keys, Entries.keys, Entries.keys, List.length_map, List.length_map] at hlength

/-- A new value for a name of both. -/
theorem insert (h : Match R s t) {v : α} {w : β} (hv : s.get? k = some v) (hvw : R v w) :
    Match R s (t.insert k w) := by
  intro l
  by_cases hl : k = l
  · subst hl
    rw [hv, get?_insert_self]
    exact .some hvw
  · rw [get?_insert_of_ne t hl]
    exact h l

/-- Tables match after a value is changed for one that matches as well. -/
theorem modify (h : Match R s t) {f : β → β} (hf : ∀ v w, s.get? k = some v → R v w → R v (f w)) :
    Match R s (t.modify k f) := by
  intro l
  by_cases hl : k = l
  · subst hl
    rw [get?_modify_self]
    have hk := h k
    generalize hs : s.get? k = o at hk
    generalize t.get? k = o' at hk
    cases hk with
    | some hvw => exact .some (hf _ _ hs hvw)
    | none => exact .none
  · rw [get?_modify_of_ne t hl]
    exact h l

/-- Tables with the same images. -/
theorem of_mapValues_eq {f : α → γ} {g : β → γ} (h : t.mapValues g = s.mapValues f) :
    Match (fun v w => g w = f v) s t := by
  intro k
  have hk := congrArg (·.get? k) h
  simp only [get?_mapValues] at hk
  generalize s.get? k = o at hk ⊢
  generalize t.get? k = o' at hk ⊢
  cases o with
  | none =>
    obtain rfl := Option.map_eq_none_iff.mp hk
    exact .none
  | some v =>
    obtain ⟨w, rfl, hw⟩ := Option.map_eq_some_iff.mp hk
    exact .some hw

/-- Entries that go together make tables that do. -/
theorem of_forall₂ {es : Entries β}
    (h : List.Forall₂ (fun e f => f.1 = e.1 ∧ R e.2 f.2) s.entries es) : Match R s (.ofList es) := by
  have hnodup : (Entries.keys es).Nodup := by
    rw [keys_of_forall₂ (fun _ _ h => h.1) h]
    exact s.nodup_keys
  intro k
  rw [get?, get?, entries_ofList hnodup]
  exact Entries.rel_of_forall₂ h k

/-- Entries in another order, each with what goes together with it. -/
theorem of_perm {s : Table α} {t : Table β} {es : Entries α} (hperm : s.entries.Perm es)
    (h : List.Forall₂ (fun e f => f.1 = e.1 ∧ R e.2 f.2) es t.entries) : Match R s t := by
  have hnodup : es.keys.Nodup := (hperm.map Prod.fst).nodup_iff.mp s.nodup_keys
  have hsame : Match (· = ·) s ⟨es, hnodup⟩ := iff_perm.mpr hperm
  intro k
  rw [hsame.get?_eq k]
  exact Entries.rel_of_forall₂ h k

/-- Tables match after all values are changed for ones that match. -/
theorem mapValues {S : α → γ → Prop} (h : Match R s t) {f : β → γ}
    (hf : ∀ k v w, s.get? k = some v → t.get? k = some w → R v w → S v (f w)) :
    Match S s (t.mapValues f) := by
  intro k
  rw [get?_mapValues]
  have hk := h k
  generalize hs : s.get? k = o at hk ⊢
  generalize ht : t.get? k = o' at hk ⊢
  cases hk with
  | some hvw => exact .some (hf k _ _ hs ht hvw)
  | none => exact .none

/-- Tables are equal if what they hold is. -/
theorem sameTable {same : α → α → Bool} {s t : Table α} (h : Match (fun v w => same v w = true) s t) :
    Section.sameTable same s t := by
  rw [Section.sameTable, Bool.and_eq_true, beq_iff_eq, List.all_eq_true]
  refine ⟨h.size_eq, fun ⟨k, v⟩ he => ?_⟩
  obtain ⟨w, hw, hsame⟩ := h.exists_right (mem_entries_iff.mp he)
  simp only [hw, hsame]

/-- Tables that are equal hold the same: there is no room for another name in the second one. -/
theorem of_sameTable {same : α → α → Bool} {s t : Table α} (h : Section.sameTable same s t) :
    Match (fun v w => same v w = true) s t := by
  rw [Section.sameTable, Bool.and_eq_true, beq_iff_eq, List.all_eq_true] at h
  obtain ⟨hsize, hall⟩ := h
  have hfound : ∀ k v, s.get? k = some v → ∃ w, t.get? k = some w ∧ same v w = true := by
    intro k v hv
    have hsame := hall (k, v) (mem_entries_iff.mpr hv)
    cases ht : t.get? k with
    | none => simp [ht] at hsame
    | some w => exact ⟨w, rfl, by simpa [ht] using hsame⟩
  have hsub : s.keys ⊆ t.keys := by
    intro k hk
    obtain ⟨v, hv⟩ := Option.isSome_iff_exists.mp (contains_iff.mpr hk)
    obtain ⟨w, hw, -⟩ := hfound k v hv
    exact contains_iff.mp (by rw [contains, hw]; rfl)
  -- only the names of the first table are compared one by one; the equal sizes do the rest
  have hlength : t.keys.length ≤ s.keys.length := by
    rw [keys, keys, Entries.keys, Entries.keys, List.length_map, List.length_map]
    exact Nat.le_of_eq hsize.symm
  have hperm := (List.subperm_of_subset s.nodup_keys hsub).perm_of_length_le hlength
  intro k
  cases hk : s.get? k with
  | none =>
    have hnone : t.get? k = none := Table.get?_eq_none_iff.mpr fun hmem =>
      Table.get?_eq_none_iff.mp hk (hperm.mem_iff.mpr hmem)
    rw [hnone]
    exact .none
  | some v =>
    obtain ⟨w, hw, hsame⟩ := hfound k v hk
    rw [hw]
    exact .some hsame

end Table.Match

/-- Lists with the same images hold elements with the same image, place by place. -/
theorem forall₂_of_map_eq {f : α → γ} {g : β → γ} {as : List α} {bs : List β}
    (h : bs.map g = as.map f) : List.Forall₂ (fun a b => g b = f a) as bs := by
  induction as generalizing bs with
  | nil =>
    obtain rfl := List.map_eq_nil_iff.mp h
    exact .nil
  | cons a as ih =>
    obtain ⟨b, bs, rfl, hb, hbs⟩ := List.map_eq_cons_iff.mp h
    exact .cons hb (ih hbs)

/-- What is related place by place stands in the lists. -/
theorem forall₂_mem {R : α → β → Prop} {as : List α} {bs : List β} (h : List.Forall₂ R as bs) :
    List.Forall₂ (fun a b => a ∈ as ∧ b ∈ bs ∧ R a b) as bs := by
  induction h with
  | nil => exact .nil
  | cons h _ ih =>
    refine .cons ⟨List.mem_cons_self, List.mem_cons_self, h⟩ (ih.imp fun a b h => ?_)
    exact ⟨List.mem_cons_of_mem _ h.1, List.mem_cons_of_mem _ h.2.1, h.2.2⟩

/-! ## Values -/

theorem Extended.same_self {x : Extended} (h : x.isFinite) : x.same x := by
  cases x with
  | finite => exact beq_self_eq_true _
  | _ => cases h

/-- An atom with finite numbers is the same as itself. -/
theorem Atom.same_self {a : Atom} (h : a.isFinite) : a.same a := by
  cases a with
  | float x => exact Extended.same_self h
  | coord c =>
    rw [isFinite, Bool.and_eq_true, Bool.and_eq_true] at h
    simp only [same, Coord.same, Binary32.same, Extended.same_self h.1.1, Extended.same_self h.1.2,
      Extended.same_self h.2, beq_self_eq_true, Bool.and_self]
  | _ => exact beq_self_eq_true _

namespace Value

/-- Lists are the same exactly if their items are, one by one. -/
theorem sameItems_iff {vs ws : List Value} :
    sameItems vs ws ↔ List.Forall₂ (fun v w => v.same w = true) vs ws := by
  induction vs generalizing ws with
  | nil => cases ws <;> simp [sameItems]
  | cons v vs ih => cases ws <;> simp [sameItems, ih]

/-- Fields are the same exactly if each has its equal in the others. -/
theorem sameFields_iff {fs gs : Entries Value} :
    sameFields fs gs ↔ ∀ e ∈ fs, ∃ w, gs.get? e.1 = some w ∧ e.2.same w := by
  induction fs with
  | nil => simp [sameFields]
  | cons e fs ih =>
    obtain ⟨k, v⟩ := e
    cases hk : gs.get? k <;> simp [sameFields, ih, hk]

/-- Fields that differ in their places only. -/
theorem sameFields_of_bare_eq {fs gs : Entries Value} (hnodup : fs.keys.Nodup)
    (hbare : gs.map (fun e => (e.1, e.2.bare)) = fs.map fun e => (e.1, e.2.bare))
    (hsame : ∀ e ∈ fs, ∀ w : Value, w.bare = e.2.bare → e.2.same w) :
    fs.length = gs.length ∧ sameFields fs gs := by
  have hkeys : gs.keys = fs.keys := by
    rw [← Entries.keys_map bare gs, hbare, Entries.keys_map]
  refine ⟨by simpa using (congrArg List.length hbare).symm, sameFields_iff.mpr fun e he => ?_⟩
  have hmem : (e.1, e.2.bare) ∈ gs.map fun e => (e.1, e.2.bare) :=
    hbare ▸ List.mem_map.mpr ⟨e, he, rfl⟩
  obtain ⟨⟨l, w⟩, hw, heq⟩ := List.mem_map.mp hmem
  obtain ⟨rfl, hw'⟩ := Prod.mk.inj heq
  exact ⟨w, Entries.get?_of_mem (hkeys ▸ hnodup) hw, hsame e he w hw'⟩

theorem sameOption_of_bare_eq {o o' : Option Value} (hbare : bareOption o' = bareOption o)
    (hsame : ∀ v ∈ o, ∀ w : Value, w.bare = v.bare → v.same w) : sameOption o o' := by
  cases o with
  | none =>
    cases o' with
    | none => rfl
    | some => cases hbare
  | some v =>
    cases o' with
    | none => cases hbare
    | some w => exact hsame v rfl w (Option.some.inj hbare)

/-- **Values that differ in their places only are equal.** -/
theorem same_of_bare_eq {v w : Value} (hfinite : v.isFinite) (hwell : v.wellFormed) (h : w.bare = v.bare) :
    v.same w := by
  induction v using Value.induction generalizing w with
  | atom a span =>
    -- the other value has the same form, for places are all that it may differ in
    cases w <;> simp only [bare, reduceCtorEq, atom.injEq, and_true] at h
    subst h
    exact Atom.same_self hfinite
  | sequence k vs span ih =>
    cases w <;> simp only [bare, reduceCtorEq, sequence.injEq, and_true, bareItems_eq_map] at h
    obtain ⟨rfl, hbare⟩ := h
    have hitems := (forall₂_mem (forall₂_of_map_eq hbare)).imp fun v w h =>
      ih v h.1 (allFinite_iff.mp hfinite v h.1) (allWellFormed_iff.mp hwell v h.1) h.2.2
    rw [same, sameItems_iff.mpr hitems, beq_self_eq_true]
    rfl
  | record k fs span ih =>
    cases w <;> simp only [bare, reduceCtorEq, record.injEq, and_true, bareFields_eq_map] at h
    obtain ⟨rfl, hbare⟩ := h
    obtain ⟨hlength, hfields⟩ := sameFields_of_bare_eq (nodup_of_wellFormed hwell) hbare
      fun e he w hw => ih e he (allFieldsFinite_iff.mp hfinite e he) (fields_of_wellFormed hwell e he) hw
    rw [same, hfields, hlength, beq_self_eq_true, beq_self_eq_true]
    rfl
  | binary l op r span ihl ihr =>
    cases w <;> simp only [bare, reduceCtorEq, binary.injEq, and_true] at h
    obtain ⟨hl, rfl, hr⟩ := h
    rw [isFinite, Bool.and_eq_true] at hfinite
    rw [wellFormed, Bool.and_eq_true] at hwell
    rw [same, ihl hfinite.1 hwell.1 hl, ihr hfinite.2 hwell.2 hr, beq_self_eq_true]
    rfl
  | neg v span ih =>
    cases w <;> simp only [bare, reduceCtorEq, neg.injEq, and_true] at h
    exact ih hfinite hwell h
  | rule m d lo hi span ihd ihlo ihhi =>
    cases w <;> simp only [bare, reduceCtorEq, rule.injEq, and_true] at h
    obtain ⟨rfl, hd, hlo, hhi⟩ := h
    simp only [isFinite, Bool.and_eq_true, optionFinite_iff] at hfinite
    simp only [wellFormed, Bool.and_eq_true, optionWellFormed_iff] at hwell
    have hsamed := sameOption_of_bare_eq hd fun v hv w hw => ihd v hv (hfinite.1.1 v hv) (hwell.1.1 v hv) hw
    have hsamelo := sameOption_of_bare_eq hlo fun v hv w hw =>
      ihlo v hv (hfinite.1.2 v hv) (hwell.1.2 v hv) hw
    have hsamehi := sameOption_of_bare_eq hhi fun v hv w hw => ihhi v hv (hfinite.2 v hv) (hwell.2 v hv) hw
    rw [same, hsamed, hsamelo, hsamehi, beq_self_eq_true]
    rfl

end Value

/-! ## Documents -/

/-- Two sections have the same name, the same parents and the same names of properties, and what they
    hold is so related. -/
structure Section.Match (R : Value → Value → Prop) (s t : Section) : Prop where
  name : t.name = s.name
  parents : t.parents = s.parents
  properties : s.properties.Match R t.properties
  registry : List.Forall₂ R s.registry t.registry

/-- Two documents have the same names everywhere, and what they hold is so related. -/
structure Document.Match (R : Value → Value → Prop) (d e : Document) : Prop where
  sections : d.sections.Match (Section.Match R) e.sections
  macros : d.macros.Match R e.macros
  schemas : d.schemas.Match (Section.Match R) e.schemas

/-- Documents with sections that match have properties that do. -/
theorem Document.rel_get? {R : Value → Value → Prop} {d e : Document}
    (h : d.sections.Match (Section.Match R) e.sections) (n k : String) :
    Option.Rel R (d.get? n k) (e.get? n k) := by
  have hn := h n
  unfold get?
  generalize d.sections.get? n = o at hn ⊢
  generalize e.sections.get? n = o' at hn ⊢
  cases hn with
  | some hst => exact hst.properties k
  | none => exact .none

theorem Section.Match.imp {R S : Value → Value → Prop} {s t : Section} (h : Match R s t)
    (hproperties : ∀ k v w, s.properties.get? k = some v → t.properties.get? k = some w → R v w → S v w)
    (hregistry : ∀ v ∈ s.registry, ∀ w ∈ t.registry, R v w → S v w) : Match S s t where
  name := h.name
  parents := h.parents
  properties := h.properties.imp hproperties
  registry := (forall₂_mem h.registry).imp fun v w h => hregistry v h.1 w h.2.1 h.2.2

theorem Section.Match.refl (s : Section) : Match (· = ·) s s :=
  ⟨rfl, rfl, .refl Eq.refl _, List.forall₂_same.mpr fun _ _ => rfl⟩

/-- Sections with the same heading and the same names of properties, and with registries of the same
    length. -/
theorem Section.Match.of_heading_eq {s t : Section} (h : s.heading = t.heading)
    (hnames : ∀ k, (s.properties.get? k).isSome = (t.properties.get? k).isSome)
    (hlength : s.registry.length = t.registry.length) : Match (fun _ _ => True) s t := by
  obtain ⟨hname, hparents⟩ := Prod.mk.inj h
  exact ⟨hname.symm, hparents.symm, .of_isSome_eq hnames,
    List.forall₂_iff_get.mpr ⟨hlength, fun _ _ _ => trivial⟩⟩

/-- Sections that match in equal values have the same registry. -/
theorem Section.Match.registry_eq {s t : Section} (h : Match (· = ·) s t) :
    t.registry = s.registry := by
  have hregistry := h.registry
  rw [List.forall₂_eq_eq_eq] at hregistry
  exact hregistry.symm

/-- Sections that match hold the same if their properties and registries do. -/
theorem Section.Match.of_eq {R : Value → Value → Prop} {s t : Section} (h : Match R s t)
    (hproperties : ∀ k, s.properties.get? k = t.properties.get? k) (hregistry : s.registry = t.registry) :
    Match (· = ·) s t :=
  ⟨h.name, h.parents, .of_get?_eq hproperties, hregistry ▸ List.forall₂_same.mpr fun _ _ => rfl⟩

theorem Section.Match.symm {s t : Section} (h : Match (· = ·) s t) : Match (· = ·) t s where
  name := h.name.symm
  parents := h.parents.symm
  properties := .of_get?_eq fun k => (h.properties.get?_eq k).symm
  registry := h.registry_eq ▸ List.forall₂_same.mpr fun _ _ => rfl

/-- Sections whose values are the same are the same. -/
theorem Section.Match.same {s t : Section} (h : Match (fun v w => v.same w = true) s t) : s.same t := by
  rw [Section.same, h.name, h.parents, h.properties.sameTable, Value.sameItems_iff.mpr h.registry,
    beq_self_eq_true, beq_self_eq_true]
  rfl

/-- **Documents are equal if what they hold is.** -/
theorem Document.Match.same {d e : Document} (h : Match (fun v w => v.same w = true) d e) : d.same e := by
  have hsections : ∀ {t u : Table Section}, t.Match (Section.Match fun v w => v.same w = true) u →
      Section.sameTable Section.same t u :=
    fun h => (h.imp fun _ _ _ _ _ h => h.same).sameTable
  rw [Document.same, hsections h.sections, h.macros.sameTable, hsections h.schemas]
  rfl

end Yini
