import Yini.Proofs.Resolve.Again

/-!
What the values of a document depend on.

Two states of resolving one document agree on all that is done in both (`Sound.valueAt?_eq`), apart
from what depends on a contested property of `[#define]`: from *tainted* values.  A value is tainted
if it is such a property, if it is inherited from a tainted one, or if its expression refers to a
tainted one.  Whether there is a value at all does not depend on anything but the declarations
(`Sound.isSome_iff_holds`).
-/

namespace Yini

/-! ## Slots -/

/-- Where a value stands in a document: a property, an entry of a registry, a macro, or a rule of a
    schema. -/
inductive Slot where
  | property (name key : String)
  | entry (name : String) (index : Nat)
  | ofMacro (name : String)
  | rule (name key : String)
deriving DecidableEq

namespace Slot

/-- The section or macro that the slot belongs to. -/
def node? : Slot → Option Node
  | property name _ => some (.ofSection name)
  | entry name _ => some (.ofSection name)
  | ofMacro name => some (.ofMacro name)
  | rule _ _ => none

end Slot

/-- The slot that a reference is to. -/
def Reference.slot? (r : Reference) : Option Slot :=
  match r.kind with
  | .macroName => some (.ofMacro r.target)
  | .crossSection => r.sectionKey?.map fun e => .property e.1 e.2
  | .environment => none
  | .localization => none

/-- A reference leads to the node of the slot that it is read from. -/
theorem Reference.node?_eq (r : Reference) : r.node? = r.slot?.bind Slot.node? := by
  obtain ⟨kind, target⟩ := r
  cases kind with
  | crossSection =>
    show (Reference.sectionKey? _).map _ = _
    cases hkey : Reference.sectionKey? ⟨.crossSection, target⟩ with
    | none => rw [slot?, hkey]; rfl
    | some e => rw [slot?, hkey]; rfl
  | _ => rfl

/-- A reference that is read from a slot leads to a node, the one of the slot. -/
theorem Reference.node?_of_slot? {r : Reference} {s : Slot} (h : r.slot? = some s) :
    ∃ n, r.node? = some n ∧ s.node? = some n := by
  obtain ⟨kind, target⟩ := r
  cases kind with
  | macroName => cases h; exact ⟨_, rfl, rfl⟩
  | environment => cases h
  | localization => cases h
  | crossSection =>
    obtain ⟨e, hkey, rfl⟩ := Option.map_eq_some_iff.mp h
    refine ⟨.ofSection e.1, ?_, rfl⟩
    show (Reference.sectionKey? _).map _ = _
    rw [hkey]
    rfl

/-- A reference to a contested property is one to a property of `[#define]`. -/
theorem Reference.slot?_of_contested {d : Document} {r : Reference} (h : r.contested d = true) :
    ∃ k, r.slot? = some (.property defineName k) ∧ d.contested k := by
  obtain ⟨kind, target⟩ := r
  unfold contested at h
  split at h
  next name key hkind hkey =>
    simp only at hkind
    subst hkind
    simp only [Bool.and_eq_true, beq_iff_eq] at h
    obtain ⟨rfl, hcontested⟩ := h
    exact ⟨key, by simp only [slot?, hkey, Option.map_some], hcontested⟩
  next => cases h

namespace Document

variable {d e : Document} {p : Providers}

/-- The value in a slot. -/
def valueAt? (d : Document) : Slot → Option Value
  | .property name key => d.get? name key
  | .entry name index => (d.sections.get? name).bind (·.registry[index]?)
  | .ofMacro name => d.macros.get? name
  | .rule name key => (d.schemas.get? name).bind (·.properties.get? key)

/-- What a reference stands for depends on the slot only that it is to. -/
theorem read_congr {r : Reference} (h : ∀ s, r.slot? = some s → d.valueAt? s = e.valueAt? s)
    (span : Span) : d.read p r span = e.read p r span := by
  obtain ⟨kind, target⟩ := r
  cases kind with
  | environment => rfl
  | localization => rfl
  | macroName =>
    have hsame : d.macros.get? target = e.macros.get? target := h (.ofMacro target) rfl
    simp only [read, hsame]
  | crossSection =>
    cases hkey : Reference.sectionKey? ⟨.crossSection, target⟩ with
    | none => simp only [read, hkey]
    | some f =>
      obtain ⟨name, key⟩ := f
      have hsame : d.get? name key = e.get? name key :=
        h (.property name key) (by simp only [Reference.slot?, hkey, Option.map_some])
      simp only [read, hkey, hsame]

/-- If a reference stands for something, there is a value in its slot. -/
theorem isSome_of_reads {r : Reference} {s : Slot} (hs : r.slot? = some s) (h : d.Reads p r) :
    (d.valueAt? s).isSome := by
  obtain ⟨v, hv⟩ := h .none
  obtain ⟨kind, target⟩ := r
  cases kind with
  | environment => cases hs
  | localization => cases hs
  | macroName =>
    cases hs
    simp only [read] at hv
    split at hv
    next w hw => rw [valueAt?, hw]; rfl
    next => cases hv
  | crossSection =>
    obtain ⟨e, hkey, rfl⟩ := Option.map_eq_some_iff.mp hs
    simp only [read, hkey] at hv
    split at hv
    next w hw => rw [valueAt?, hw]; rfl
    next => cases hv

/-- A slot to whose expression a reference belongs leads to what the reference is to. -/
theorem edge_of_valueAt? {s : Slot} {n m : Node} {x : Value} {r : Reference}
    (hn : s.node? = some n) (hx : d.valueAt? s = some x) (hr : r ∈ x.references)
    (hm : r.node? = some m) : d.Edge n m := by
  cases s with
  | property name key =>
    cases hn
    obtain ⟨t, ht, hx⟩ := Option.bind_eq_some_iff.mp hx
    exact edge_contents ht (List.mem_append_left _ (Table.mem_values_iff.mpr ⟨key, hx⟩)) hr hm
  | entry name index =>
    cases hn
    obtain ⟨t, ht, hx⟩ := Option.bind_eq_some_iff.mp hx
    exact edge_contents ht (Section.mem_contents_of_entry (List.mem_of_getElem? hx)) hr hm
  | ofMacro name =>
    cases hn
    exact edge_macro hx hr hm
  | rule name key => cases hn

/-- What stands in a section stands in a slot of it. -/
theorem exists_slot_of_contents {n : String} {t : Section} (ht : d.sections.get? n = some t)
    {v : Value} (hv : v ∈ t.contents) : ∃ s : Slot, d.valueAt? s = some v ∧ s.node? = some (.ofSection n) := by
  rcases List.mem_append.mp hv with hv | hv
  · obtain ⟨k, hk⟩ := Table.mem_values_iff.mp hv
    exact ⟨.property n k, by simp only [valueAt?, get?, ht, Option.bind_some, hk], rfl⟩
  · obtain ⟨index, hindex⟩ := List.mem_iff_getElem?.mp hv
    exact ⟨.entry n index, by simp only [valueAt?, ht, Option.bind_some, hindex], rfl⟩

/-- Whether the slot is resolved at all: sections with special meaning are, if something leads to
    them. -/
def InUse (d : Document) (s : Slot) : Prop := ∀ n, s.node? = some n → d.Reached n

/-- What the expression in a slot in use refers to is in use as well. -/
theorem InUse.refers {s s' : Slot} {x : Value} {r : Reference} (h : d.InUse s)
    (hx : d.valueAt? s = some x) (hr : r ∈ x.references) (hs : r.slot? = some s') : d.InUse s' := by
  intro m hm
  have hnode : r.node? = some m := by rw [Reference.node?_eq, hs]; exact hm
  cases s with
  | rule name key =>
    obtain ⟨t, ht, hx⟩ := Option.bind_eq_some_iff.mp hx
    exact reached_of_root (schema_mem_roots (Table.mem_values_iff.mpr ⟨name, ht⟩)
      (Table.mem_values_iff.mpr ⟨key, hx⟩) hr hnode)
  | property name key => exact (h _ rfl).edge (edge_of_valueAt? rfl hx hr hnode)
  | entry name index => exact (h _ rfl).edge (edge_of_valueAt? rfl hx hr hnode)
  | ofMacro name => exact (h _ rfl).edge (edge_of_valueAt? rfl hx hr hnode)

/-! ## Tainted values -/

/-- Whether a section has a property of this name, its own or from a parent. -/
inductive Holds (d : Document) (k : String) : String → Prop
  | declared {n : String} (h : (d.get? n k).isSome) : Holds d k n
  | inherited {n parent : String} {s : Section} (hs : d.sections.get? n = some s)
      (hparent : parent ∈ s.parents) (h : Holds d k parent) : Holds d k n

/-- Whether the value in a slot depends on a contested property that `[#define]` inherits. -/
inductive Tainted (d : Document) : Slot → Prop
  /-- It is such a property. -/
  | contested {k : String} (hk : d.contested k) (hholds : d.Holds k defineName) :
      Tainted d (.property defineName k)
  /-- The property is inherited, and tainted in the first parent that has it. -/
  | inherited {n k parent : String} {s : Section} {before after : List String}
      (hs : d.sections.get? n = some s) (hnone : s.properties.get? k = none)
      (hparents : s.parents = before ++ parent :: after) (hbefore : ∀ b ∈ before, ¬d.Holds k b)
      (h : Tainted d (.property parent k)) : Tainted d (.property n k)
  /-- Its expression refers to a tainted value. -/
  | refers {s s' : Slot} {x : Value} {r : Reference} (huse : d.InUse s) (hx : d.valueAt? s = some x)
      (hr : r ∈ x.references) (hs : r.slot? = some s') (h : Tainted d s') : Tainted d s

end Document

/-- Whether the expression refers to no tainted value. -/
def Value.Clean (d : Document) (x : Value) : Prop :=
  ∀ r ∈ x.references, ∀ s, r.slot? = some s → ¬d.Tainted s

/-- Everywhere in use, an expression that is not tainted is clean. -/
theorem Value.clean_of_not_tainted {d : Document} {s : Slot} {x : Value} (huse : d.InUse s)
    (hx : d.valueAt? s = some x) (hs : ¬d.Tainted s) : x.Clean d :=
  fun _ hr _ hslot htainted => hs (.refers huse hx hr hslot htainted)

/-- In a list that goes together with a list of expressions, every index has the value of its
    expression. -/
theorem Progress.getElem?_of_forall₂ {d : Document} {p : Providers} {q : Progress}
    {es vs : List Value} (h : List.Forall₂ (Evaluated d p q) es vs) (i : Nat) :
    OptionEvaluated d p q es[i]? vs[i]? := by
  induction h generalizing i with
  | nil => rfl
  | cons h _ ih =>
    cases i with
    | zero => exact ⟨_, rfl, h⟩
    | succ i => exact ih i

namespace Progress

variable {d : Document} {p : Providers} {i j : Idle} {q q' : Progress}

/-! ## What is there -/

/-- **A section that is done has a property** exactly if it or one of its ancestors declares it. -/
theorem Sound.isSome_iff_holds (h : Sound d p i q) {n : String} (hn : n ∈ q.doneSections)
    (k : String) : (q.document.get? n k).isSome ↔ d.Holds k n := by
  have hall : ∀ m, d.Grounded m → ∀ n ∈ q.doneSections, m = .ofSection n →
      ((q.document.get? n k).isSome ↔ d.Holds k n) := by
    intro m hm
    induction hm with
    | intro m _ ih =>
      rintro n hn rfl
      obtain ⟨s, t, hs, ht, hsolved⟩ := h.doneSection n hn
      have hget : q.document.get? n k = t.properties.get? k := by rw [Document.get?, ht]; rfl
      rw [hget]
      cases hdeclared : s.properties.get? k with
      | some e =>
        obtain ⟨v, hv, -⟩ := hsolved.declared k e hdeclared
        have hholds : d.Holds k n := .declared (by rw [Document.get?, hs]; simp [hdeclared])
        simp [hv, hholds]
      | none =>
        have hparent : ∀ parent ∈ s.parents,
            ((q.document.get? parent k).isSome ↔ d.Holds k parent) := fun parent hparent =>
          ih _ (Document.edge_parent hs hparent) parent (hsolved.adopted parent hparent) rfl
        constructor
        · -- what is inherited comes from a parent that has it
          intro hsome
          have hinherited := hsolved.inherited k hdeclared
          unfold Inherited at hinherited
          split at hinherited
          next => rw [hinherited] at hsome; cases hsome
          next parent hfirst =>
            have hmem := List.mem_of_find?_eq_some hfirst
            have hhas := List.find?_some hfirst
            exact .inherited hs hmem ((hparent parent hmem).mp hhas)
        · intro hholds
          cases hholds with
          | declared hd => simp [Document.get?, hs, hdeclared] at hd
          | inherited hs' hmem hholds =>
            rw [hs] at hs'
            cases hs'
            exact hsolved.contains_of_parent hmem ((hparent _ hmem).mpr hholds)
  exact hall _ (h.grounded (.ofSection n) hn) n hn rfl

/-- Wherever something is read, a clean expression refers to no contested property. -/
theorem Sound.steady_of_clean (h : Sound d p i q) {x : Value}
    (hdone : ∀ r ∈ x.references, ∀ n, r.node? = some n → q.Done n)
    (hreads : ∀ r ∈ x.references, q.document.Reads p r) (hclean : x.Clean d) : x.steady d := by
  refine Value.steady_iff.mpr fun r hr => ?_
  cases hc : r.contested d with
  | false => rfl
  | true =>
    obtain ⟨k, hslot, hk⟩ := Reference.slot?_of_contested hc
    have hdefine : defineName ∈ q.doneSections :=
      hdone r hr (.ofSection defineName) (Reference.node?_of_contested hc)
    -- the property is there, so `[#define]` has inherited it
    refine absurd (Document.Tainted.contested hk ((h.isSome_iff_holds hdefine k).mp ?_))
      (hclean r hr _ hslot)
    exact Document.isSome_of_reads hslot (hreads r hr)

/-! ## What is the same -/

/-- A clean expression has the same value in two states that agree on what it refers to. -/
theorem Evaluated.eq_of_clean {x v v' : Value} (hv : Evaluated d p q x v)
    (hv' : Evaluated d p q' x v') (h : Sound d p i q) (h' : Sound d p j q') (hclean : x.Clean d)
    (hsame : ∀ r ∈ x.references, ∀ s, r.slot? = some s →
      q.document.valueAt? s = q'.document.valueAt? s) : v = v' := by
  have hmeans := hv.means (h.steady_of_clean hv.settled hv.reads hclean)
  have hmeans' := hv'.means (h'.steady_of_clean hv'.settled hv'.reads hclean)
  rw [Value.meaning_congr x fun r hr => Document.read_congr (hsame r hr), hmeans'] at hmeans
  exact (Except.ok.inj hmeans).symm

/-- Whether two states give an expression, if there is one, no two different values. -/
def Agree (d : Document) (p : Providers) (q q' : Progress) (o : Option Value) : Prop :=
  ∀ x ∈ o, ∀ v v', Evaluated d p q x v → Evaluated d p q' x v' → v = v'

theorem OptionEvaluated.eq_of_clean {o v v' : Option Value} (hv : OptionEvaluated d p q o v)
    (hv' : OptionEvaluated d p q' o v') (hsame : Agree d p q q' o) : v = v' := by
  cases o with
  | none => exact Eq.trans hv (Eq.symm hv')
  | some x =>
    obtain ⟨w, rfl, heval⟩ := hv
    obtain ⟨w', rfl, heval'⟩ := hv'
    rw [hsame x rfl w w' heval heval']

/-- What is inherited is the same if it is the same in the first parent that has it, and that is the
    same parent in both states. -/
theorem Inherited.eq_of_clean {n k : String} {parents : List String} {v v' : Option Value}
    (hv : Inherited d q n parents k v) (hv' : Inherited d q' n parents k v')
    (hholds : ∀ parent ∈ parents, ((q.document.get? parent k).isSome ↔ d.Holds k parent))
    (hholds' : ∀ parent ∈ parents, ((q'.document.get? parent k).isSome ↔ d.Holds k parent))
    (hdefine : v.isSome → d.contested k → n ≠ defineName)
    (hsame : ∀ before parent after, parents = before ++ parent :: after →
      (∀ b ∈ before, ¬d.Holds k b) → d.Holds k parent → (d.contested k → parent ≠ defineName) ∧
        q.document.get? parent k = q'.document.get? parent k) : v = v' := by
  -- which parents have the name depends on the declarations only, so it is the same parent in both states
  have hfind : parents.find? (fun parent => (q'.document.get? parent k).isSome)
      = parents.find? fun parent => (q.document.get? parent k).isSome :=
    List.find?_congr fun parent hparent => Bool.eq_iff_iff.mpr
      ((hholds' parent hparent).trans (hholds parent hparent).symm)
  unfold Inherited at hv hv'
  rw [hfind] at hv'
  cases hfirst : parents.find? (fun parent => (q.document.get? parent k).isSome) with
  | none =>
    rw [hfirst] at hv hv'
    exact Eq.trans hv (Eq.symm hv')
  | some parent =>
    rw [hfirst] at hv hv'
    obtain ⟨w, rfl, -, hvalue⟩ := hv
    obtain ⟨w', rfl, -, hvalue'⟩ := hv'
    obtain ⟨hhas, before, after, hparents, hbefore⟩ := List.find?_eq_some_iff_append.mp hfirst
    have hnone : ∀ b ∈ before, ¬d.Holds k b := by
      intro b hb hbholds
      have hmem : b ∈ parents := hparents ▸ List.mem_append_left _ hb
      simpa [(hholds b hmem).mpr hbholds] using hbefore b hb
    obtain ⟨hne, hget⟩ := hsame before parent after hparents hnone
      ((hholds parent (List.mem_of_find?_eq_some hfirst)).mp hhas)
    have hsettled : d.contested k → n ≠ defineName ∧ parent ≠ defineName := fun hk =>
      ⟨hdefine rfl hk, hne hk⟩
    rw [← hvalue hsettled, ← hvalue' hsettled, hget]

/-- A macro that is done in both states has the same value, if the states agree on its expression. -/
theorem Sound.macro_eq (h : Sound d p i q) (h' : Sound d p j q') {name : String}
    (hn : name ∈ q.doneMacros) (hn' : name ∈ q'.doneMacros)
    (hsame : Agree d p q q' (d.macros.get? name)) :
    q.document.macros.get? name = q'.document.macros.get? name := by
  obtain ⟨x, v, hx, hv, heval⟩ := h.doneMacro name hn
  obtain ⟨x', v', hx', hv', heval'⟩ := h'.doneMacro name hn'
  obtain rfl : x = x' := Option.some.inj (hx.symm.trans hx')
  rw [hv, hv', hsame x hx v v' heval heval']

/-- An entry of a registry is the same in both states, if they agree on its expression. -/
theorem Sound.entry_eq (h : Sound d p i q) (h' : Sound d p j q') {name : String} {index : Nat}
    (hn : name ∈ q.doneSections) (hn' : name ∈ q'.doneSections)
    (hsame : Agree d p q q' (d.valueAt? (.entry name index))) :
    q.document.valueAt? (.entry name index) = q'.document.valueAt? (.entry name index) := by
  obtain ⟨u, t, hu, ht, hsolved⟩ := h.doneSection name hn
  obtain ⟨u', t', hu', ht', hsolved'⟩ := h'.doneSection name hn'
  obtain rfl : u = u' := Option.some.inj (hu.symm.trans hu')
  simp only [Document.valueAt?, hu, ht, ht', Option.bind_some] at hsame ⊢
  exact (getElem?_of_forall₂ hsolved.registry index).eq_of_clean
    (getElem?_of_forall₂ hsolved'.registry index) hsame

/-- A property that is not tainted is the same if its expression has the same value, or, without an
    expression, if it is the same in every parent that it can come from. -/
theorem Sound.property_eq (h : Sound d p i q) (h' : Sound d p j q') {name k : String}
    (hn : name ∈ q.doneSections) (hn' : name ∈ q'.doneSections)
    (hclean : ¬d.Tainted (.property name k)) (hsame : Agree d p q q' (d.get? name k))
    (hparents : ∀ parent, d.Edge (.ofSection name) (.ofSection parent) →
      parent ∈ q.doneSections → parent ∈ q'.doneSections → ¬d.Tainted (.property parent k) →
        q.document.get? parent k = q'.document.get? parent k) :
    q.document.get? name k = q'.document.get? name k := by
  obtain ⟨u, t, hu, ht, hsolved⟩ := h.doneSection name hn
  obtain ⟨u', t', hu', ht', hsolved'⟩ := h'.doneSection name hn'
  obtain rfl : u = u' := Option.some.inj (hu.symm.trans hu')
  simp only [Document.get?, hu, ht, ht', Option.bind_some] at hsame ⊢
  cases hx : u.properties.get? k with
  | some x =>
    obtain ⟨v, hv, heval⟩ := hsolved.declared k x hx
    obtain ⟨v', hv', heval'⟩ := hsolved'.declared k x hx
    rw [hv, hv', hsame x hx v v' heval heval']
  | none =>
    refine (hsolved.inherited k hx).eq_of_clean (hsolved'.inherited k hx)
      (fun parent hparent => h.isSome_iff_holds (hsolved.adopted parent hparent) k)
      (fun parent hparent => h'.isSome_iff_holds (hsolved'.adopted parent hparent) k) ?_ ?_
    · -- what `[#define]` has under this name is contested, so tainted
      rintro hsome hk rfl
      refine hclean (.contested hk ((h.isSome_iff_holds hn k).mp ?_))
      rwa [Document.get?, ht]
    · intro before parent after hsplit hbefore hholds
      have hmem : parent ∈ u.parents := hsplit ▸ List.mem_append_right _ List.mem_cons_self
      have hparent : ¬d.Tainted (.property parent k) := fun htainted =>
        hclean (.inherited hu hx hsplit hbefore htainted)
      refine ⟨fun hk heq => hparent ?_, ?_⟩
      · subst heq
        exact .contested hk hholds
      · exact hparents parent (Document.edge_parent hu hmem) (hsolved.adopted parent hmem)
          (hsolved'.adopted parent hmem) hparent

/-- **Two states of resolving one document agree** on what is done in both, apart from tainted
    values. -/
theorem Sound.valueAt?_eq (h : Sound d p i q) (h' : Sound d p j q') {n : Node} (hn : q.Done n)
    (hn' : q'.Done n) {s : Slot} (hs : s.node? = some n) (hclean : ¬d.Tainted s) :
    q.document.valueAt? s = q'.document.valueAt? s := by
  induction h.grounded n hn generalizing s with
  | intro n _ ih =>
    have huse : d.InUse s := by
      intro m hm
      rw [hs] at hm
      cases hm
      exact h.reached n hn
    -- the expression of the slot refers to nodes further on
    have hsame : Agree d p q q' (d.valueAt? s) := by
      intro x hx v v' hv hv'
      have hxclean := Value.clean_of_not_tainted huse hx hclean
      refine hv.eq_of_clean hv' h h' hxclean fun r hr s' hslot => ?_
      obtain ⟨m, hm, hsm⟩ := Reference.node?_of_slot? hslot
      exact ih m (Document.edge_of_valueAt? hs hx hr hm) (hv.settled r hr m hm)
        (hv'.settled r hr m hm) hsm (hxclean r hr s' hslot)
    cases s with
    | rule name key => cases hs
    | ofMacro name =>
      cases hs
      exact h.macro_eq h' hn hn' hsame
    | entry name index =>
      cases hs
      exact h.entry_eq h' hn hn' hsame
    | property name k =>
      cases hs
      exact h.property_eq h' hn hn' hclean hsame fun parent hedge hdone hdone' hparent =>
        ih (.ofSection parent) hedge hdone hdone' rfl hparent

end Progress

end Yini
