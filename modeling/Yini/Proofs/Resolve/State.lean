import Mathlib.Data.List.Find
import Yini.Proofs.Equality
import Yini.Proofs.Resolve.Graph

/-!
The invariant of resolving.

At every moment each section and each macro is in one of three states.  It is *done*: its values
are those of its declared expressions, read from the document as it is now (`Solved`, `Evaluated`).
It is *open*: a call that has not returned yet works on it, and nobody else does.  Or it waits, and
its expressions are still the declared ones.  `Sound` puts this together.

What is done stays (`Keeps`), and what is open is left alone but for one thing (`Advance`): a macro
that has been resolved is noted in `[#define]`, in whatever state that section is (`Touched`).  If
`[#define]` declares the macro, this changes nothing that counts.  If it only inherits a property of
that name, the property is *contested*, and what is read from it depends on the moment.
-/

namespace Yini

/-- In two lists that go together, every member of the first has its partner in the second. -/
theorem exists_of_forall₂ {α β : Type} {R : α → β → Prop} {as : List α} {bs : List β}
    (h : List.Forall₂ R as bs) {a : α} (ha : a ∈ as) : ∃ b ∈ bs, R a b := by
  induction h with
  | nil => exact absurd ha List.not_mem_nil
  | @cons a' b' as bs hab _ ih =>
    rcases List.mem_cons.mp ha with rfl | ha
    · exact ⟨b', List.mem_cons_self, hab⟩
    · obtain ⟨b, hb, hr⟩ := ih ha
      exact ⟨b, List.mem_cons_of_mem _ hb, hr⟩

/-! ## Contested properties -/

/-- Whether a macro of this name is there that `[#define]` does not declare.  If `[#define]` inherits
    a property of that name, the macro overwrites it. -/
def Document.contested (d : Document) (key : String) : Bool :=
  d.macros.contains key && (d.get? defineName key).isNone

/-- Whether the reference is to a contested property of `[#define]`. -/
def Reference.contested (d : Document) (r : Reference) : Bool :=
  match r.kind, r.sectionKey? with
  | .crossSection, some (name, key) => name == defineName && d.contested key
  | _, _ => false

/-- Whether the value refers to no contested property. -/
def Value.steady (d : Document) (v : Value) : Bool := v.references.all (!·.contested d)

/-- Whether every macro that `[#define]` declares is in the table of macros. -/
def Document.Gathered (d : Document) : Prop :=
  ∀ k e, d.get? defineName k = some e → d.macros.get? k = some e

/-- A value is steady exactly if none of its references is contested. -/
theorem Value.steady_iff {d : Document} {v : Value} :
    v.steady d ↔ ∀ r ∈ v.references, r.contested d = false := by
  simp [steady]

/-- A plain value has no references, so it is steady. -/
theorem Value.steady_of_plain {d : Document} {v : Value} (h : v.plain) : v.steady d := by
  rw [steady, references_of_plain v h]
  rfl

/-- Documents with the same contested properties have the same expressions that refer to none. -/
theorem Value.steady_congr {d e : Document} (h : ∀ k, d.contested k = e.contested k) (v : Value) :
    v.steady d = v.steady e := by
  have hreference : ∀ r : Reference, r.contested d = r.contested e := by
    intro r
    simp only [Reference.contested, h]
  simp only [steady, hreference]

/-- Only a reference into `[#define]` can be contested. -/
theorem Reference.node?_of_contested {d : Document} {r : Reference} (h : r.contested d = true) :
    r.node? = some (.ofSection defineName) := by
  obtain ⟨kind, target⟩ := r
  unfold contested at h
  split at h
  next name key hkind hkey =>
    simp only at hkind
    subst hkind
    simp only [Bool.and_eq_true, beq_iff_eq] at h
    rw [node?, hkey, h.1]
    rfl
  next => cases h

namespace Progress

variable {d : Document} {p : Providers} {i j : Idle} {q q' q'' : Progress}

/-- Whether a section or a macro is done. -/
def Done (q : Progress) : Node → Prop
  | .ofSection name => name ∈ q.doneSections
  | .ofMacro name => name ∈ q.doneMacros

/-! ## What stays -/

/-- What is done stays as it is, but for contested properties, which only stay there. -/
structure Keeps (d : Document) (q q' : Progress) : Prop where
  sections : ∀ n ∈ q.doneSections, n ∈ q'.doneSections
  macros : ∀ m ∈ q.doneMacros, m ∈ q'.doneMacros
  macroValue : ∀ m ∈ q.doneMacros, q'.document.macros.get? m = q.document.macros.get? m
  present : ∀ n ∈ q.doneSections, ∀ k,
    (q'.document.get? n k).isSome = (q.document.get? n k).isSome
  value : ∀ n ∈ q.doneSections, ∀ k, (n = defineName → d.contested k = false) →
    q'.document.get? n k = q.document.get? n k

theorem Keeps.refl (d : Document) (q : Progress) : Keeps d q q :=
  ⟨fun _ h => h, fun _ h => h, fun _ _ => rfl, fun _ _ _ => rfl, fun _ _ _ _ => rfl⟩

theorem Keeps.trans (h : Keeps d q q') (h' : Keeps d q' q'') : Keeps d q q'' where
  sections n hn := h'.sections n (h.sections n hn)
  macros m hm := h'.macros m (h.macros m hm)
  macroValue m hm := (h'.macroValue m (h.macros m hm)).trans (h.macroValue m hm)
  present n hn k := (h'.present n (h.sections n hn) k).trans (h.present n hn k)
  value n hn k hk := (h'.value n (h.sections n hn) k hk).trans (h.value n hn k hk)

theorem Keeps.done (h : Keeps d q q') {n : Node} (hn : q.Done n) : q'.Done n := by
  cases n with
  | ofSection name => exact h.sections name hn
  | ofMacro name => exact h.macros name hn

/-- What has been read stays the same. -/
theorem Keeps.read_eq (h : Keeps d q q') {r : Reference} (hdone : ∀ n, r.node? = some n → q.Done n)
    (hr : r.contested d = false) (span : Span) :
    q'.document.read p r span = q.document.read p r span := by
  obtain ⟨kind, target⟩ := r
  cases kind with
  -- two kinds of references do not read the document at all
  | environment => rfl
  | localization => rfl
  | macroName =>
    have hmacros := h.macroValue target (hdone (.ofMacro target) rfl)
    simp only [Document.read, hmacros]
  | crossSection =>
    cases hkey : Reference.sectionKey? ⟨.crossSection, target⟩ with
    | none => simp only [Document.read, hkey]
    | some e =>
      obtain ⟨name, key⟩ := e
      have hname : name ∈ q.doneSections :=
        hdone (.ofSection name) (by simp only [Reference.node?, hkey, Option.map_some])
      have hcontested : name = defineName → d.contested key = false := by
        intro hdefine
        simpa [Reference.contested, hkey, hdefine] using hr
      simp only [Document.read, hkey, h.value name hname key hcontested]

/-- What stands for something goes on standing for something. -/
theorem Keeps.reads (h : Keeps d q q') {r : Reference} (hdone : ∀ n, r.node? = some n → q.Done n)
    (hr : q.document.Reads p r) : q'.document.Reads p r := by
  cases hc : r.contested d with
  | false =>
    intro span
    rw [h.read_eq hdone hc span]
    exact hr span
  | true =>
    -- a contested property may have another value, but it is there
    obtain ⟨kind, target⟩ := r
    unfold Reference.contested at hc
    split at hc
    next name key hkind hkey =>
      simp only at hkind
      subst hkind
      have hname : name ∈ q.doneSections :=
        hdone (.ofSection name) (by simp only [Reference.node?, hkey, Option.map_some])
      have hthere := h.present name hname key
      intro span
      obtain ⟨v, hv⟩ := hr span
      simp only [Document.read, hkey] at hv ⊢
      cases hget : q'.document.get? name key with
      | some w => exact ⟨_, rfl⟩
      | none =>
        have hnone : q.document.get? name key = none := by simpa [hget] using hthere.symm
        rw [hnone] at hv
        cases hv
    next => cases hc

/-! ## Values of expressions -/

/-- An expression has a value: it is plain, all that it refers to is there and done, and if it refers
    to no contested property, the value is what the expression means in the document as it is now.
    Even if it does, its parts that refer to no such property mean something there. -/
structure Evaluated (d : Document) (p : Providers) (q : Progress) (e v : Value) : Prop where
  plain : v.plain
  settled : ∀ r ∈ e.references, ∀ n, r.node? = some n → q.Done n
  reads : ∀ r ∈ e.references, q.document.Reads p r
  means : e.steady d → e.meaning (q.document.read p) = .ok v
  parts : ∀ o : Value, o.Part e → o.steady d → ∃ u, o.meaning (q.document.read p) = .ok u

/-- A value stays the value of its expression. -/
theorem Evaluated.mono {e v : Value} (h : Evaluated d p q e v) (hk : Keeps d q q') :
    Evaluated d p q' e v := by
  have hsame : ∀ o : Value, o.references ⊆ e.references → o.steady d →
      o.meaning (q'.document.read p) = o.meaning (q.document.read p) := fun o hsub hsteady =>
    Value.meaning_congr o fun r hr span =>
      hk.read_eq (h.settled r (hsub hr)) (Value.steady_iff.mp hsteady r hr) span
  refine ⟨h.plain, fun r hr n hn => hk.done (h.settled r hr n hn),
    fun r hr => hk.reads (h.settled r hr) (h.reads r hr), fun hsteady => ?_, fun o ho hsteady => ?_⟩
  · rw [hsame e (List.Subset.refl _) hsteady]
    exact h.means hsteady
  · rw [hsame o ho.references_subset hsteady]
    exact h.parts o ho hsteady

/-- A plain value is its own value, and has no other. -/
theorem Evaluated.eq_of_plain {v w : Value} (h : Evaluated d p q v w) (hv : v.plain) : w = v := by
  have hw := h.means (Value.steady_of_plain hv)
  rw [Value.meaning_of_plain v hv] at hw
  exact (Except.ok.inj hw).symm

/-- A reference is evaluated to what is read, if that is plain and what it leads to is done. -/
theorem Evaluated.reference {r : Reference} {v : Value} {span : Span} (hplain : v.plain)
    (hdone : ∀ n, r.node? = some n → q.Done n) (hread : q.document.read p r span = .ok v) :
    Evaluated d p q (.atom (.reference r) span) v where
  plain := hplain
  settled r' hr n hn := by
    rw [List.mem_singleton.mp hr] at hn
    exact hdone n hn
  reads r' hr := by
    rw [List.mem_singleton.mp hr]
    exact Document.reads_of_read hread
  means _ := hread
  parts o ho _ := by
    cases ho
    exact ⟨v, hread⟩

/-- An atom that is no reference is its own value. -/
theorem Evaluated.atom {a : Atom} {span : Span} (h : (Value.atom a span).plain) :
    Evaluated d p q (.atom a span) (.atom a span) := by
  have hmeans : Value.meaning (q.document.read p) (.atom a span) = .ok (.atom a span) :=
    Value.meaning_of_plain _ h
  have hnone := Value.references_of_plain _ h
  refine ⟨h, fun r hr => ?_, fun r hr => ?_, fun _ => hmeans, fun o ho _ => ?_⟩
  · rw [hnone] at hr
    exact absurd hr List.not_mem_nil
  · rw [hnone] at hr
    exact absurd hr List.not_mem_nil
  · cases ho
    exact ⟨_, hmeans⟩

/-- An operation is evaluated to its result on the values of its operands. -/
theorem Evaluated.binary {l r v w u : Value} {op : BinaryOp} {span : Span}
    (hl : Evaluated d p q l v) (hr : Evaluated d p q r w) (hop : v.combine op w span = .ok u) :
    Evaluated d p q (.binary l op r span) u := by
  have hmeans : Value.steady d (.binary l op r span) →
      Value.meaning (q.document.read p) (.binary l op r span) = .ok u := by
    intro hsteady
    have hall := Value.steady_iff.mp hsteady
    rw [Value.meaning, hl.means (Value.steady_iff.mpr fun x hx => hall x (List.mem_append_left _ hx)),
      hr.means (Value.steady_iff.mpr fun x hx => hall x (List.mem_append_right _ hx))]
    exact hop
  obtain ⟨a, ha, rfl⟩ := Value.combine_eq_ok hop
  refine ⟨Value.plain_of_isResult ha span, fun x hx => ?_, fun x hx => ?_, hmeans,
    fun o ho hsteady => ?_⟩
  · rcases List.mem_append.mp hx with hx | hx
    · exact hl.settled x hx
    · exact hr.settled x hx
  · rcases List.mem_append.mp hx with hx | hx
    · exact hl.reads x hx
    · exact hr.reads x hx
  · cases ho with
    | self => exact ⟨_, hmeans hsteady⟩
    | left ho => exact hl.parts o ho hsteady
    | right ho => exact hr.parts o ho hsteady

/-- A negation is evaluated to the opposite of the value of its operand. -/
theorem Evaluated.neg {e v u : Value} {span : Span} (h : Evaluated d p q e v)
    (hop : v.opposite span = .ok u) : Evaluated d p q (.neg e span) u := by
  have hmeans : Value.steady d (.neg e span) →
      Value.meaning (q.document.read p) (.neg e span) = .ok u := by
    intro hsteady
    rw [Value.meaning, h.means hsteady]
    exact hop
  obtain ⟨a, ha, rfl⟩ := Value.opposite_eq_ok hop
  refine ⟨Value.plain_of_isResult ha span, h.settled, h.reads, hmeans, fun o ho hsteady => ?_⟩
  cases ho with
  | self => exact ⟨_, hmeans hsteady⟩
  | operand ho => exact h.parts o ho hsteady

theorem Evaluated.sequence {kind : SequenceKind} {es vs : List Value} {span : Span}
    (h : List.Forall₂ (Evaluated d p q) es vs) :
    Evaluated d p q (.sequence kind es span) (.sequence kind vs span) := by
  have hmeans : Value.steady d (.sequence kind es span) →
      Value.meaning (q.document.read p) (.sequence kind es span) = .ok (.sequence kind vs span) := by
    intro hsteady
    have hall := Value.forall_references_sequence.mp (Value.steady_iff.mp hsteady)
    have hitems : ∀ e ∈ es, e.steady d := fun e he => Value.steady_iff.mpr (hall e he)
    have hmeans := ((List.forall₂_and_left es vs).mpr ⟨hitems, h⟩).imp fun _ _ he => he.2.means he.1
    rw [Value.meaning, Value.itemMeanings_of_forall hmeans]
    rfl
  refine ⟨Value.allPlain_iff.mpr fun v hv => ?_, fun r hr n hn => ?_, fun r hr => ?_, hmeans,
    fun o ho hsteady => ?_⟩
  · obtain ⟨e, -, heval⟩ := exists_of_forall₂ h.flip hv
    exact heval.plain
  · obtain ⟨e, he, hr⟩ := Value.mem_itemReferences.mp hr
    obtain ⟨v, -, heval⟩ := exists_of_forall₂ h he
    exact heval.settled r hr n hn
  · obtain ⟨e, he, hr⟩ := Value.mem_itemReferences.mp hr
    obtain ⟨v, -, heval⟩ := exists_of_forall₂ h he
    exact heval.reads r hr
  · cases ho with
    | self => exact ⟨_, hmeans hsteady⟩
    | item he ho =>
      obtain ⟨v, -, heval⟩ := exists_of_forall₂ h he
      exact heval.parts o ho hsteady

/-- Fields have their names and the values of their expressions. -/
def FieldEvaluated (d : Document) (p : Providers) (q : Progress) (e f : String × Value) : Prop :=
  f.1 = e.1 ∧ Evaluated d p q e.2 f.2

theorem Evaluated.record {kind : RecordKind} {es fs : Entries Value} {span : Span}
    (h : List.Forall₂ (FieldEvaluated d p q) es fs) :
    Evaluated d p q (.record kind es span) (.record kind fs span) := by
  have hmeans : Value.steady d (.record kind es span) →
      Value.meaning (q.document.read p) (.record kind es span) = .ok (.record kind fs span) := by
    intro hsteady
    have hall := Value.forall_references_record.mp (Value.steady_iff.mp hsteady)
    have hfields : ∀ e ∈ es, e.2.steady d := fun e he => Value.steady_iff.mpr (hall e he)
    have hmeans := ((List.forall₂_and_left es fs).mpr ⟨hfields, h⟩).imp fun _ _ he =>
      And.intro he.2.1 (he.2.2.means he.1)
    rw [Value.meaning, Value.fieldMeanings_of_forall hmeans]
    rfl
  refine ⟨Value.allFieldsPlain_iff.mpr fun f hf => ?_, fun r hr n hn => ?_, fun r hr => ?_, hmeans,
    fun o ho hsteady => ?_⟩
  · obtain ⟨e, -, heval⟩ := exists_of_forall₂ h.flip hf
    exact heval.2.plain
  · obtain ⟨e, he, hr⟩ := Value.mem_fieldReferences.mp hr
    obtain ⟨f, -, heval⟩ := exists_of_forall₂ h he
    exact heval.2.settled r hr n hn
  · obtain ⟨e, he, hr⟩ := Value.mem_fieldReferences.mp hr
    obtain ⟨f, -, heval⟩ := exists_of_forall₂ h he
    exact heval.2.reads r hr
  · cases ho with
    | self => exact ⟨_, hmeans hsteady⟩
    | field he ho =>
      obtain ⟨f, -, heval⟩ := exists_of_forall₂ h he
      exact heval.2.parts o ho hsteady

/-- A value that may be absent is there if its expression is, and is its value. -/
def OptionEvaluated (d : Document) (p : Providers) (q : Progress) : Option Value → Option Value → Prop
  | none, o => o = none
  | some e, o => ∃ v, o = some v ∧ Evaluated d p q e v

theorem OptionEvaluated.mono {o o' : Option Value} (h : OptionEvaluated d p q o o')
    (hk : Keeps d q q') : OptionEvaluated d p q' o o' := by
  cases o with
  | none => exact h
  | some e =>
    obtain ⟨v, hv, heval⟩ := h
    exact ⟨v, hv, heval.mono hk⟩

theorem OptionEvaluated.isSome_eq {o o' : Option Value} (h : OptionEvaluated d p q o o') :
    o'.isSome = o.isSome := by
  cases o with
  | none =>
    obtain rfl : o' = none := h
    rfl
  | some e =>
    obtain ⟨v, rfl, -⟩ := h
    rfl

/-- The value of an expression that may be absent means what the expression means. -/
theorem OptionEvaluated.means {o o' : Option Value} (h : OptionEvaluated d p q o o')
    (hsteady : ∀ r ∈ Value.optionReferences o, r.contested d = false) :
    Value.optionMeaning (q.document.read p) o = .ok o' := by
  cases o with
  | none =>
    obtain rfl : o' = none := h
    rfl
  | some e =>
    obtain ⟨v, rfl, heval⟩ := h
    rw [Value.optionMeaning, heval.means (Value.steady_iff.mpr hsteady)]
    rfl

theorem OptionEvaluated.plain {o o' : Option Value} (h : OptionEvaluated d p q o o') :
    Value.optionPlain o' := by
  cases o with
  | none =>
    obtain rfl : o' = none := h
    rfl
  | some e =>
    obtain ⟨v, rfl, heval⟩ := h
    exact heval.plain

theorem OptionEvaluated.value {o o' : Option Value} (h : OptionEvaluated d p q o o') {e : Value}
    (he : e ∈ o) : ∃ v, Evaluated d p q e v := by
  cases he
  obtain ⟨v, -, heval⟩ := h
  exact ⟨v, heval⟩

/-- A rule is evaluated in its default and in its bounds. -/
theorem Evaluated.rule {marks : RuleMarks} {a b c a' b' c' : Option Value} {span : Span}
    (ha : OptionEvaluated d p q a a') (hb : OptionEvaluated d p q b b')
    (hc : OptionEvaluated d p q c c') :
    Evaluated d p q (.rule marks a b c span) (.rule marks a' b' c' span) := by
  have hmeans : Value.steady d (.rule marks a b c span) →
      Value.meaning (q.document.read p) (.rule marks a b c span) = .ok (.rule marks a' b' c' span) := by
    intro hsteady
    have hall := Value.steady_iff.mp hsteady
    rw [Value.meaning, ha.means fun r hr => hall r (List.mem_append_left _ hr),
      hb.means fun r hr => hall r (List.mem_append_right _ (List.mem_append_left _ hr)),
      hc.means fun r hr => hall r (List.mem_append_right _ (List.mem_append_right _ hr))]
    rfl
  -- every reference stands in one of the three parts
  have hpart : ∀ {o o'}, OptionEvaluated d p q o o' → ∀ e ∈ o, ∀ r ∈ e.references,
      ∃ e v, r ∈ e.references ∧ Evaluated d p q e v := by
    intro o o' ho e he r hr
    obtain ⟨v, heval⟩ := ho.value he
    exact ⟨e, v, hr, heval⟩
  have hreference : ∀ r ∈ Value.references (.rule marks a b c span),
      ∃ e v, r ∈ e.references ∧ Evaluated d p q e v :=
    Value.forall_references_rule.mpr ⟨hpart ha, hpart hb, hpart hc⟩
  refine ⟨by rw [Value.plain, ha.plain, hb.plain, hc.plain]; rfl, fun r hr n hn => ?_, fun r hr => ?_,
    hmeans, fun o ho hsteady => ?_⟩
  · obtain ⟨e, v, hr, heval⟩ := hreference r hr
    exact heval.settled r hr n hn
  · obtain ⟨e, v, hr, heval⟩ := hreference r hr
    exact heval.reads r hr
  · cases ho with
    | self => exact ⟨_, hmeans hsteady⟩
    | fallback he ho =>
      obtain ⟨v, heval⟩ := ha.value he
      exact heval.parts o ho hsteady
    | least he ho =>
      obtain ⟨v, heval⟩ := hb.value he
      exact heval.parts o ho hsteady
    | most he ho =>
      obtain ⟨v, heval⟩ := hc.value he
      exact heval.parts o ho hsteady

/-! ## Sections -/

/-- What a section has under a name that it does not declare: nothing if no parent has the name, and
    otherwise the value of the first parent that has it. -/
def Inherited (d : Document) (q : Progress) (n : String) (parents : List String) (k : String)
    (found : Option Value) : Prop :=
  match parents.find? fun parent => (q.document.get? parent k).isSome with
  | none => found = none
  | some parent => ∃ v, found = some v ∧ v.plain ∧
      ((d.contested k → n ≠ defineName ∧ parent ≠ defineName) →
        q.document.get? parent k = some v)

/-- A section `t` that is being resolved, while it adopts the properties of its parents one after
    the other; `s` is its declaration.  With no parents yet it is a section that waits. -/
structure Adopting (d : Document) (q : Progress) (n : String) (s t : Section)
    (parents : List String) : Prop where
  adopted : ∀ parent ∈ parents, parent ∈ q.doneSections
  registry : t.registry = s.registry
  declared : ∀ k e, s.properties.get? k = some e → ∃ v, t.properties.get? k = some v ∧
    (v = e ∨ (n = defineName ∧ k ∈ q.doneMacros ∧ q.document.macros.get? k = some v))
  inherited : ∀ k, s.properties.get? k = none →
    Inherited d q n parents k (t.properties.get? k)

/-- A section `t` that is done; `s` is its declaration. -/
structure Solved (d : Document) (p : Providers) (q : Progress) (n : String) (s t : Section) :
    Prop where
  adopted : ∀ parent ∈ s.parents, parent ∈ q.doneSections
  registry : List.Forall₂ (Evaluated d p q) s.registry t.registry
  declared : ∀ k e, s.properties.get? k = some e →
    ∃ v, t.properties.get? k = some v ∧ Evaluated d p q e v
  inherited : ∀ k, s.properties.get? k = none →
    Inherited d q n s.parents k (t.properties.get? k)

theorem Inherited.mono {n : String} {parents : List String} {k : String} {found : Option Value}
    (h : Inherited d q n parents k found) (hdone : ∀ parent ∈ parents, parent ∈ q.doneSections)
    (hk : Keeps d q q') : Inherited d q' n parents k found := by
  -- parents that are done neither gain nor lose a name, so the first one with it stays the first
  have hfind : parents.find? (fun parent => (q'.document.get? parent k).isSome)
      = parents.find? fun parent => (q.document.get? parent k).isSome :=
    List.find?_congr fun parent hp => hk.present parent (hdone parent hp) k
  unfold Inherited at h ⊢
  rw [hfind]
  cases hfirst : parents.find? (fun parent => (q.document.get? parent k).isSome) with
  | none => simpa [hfirst] using h
  | some parent =>
    rw [hfirst] at h
    obtain ⟨v, hv, hplain, hvalue⟩ := h
    refine ⟨v, hv, hplain, fun hcontested => ?_⟩
    rw [← hvalue hcontested]
    refine hk.value parent (hdone parent (List.mem_of_find?_eq_some hfirst)) k fun hparent => ?_
    cases hc : d.contested k with
    | false => rfl
    | true => exact absurd hparent (hcontested hc).2

theorem Inherited.plain {n : String} {parents : List String} {k : String} {v : Value}
    (h : Inherited d q n parents k (some v)) : v.plain := by
  unfold Inherited at h
  split at h
  · cases h
  · obtain ⟨w, hw, hplain, -⟩ := h
    cases hw
    exact hplain

theorem Solved.mono {n : String} {s t : Section} (h : Solved d p q n s t) (hk : Keeps d q q') :
    Solved d p q' n s t where
  adopted parent hp := hk.sections parent (h.adopted parent hp)
  registry := h.registry.imp fun _ _ he => he.mono hk
  declared k e he := by
    obtain ⟨v, hv, heval⟩ := h.declared k e he
    exact ⟨v, hv, heval.mono hk⟩
  inherited k hnone := (h.inherited k hnone).mono h.adopted hk

/-- The properties of a section that is done are plain. -/
theorem Solved.plain {n : String} {s t : Section} (h : Solved d p q n s t) {k : String} {v : Value}
    (hv : t.properties.get? k = some v) : v.plain := by
  cases he : s.properties.get? k with
  | some e =>
    obtain ⟨w, hw, heval⟩ := h.declared k e he
    rw [hv] at hw
    cases hw
    exact heval.plain
  | none =>
    have hinherited := h.inherited k he
    rw [hv] at hinherited
    exact hinherited.plain

/-- The contents of a solved section are plain. -/
theorem Solved.plain_contents {n : String} {s t : Section} (h : Solved d p q n s t) {v : Value}
    (hv : v ∈ t.contents) : v.plain := by
  rcases List.mem_append.mp hv with hv | hv
  · obtain ⟨k, hk⟩ := Table.mem_values_iff.mp hv
    exact h.plain hk
  · obtain ⟨_, -, heval⟩ := exists_of_forall₂ h.registry.flip hv
    exact heval.plain

/-- A section that is done has all the names of its parents. -/
theorem Solved.contains_of_parent {n parent : String} {s t : Section} (h : Solved d p q n s t)
    (hparent : parent ∈ s.parents) {k : String} (hk : (q.document.get? parent k).isSome) :
    t.properties.contains k := by
  rw [Table.contains]
  cases hdeclared : s.properties.get? k with
  | some e =>
    obtain ⟨v, hv, -⟩ := h.declared k e hdeclared
    rw [hv]
    rfl
  | none =>
    have hinherited := h.inherited k hdeclared
    unfold Inherited at hinherited
    split at hinherited
    next hnone => exact absurd hk (List.find?_eq_none.mp hnone parent hparent)
    next =>
      obtain ⟨v, hv, -⟩ := hinherited
      rw [hv]
      rfl

/-- All that a done section refers to is done. -/
theorem Solved.edge_done {n : String} {s t : Section} (h : Solved d p q n s t)
    (hs : d.sections.get? n = some s) {m : Node} (he : d.Edge (.ofSection n) m) : q.Done m := by
  rcases Document.edge_section_cases hs he with ⟨parent, hp, rfl⟩ | ⟨v, hv, r, hr, hn⟩
  · exact h.adopted parent hp
  · rcases List.mem_append.mp hv with hv | hv
    · obtain ⟨k, hk⟩ := Table.mem_values_iff.mp hv
      obtain ⟨w, -, heval⟩ := h.declared k v hk
      exact heval.settled r hr m hn
    · obtain ⟨w, -, heval⟩ := exists_of_forall₂ h.registry hv
      exact heval.settled r hr m hn

end Progress

end Yini
