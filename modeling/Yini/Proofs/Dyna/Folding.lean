import Yini.Dyna.Tree
import Yini.Proofs.Resolve.Beside

/-!
Folding agrees with evaluation: an expression that a compiled document evaluates on demand comes to the
same value as if it had been written into the document.

The resolver and the evaluator walk the tree of an expression in the same way; they differ in how they
look references up.  In the state in which a new last section is resolved, every look-up finds what the
resolved document holds and leaves the state as it is (`alike_reference`), so both walks come to the
same end (`alike_resolve`).  That nothing else changes when a section is added is shown in
`Yini.Proofs.Resolve.Beside`.
-/

namespace Yini

/-! ## Operations on values at other places -/

namespace Value

theorem bare_withSpan (v : Value) (span : Span) : (v.withSpan span).bare = v.bare := by
  cases v <;> rfl

/-- Which integer a value is does not depend on places. -/
theorem int?_bare (v : Value) : v.bare.int? = v.int? := by
  cases v with
  | atom a => cases a <;> rfl
  | _ => rfl

/-- Which text a value is does not depend on places. -/
theorem string?_bare (v : Value) : v.bare.string? = v.string? := by
  cases v with
  | atom a => cases a <;> rfl
  | _ => rfl

/-- Which float a value is does not depend on places. -/
theorem float?_bare (v : Value) : v.bare.float? = v.float? := by
  cases v with
  | atom a => cases a <;> rfl
  | _ => rfl

/-- Which text a value is joined as does not depend on places. -/
theorem joinText?_bare (v : Value) : v.bare.joinText? = v.joinText? := by
  cases v with
  | atom a =>
    cases a with
    | bool b => cases b <;> rfl
    | _ => rfl
  | _ => rfl

/-- The type of a value does not depend on places. -/
theorem typeName_bare (v : Value) : v.bare.typeName = v.typeName := by
  cases v with
  | sequence kind => cases kind <;> rfl
  | record kind => cases kind <;> rfl
  | _ => rfl

/-- An operation does not look at places. -/
theorem combine_congr {l l' r r' : Value} (hl : l.bare = l'.bare) (hr : r.bare = r'.bare)
    (op : BinaryOp) (span : Span) : l.combine op r span = l'.combine op r' span := by
  have hbare : ∀ l r : Value, l.bare.combine op r.bare span = l.combine op r span := by
    intro l r
    unfold combine
    simp only [int?_bare, string?_bare, float?_bare, joinText?_bare, typeName_bare]
  rw [← hbare l r, hl, hr, hbare]

/-- The opposite of a value does not depend on its places. -/
theorem opposite_congr {v v' : Value} (h : v.bare = v'.bare) (span : Span) :
    v.opposite span = v'.opposite span := by
  have hbare : ∀ v : Value, v.bare.opposite span = v.opposite span := by
    intro v
    cases v with
    | atom a => cases a <;> rfl
    | sequence kind => cases kind <;> rfl
    | record kind => cases kind <;> rfl
    | _ => rfl
  rw [← hbare v, h, hbare]

end Value

/-! ## Expressions that speak of the document only -/

/-- A reference to a macro, or to a property of a section without a special name. -/
def Reference.Inner (r : Reference) : Prop :=
  match r.kind with
  | .macroName => True
  | .crossSection => ∀ name key, r.sectionKey? = some (name, key) → Section.isSpecialName name = false
  | .environment => False
  | .localization => False

/-- An atom that the resolver and the evaluator understand alike: no reference to the outside, and no
    text that is a name in the context. -/
def Atom.Inner (c : Context) : Atom → Prop
  | .reference r => r.Inner
  | .string s => c.value? s = none
  | _ => True

/-- **An expression that speaks of the document only.**  There is no rule in it, no reference to the
    outside or to a special section, and no text that is a name in the context. -/
inductive Value.Inner (c : Context) : Value → Prop
  | atom {a : Atom} {span : Span} (h : a.Inner c) : Inner c (.atom a span)
  | sequence {kind : SequenceKind} {items : List Value} {span : Span} (h : ∀ v ∈ items, Inner c v) :
      Inner c (.sequence kind items span)
  | record {kind : RecordKind} {fields : Entries Value} {span : Span} (h : ∀ e ∈ fields, Inner c e.2) :
      Inner c (.record kind fields span)
  | binary {l r : Value} {op : BinaryOp} {span : Span} (hl : Inner c l) (hr : Inner c r) :
      Inner c (.binary l op r span)
  | neg {v : Value} {span : Span} (h : Inner c v) : Inner c (.neg v span)

/-! ## Both walks -/

section Walks

variable {α β : Type} {q : Progress}

/-- The step `x` and the computation `y` come to the same end: both fail, or both succeed with contents
    that are the same, and `x` leaves the state as it is. -/
def Alike (same : α → α → Prop) (q : Progress) (x : Resolve α) (y : Except Fault α) : Prop :=
  match y with
  | .ok b => ∃ a, x q = .ok a q ∧ same a b
  | .error _ => ∃ f q', x q = .error f q'

theorem Alike.ok {same : α → α → Prop} {a b : α} (h : same a b) : Alike same q (pure a) (.ok b) :=
  ⟨a, rfl, h⟩

theorem Alike.fail {same : α → α → Prop} {x : Resolve α} {f g : Fault} {q' : Progress}
    (h : x q = .error f q') : Alike same q x (.error g) :=
  ⟨f, q', h⟩

/-- **One step after the other is alike**, if the second step is on all results that are the same. -/
theorem Alike.bind {same : α → α → Prop} {same' : β → β → Prop} {x : Resolve α} {y : Except Fault α}
    {f : α → Resolve β} {g : α → Except Fault β} (h : Alike same q x y)
    (hf : ∀ a b, same a b → Alike same' q (f a) (g b)) : Alike same' q (x >>= f) (y >>= g) := by
  cases y with
  | error e =>
    obtain ⟨e', q', hx⟩ := h
    exact ⟨e', q', bind_eq_error.mpr (.inl hx)⟩
  | ok b =>
    obtain ⟨a, hx, hab⟩ := h
    have hrest := hf a b hab
    show Alike same' q (x >>= f) (g b)
    unfold Alike at hrest ⊢
    rwa [bind_of_ok hx]

/-- The values are the same but for their places. -/
def SameValue (v w : Value) : Prop := v.bare = w.bare

variable {lookup : Reference → Span → Resolve Value} {c : Context}

/-- **Lists come to the same end**, if their items do: the first that fails ends both walks. -/
theorem alike_items {vs : List Value}
    (h : ∀ v ∈ vs, Alike SameValue q (v.resolve lookup) (v.evaluate c)) :
    Alike (fun us ws => us.map Value.bare = ws.map Value.bare) q (Value.resolveItems lookup vs)
      (Value.evaluateItems c vs) := by
  induction vs with
  | nil => exact .ok rfl
  | cons v vs ih =>
    refine (h v List.mem_cons_self).bind fun u w huw => ?_
    refine (ih fun v hv => h v (List.mem_cons_of_mem _ hv)).bind fun us ws hs => .ok ?_
    rw [List.map_cons, List.map_cons, hs, huw]

/-- **Fields come to the same end**, if their values do: the first that fails ends both walks. -/
theorem alike_fields {fs : Entries Value}
    (h : ∀ e ∈ fs, Alike SameValue q (e.2.resolve lookup) (e.2.evaluate c)) :
    Alike (fun us ws => us.map (fun e => (e.1, e.2.bare)) = ws.map fun e => (e.1, e.2.bare)) q
      (Value.resolveFields lookup fs) (Value.evaluateFields c fs) := by
  induction fs with
  | nil => exact .ok rfl
  | cons e fs ih =>
    refine (h e List.mem_cons_self).bind fun u w huw => ?_
    refine (ih fun f hf => h f (List.mem_cons_of_mem _ hf)).bind fun us ws hs => .ok ?_
    rw [List.map_cons, List.map_cons, hs, huw]

/-- **The resolver and the evaluator come to the same end**, if they do for references. -/
theorem alike_resolve {v : Value} (hv : v.Inner c)
    (h : ∀ (r : Reference) span, r.Inner → Alike SameValue q (lookup r span) (c.reference r)) :
    Alike SameValue q (v.resolve lookup) (v.evaluate c) := by
  induction hv with
  | @atom a span ha =>
    cases a with
    | reference r => exact h r span ha
    -- a text is looked up as a variable by the evaluator alone; here it is none
    | string s =>
      have hname : c.value? s = none := ha
      rw [Value.evaluate, hname]
      exact .ok rfl
    | _ => exact .ok rfl
  | sequence _ ih =>
    refine (alike_items ih).bind fun us ws hs => .ok ?_
    rw [SameValue, Value.bare, Value.bare, Value.bareItems_eq_map, Value.bareItems_eq_map, hs]
  | record _ ih =>
    refine (alike_fields ih).bind fun us ws hs => .ok ?_
    rw [SameValue, Value.bare, Value.bare, Value.bareFields_eq_map, Value.bareFields_eq_map, hs]
  | @binary l r op span _ _ ihl ihr =>
    refine ihl.bind fun l l' hl => ihr.bind fun r r' hr => ?_
    -- the operands differ in their places at most, and operations do not look at those
    rw [Value.combine_congr hl hr]
    cases l'.combine op r' span with
    | ok w => exact .ok rfl
    | error f => exact .fail rfl
  | @neg v span _ ih =>
    refine ih.bind fun w w' hw => ?_
    rw [Value.opposite_congr hw]
    cases w'.opposite span with
    | ok w => exact .ok rfl
    | error f => exact .fail rfl

end Walks

/-! ## References -/

namespace Document

variable {p : Providers} {d r : Document} {s t : Section} {q qs : Progress}

/-- A macro is found where the context finds it, and the state stays as it is. -/
theorem alike_macroName (hq : Finished d r q) (h : Beside s.name t False q qs) (target : String)
    (span : Span) : Alike SameValue qs (resolveReference p (.all d) ⟨.macroName, target⟩ span)
      ((Context.ofDocument r).reference ⟨.macroName, target⟩) := by
  rw [resolveReference_macroName]
  have hvalue : qs.document.macros.get? target = r.macros.get? target := by
    rw [h.macros, hq.macroValue]
  simp only [Context.ofDocument]
  cases hv : r.macros.get? target with
  | none => exact .fail (resolveMacro_of_missing (hvalue.trans hv))
  | some v =>
    have hdone : target ∈ qs.doneMacros := by
      rw [h.doneMacros]
      exact hq.macroDone target v ((hq.macroValue target).trans hv)
    exact ⟨_, resolveMacro_of_done (hvalue.trans hv) hdone, v.bare_withSpan span⟩

/-- A property of another section is read where it stands, as that section is done. -/
theorem alike_property (hq : Finished d r q) (h : Beside s.name t False q qs) {target name key : String}
    (hkey : Reference.sectionKey? ⟨.crossSection, target⟩ = some (name, key))
    (hspecial : Section.isSpecialName name = false) (hname : name ≠ s.name)
    (hcontains : q.document.sections.contains name = true) (span : Span) :
    Alike SameValue qs (resolveReference p (.all d) ⟨.crossSection, target⟩ span)
      ((Context.ofDocument r).reference ⟨.crossSection, target⟩) := by
  obtain ⟨hdone, hidle⟩ := hq.sectionDone name hspecial hcontains
  have hdone' := (h.doneOthers name hname).mpr hdone
  have hfound : qs.document.get? name key = r.get? name key := by
    rw [h.get?_eq hname, hq.property name hspecial]
  have hrun : resolveReference p (.all d) ⟨.crossSection, target⟩ span qs
      = readProperty name key target span qs := by
    rw [resolveReference_of_idle hkey ((h.contains_eq hname).trans hcontains) hidle,
      bind_of_ok (resolveSection_of_done hdone')]
  rw [readProperty, get_bind, hfound] at hrun
  simp only [Context.ofDocument, hkey, Option.bind_some]
  cases hv : r.get? name key with
  | none =>
    rw [hv] at hrun
    exact ⟨_, _, hrun⟩
  | some v =>
    rw [hv] at hrun
    exact ⟨v.withSpan span, hrun, v.bare_withSpan span⟩

/-- What refers to the new section itself is a cycle in the state, and missing in the resolved
    document. -/
theorem alike_crossSection (hq : Finished d r q) (h : Beside s.name t False q qs)
    (hfresh : s.name ∉ d.sections.keys) {target : String}
    (href : Reference.Inner ⟨.crossSection, target⟩) (span : Span) :
    Alike SameValue qs (resolveReference p (.all d) ⟨.crossSection, target⟩ span)
      ((Context.ofDocument r).reference ⟨.crossSection, target⟩) := by
  cases hkey : Reference.sectionKey? ⟨.crossSection, target⟩ with
  | none =>
    simp only [Context.ofDocument, hkey]
    exact .fail (resolveReference_of_badTarget hkey)
  | some e =>
    obtain ⟨name, key⟩ := e
    have hspecial := href name key hkey
    by_cases hname : name = s.name
    · subst hname
      have hhere : qs.document.sections.contains s.name = true := by rw [Table.contains, h.here]; rfl
      have hnone : r.get? s.name key = none := by
        rw [← hq.property _ hspecial, get?, h.fresh, Option.bind_none]
      simp only [Context.ofDocument, hkey, Option.bind_some, hnone]
      exact .fail (resolveReference_of_open hkey hhere hfresh)
    cases hcontains : q.document.sections.contains name with
    | true => exact alike_property hq h hkey hspecial hname hcontains span
    | false =>
      have hnone : r.get? name key = none := by
        have habsent : q.document.sections.get? name = none := by
          simpa [Table.contains] using hcontains
        rw [← hq.property name hspecial, get?, habsent, Option.bind_none]
      simp only [Context.ofDocument, hkey, Option.bind_some, hnone]
      exact .fail (resolveReference_of_missing hkey ((h.contains_eq hname).trans hcontains))

/-- **In the state in which the new section is resolved**, a look-up finds what the resolved document
    holds. -/
theorem alike_reference (hq : Finished d r q) (h : Beside s.name t False q qs)
    (hfresh : s.name ∉ d.sections.keys) {ref : Reference} (href : ref.Inner) (span : Span) :
    Alike SameValue qs (resolveReference p (.all d) ref span) ((Context.ofDocument r).reference ref) := by
  obtain ⟨kind, target⟩ := ref
  cases kind with
  | environment => exact absurd href not_false
  | localization => exact absurd href not_false
  | macroName => exact alike_macroName hq h target span
  | crossSection => exact alike_crossSection hq h hfresh href span

/-- **Folding agrees with evaluation.**  A document that can be resolved can be resolved with one more
    section exactly if the property of that section has a value in the context of the resolved document;
    then the property has that value, and all the rest is as without the section. -/
theorem folding_agrees (h : d.resolve p = .ok r) (hname : Section.isSpecialName s.name = false)
    (hfresh : d.sections.get? s.name = none) (hparents : s.parents = []) {key : String} {v : Value}
    (hproperties : s.properties = .ofList [(key, v)]) (hregistry : s.registry = [])
    (hv : v.Inner (.ofDocument r)) :
    ((∃ r', (d.insertSection s).resolve p = .ok r') ↔ ∃ w, v.evaluate (.ofDocument r) = .ok w) ∧
      ∀ r', (d.insertSection s).resolve p = .ok r' →
        (∃ w w', v.evaluate (.ofDocument r) = .ok w ∧ r'.get? s.name key = some w' ∧
          w'.bare = w.bare) ∧
        (∀ n, n ≠ s.name → r'.sections.get? n = r.sections.get? n) ∧ r'.macros = r.macros ∧
          r'.schemas = r.schemas := by
  obtain ⟨q, qs, t, hq, hbeside, hsuccess, hfailure⟩ :=
    resolve_insertSection h hfresh hname hparents hproperties hregistry
  have hfresh' : s.name ∉ d.gatherMacros.sections.keys := by
    rw [sections_gatherMacros]
    exact Table.get?_eq_none_iff.mp hfresh
  have halike := alike_resolve hv fun ref span href =>
    alike_reference (p := p) hq hbeside hfresh' href span
  -- both directions follow from one run: the section comes last, when all others are finished
  cases hvalue : v.evaluate (.ofDocument r) with
  | error f =>
    rw [hvalue] at halike
    obtain ⟨f', q', hrun⟩ := halike
    have hnever := hfailure f' q' hrun
    refine ⟨iff_of_false ?_ ?_, fun r' hr' => absurd hr' (hnever r')⟩
    · rintro ⟨r', hr'⟩
      exact hnever r' hr'
    · rintro ⟨w, hw⟩
      cases hw
  | ok w =>
    rw [hvalue] at halike
    obtain ⟨w', hrun, hsame⟩ := halike
    obtain ⟨r₁, hr₁, hproperty, hothers⟩ := hsuccess w' hrun
    refine ⟨iff_of_true ⟨r₁, hr₁⟩ ⟨w, rfl⟩, fun r' hr' => ?_⟩
    rw [hr₁] at hr'
    cases hr'
    exact ⟨⟨w, w', rfl, hproperty, hsame⟩, hothers⟩

/-- A document with a macro and a section, and a section to add that refers to both. -/
def plot : Document where
  sections := .ofList [
    (defineName, { name := defineName, properties := .ofList [("unit", .atom (.int 4) .none)] }),
    ("Size", { name := "Size", properties := .ofList [("side", .atom (.int 3) .none)] })]
where
  /-- The area in words. -/
  area : Value :=
    .binary (.binary (.atom (.reference ⟨.macroName, "unit"⟩) .none) .mul
      (.atom (.reference ⟨.crossSection, "Size.side"⟩) .none) .none) .add (.atom (.string "px") .none) .none
  /-- The section to add. -/
  annex : Section := { name := "Annex", properties := .ofList [("area", area)] }

/-- The area of a plot of land: evaluated on demand, and written into one section more. -/
theorem folding_agrees_plot : ∃ r, plot.resolve .none = .ok r ∧
    plot.sections.get? "Annex" = none ∧ plot.area.Inner (.ofDocument r) ∧
      ((∃ r', (plot.insertSection plot.annex).resolve .none = .ok r') ↔
        ∃ w, plot.area.evaluate (.ofDocument r) = .ok w) := by
  have hok : ((plot.resolve .none).toOption.filter fun r =>
      ((Context.ofDocument r).value? "px").isNone).isSome := by decide +kernel
  obtain ⟨r, hr⟩ := Option.isSome_iff_exists.mp hok
  obtain ⟨hr, hname⟩ := Option.filter_eq_some_iff.mp hr
  have h := eq_ok_of_toOption hr
  have hside : Reference.Inner ⟨.crossSection, "Size.side"⟩ := by
    intro name key hkey
    have hsplit : Reference.sectionKey? ⟨.crossSection, "Size.side"⟩ = some ("Size", "side") := by
      decide +kernel
    rw [hsplit] at hkey
    cases hkey
    rfl
  have hinner : plot.area.Inner (.ofDocument r) :=
    .binary (.binary (.atom trivial) (.atom hside)) (.atom (Option.isNone_iff_eq_none.mp hname))
  exact ⟨r, h, rfl, hinner, (folding_agrees h rfl rfl rfl rfl rfl hinner).1⟩

end Document

end Yini
