import Yini.Proofs.Patch
import Yini.Proofs.Resolve.Plain
import Yini.Proofs.Resolve.WellFormed
import Yini.Proofs.Schema.Validation
import Yini.Proofs.Ybin.Accepted
import Yini.Proofs.Ybin.Oversized

/-!
The table of macros over the history of a document.

The properties of `[#define]` are kept twice: in the section, and in the table of macros.  A document
comes from a text, a file or bytes, and is then resolved, validated and patched (`History`).  Each of
these steps says what it does to the two copies: compiling and decoding make them the same, resolving
makes them the same unless `[#define]` inherits something, validating touches neither, and patching
touches only the section (`mirrors_of_resolve`, `mirrors_of_validate`, `mirrors_patch_iff`).  So they
stay the same over a history in which no step sets them apart (`macros_of_history`), and a patch that
defines a macro does (`patchedMacro_apart`).
-/

namespace Yini

/-- How a document has come about. -/
inductive History where
  | compile (c : Compiler) (text : String)
  | compileFile (c : Compiler) (path : String)
  | decode (bytes : ByteArray)
  | resolve (h : History) (p : Providers)
  | validate (h : History)
  | patch (h changes : History)

/-- The document that has come about so, if every step succeeds. -/
def History.document : History → Except Fault Document
  | compile c text => c.compile text
  | compileFile c path => c.compileFile path
  | decode bytes => Ybin.decode bytes
  | resolve h p => do (← h.document).resolve p
  | validate h => do (← h.document).validate
  | patch h changes => return (← h.document).patch (← changes.document)

namespace Document

/-- Whether the macros are the properties of `[#define]`; there are none if there is no such section. -/
def Mirrors (d : Document) : Prop := ∀ k, d.macros.get? k = d.get? defineName k

/-- What every document is like, whatever its history: sections stand under their names, no record
    holds a name twice, every macro is a property of `[#define]`, and no schema is about `[#define]`. -/
structure Orderly (d : Document) : Prop where
  named : d.IsNamed
  wellFormed : d.WellFormed
  declared : ∀ k, (d.macros.get? k).isSome → (d.get? defineName k).isSome
  unruled : d.schemas.get? defineName = none

variable {d e q : Document} {p : Providers}

/-- Every macro is declared, if the macros are the properties of `[#define]`. -/
theorem Mirrors.declared (h : d.Mirrors) : ∀ k, (d.macros.get? k).isSome → (d.get? defineName k).isSome :=
  fun k hk => h k ▸ hk

/-! ## Compiling and decoding -/

/-- What can be read from a text is well-formed. -/
theorem Legible.toWellFormed (h : d.Legible) : d.WellFormed where
  sections n s hs v hv := ((h.sections n s hs).contents v hv).wellFormed
  schemas n s hs v hv :=
    ((h.schemas n s hs).contents v hv).elim Value.Legible.wellFormed Value.LegibleRule.wellFormed
  macros k v hv := (h.macros k v hv).2.wellFormed

theorem Compiled.orderly (h : d.Compiled) : d.Orderly where
  named := h.legible.named
  wellFormed := h.legible.toWellFormed
  declared := Mirrors.declared h.macros
  unruled := by
    cases hs : d.schemas.get? defineName with
    | none => rfl
    | some s =>
      have hname := (h.legible.schemas _ s hs).header.not_special
      rw [h.legible.named.schemas _ s hs] at hname
      cases hname

/-- In a document that has been decoded the macros are the properties of `[#define]`. -/
theorem Collected.mirrors {m : Nat} (h : d.Collected m) : d.defineMacros.Mirrors := by
  intro k
  show ((d.sections.get? defineName).elim d.macros (·.properties)).get? k
    = (d.sections.get? defineName).bind (·.properties.get? k)
  cases d.sections.get? defineName with
  | none => rw [h.macros]; rfl
  | some s => rfl

/-- A document that has been decoded is in order. -/
theorem Collected.orderly {m : Nat} (h : d.Collected m) : d.defineMacros.Orderly where
  named := ⟨h.named, by
    show Named d.schemas
    rw [h.schemas]
    exact named_empty⟩
  wellFormed := by
    have hsections : ∀ n s, d.sections.get? n = some s → s.WellFormed := fun n s hs v hv =>
      ((h.stored n s hs).1.value hv).elim fun _ hv => hv.wellFormed
    refine ⟨hsections, fun n s hs => ?_, fun k v hv => ?_⟩
    · change d.schemas.get? n = some s at hs
      rw [h.schemas] at hs
      cases hs
    · rw [h.mirrors k] at hv
      obtain ⟨s, hs, hget⟩ := Option.bind_eq_some_iff.mp hv
      exact (hsections _ s hs).property hget
  declared := h.mirrors.declared
  unruled := by
    show d.schemas.get? defineName = none
    rw [h.schemas]
    rfl

/-! ## Resolving -/

section Resolve

open Progress

variable {r : Progress}

/-- In the end the macros are those that there were, and what `[#define]` declared at first. -/
theorem isSome_macro_of_sound (hsound : Sound d.gatherMacros p (.all d.gatherMacros) r)
    (hd : d.Orderly) (k : String) :
    (r.document.macros.get? k).isSome = (d.get? defineName k).isSome := by
  rw [hsound.isSome_macro, get?_macros_gatherMacros, Option.isSome_or]
  cases hk : (d.macros.get? k).isSome with
  | false => exact Bool.or_false _
  | true => rw [hd.declared k hk]; rfl

end Resolve

/-- **Resolving makes the macros the properties of `[#define]`**, exactly if it makes `[#define]`
    inherit nothing. -/
theorem mirrors_of_resolve (hd : d.Orderly) (h : d.resolve p = .ok e) :
    e.Mirrors ↔ ∀ k, (e.get? defineName k).isSome → (d.get? defineName k).isSome := by
  obtain ⟨r, rfl, hsound, hcomplete⟩ := resolve_sound h
  have hvalue := isSome_macro_of_sound hsound hd
  constructor
  · intro hmirrors k hk
    rwa [← hmirrors k, hvalue] at hk
  · intro hkeys k
    cases hk : (d.get? defineName k).isSome with
    | true =>
      have hdeclared : (d.gatherMacros.get? defineName k).isSome := by
        rwa [get?, sections_gatherMacros]
      obtain ⟨v, hv, hvalue⟩ :=
        agrees_of_declared hsound hcomplete d.gathered_gatherMacros hdeclared
      rw [hv, hvalue]
    | false =>
      have hnone : r.document.get? defineName k = none := by
        cases hv : r.document.get? defineName k with
        | none => rfl
        | some v =>
          have hthere := hkeys k (by rw [hv]; rfl)
          rw [hk] at hthere
          cases hthere
      have hvalue := hvalue k
      rw [hk, Option.isSome_eq_false_iff, Option.isNone_iff_eq_none] at hvalue
      rw [hvalue, hnone]

/-- If `[#define]` has no parents, it inherits nothing. -/
theorem mirrors_of_orphan (hd : d.Orderly)
    (horphan : ∀ s, d.sections.get? defineName = some s → s.parents = []) (h : d.resolve p = .ok e) :
    e.Mirrors := by
  refine (mirrors_of_resolve hd h).mpr fun k hk => ?_
  obtain ⟨r, rfl, hsound, hcomplete⟩ := resolve_sound h
  have hgathered := gathered_of_orphan hsound hcomplete d.gathered_gatherMacros
    (by rwa [sections_gatherMacros])
  obtain ⟨v, hv⟩ := Option.isSome_iff_exists.mp hk
  rw [← isSome_macro_of_sound hsound hd, hgathered k v hv]
  rfl

theorem Orderly.resolve (hd : d.Orderly) (h : d.resolve p = .ok e) : e.Orderly := by
  obtain ⟨hsections, hschemas⟩ := kept_of_resolve h
  refine ⟨⟨fun n t ht => ?_, fun n t ht => ?_⟩, hd.wellFormed.resolve h, fun k hk => ?_, ?_⟩
  · obtain ⟨s, hs, hkept⟩ := hsections.exists_left ht
    exact hkept.name.trans (hd.named.sections n s hs)
  · obtain ⟨s, hs, hkept⟩ := hschemas.exists_left ht
    exact hkept.name.trans (hd.named.schemas n s hs)
  · -- a macro was a property of `[#define]` at first, and so it is now
    obtain ⟨r, rfl, hsound, -⟩ := resolve_sound h
    rw [isSome_macro_of_sound hsound hd, Option.isSome_iff_exists] at hk
    obtain ⟨v, hv⟩ := hk
    obtain ⟨s, hs, hget⟩ := Option.bind_eq_some_iff.mp hv
    obtain ⟨t, ht, hkept⟩ := hsections.exists_right hs
    rw [get?, ht]
    exact hkept.properties k (by rw [Table.contains, hget]; rfl)
  · exact hschemas.get?_eq_none_iff.mp hd.unruled

/-! ## Validating -/

/-- What a rule fills in is well-formed if the rule is. -/
theorem wellFormed_supply {s : Section} (hs : s.WellFormed) (key : String) {rule : Value}
    (hrule : rule.wellFormed) : (s.supply key rule).WellFormed := by
  refine Section.wellFormed_iff.mpr ⟨fun k v hv => ?_, fun v hv => ?_⟩
  · by_cases hk : key = k
    · subst hk
      rw [Section.get?_supply_self, Option.or_eq_some_iff] at hv
      refine hv.elim hs.property fun ⟨_, hv⟩ => ?_
      unfold Value.supply? at hv
      split at hv
      next m w lo hi span =>
        split at hv <;> cases hv
        exact (Value.wellFormed_rule_iff.mp hrule).1 _ rfl
      next => cases hv
    · rw [Section.get?_supply_of_ne hk] at hv
      exact hs.property hv
  · refine (Section.wellFormed_iff.mp hs).2 v ?_
    unfold Section.supply at hv
    split at hv <;> exact hv

/-- Changing a section but for its name keeps all under their names. -/
theorem IsNamed.modify (h : d.IsNamed) {name : String} {f : Section → Section}
    (hname : ∀ s, (f s).name = s.name) :
    IsNamed { d with sections := d.sections.modify name f } := by
  refine ⟨fun n t ht => ?_, h.schemas⟩
  by_cases hn : name = n
  · subst hn
    rw [Table.get?_modify_self] at ht
    obtain ⟨s, hs, rfl⟩ := Option.map_eq_some_iff.mp ht
    exact (hname s).trans (h.sections _ s hs)
  · rw [Table.get?_modify_of_ne _ hn] at ht
    exact h.sections n t ht

/-- A demand that is about another section leaves `[#define]` alone. -/
theorem define_fill {c : Demand} (h : c.sectionName ≠ defineName) :
    (c.fill d).sections.get? defineName = d.sections.get? defineName :=
  Table.get?_modify_of_ne _ h _

/-- **Validating leaves the macros and `[#define]` alone.** -/
theorem define_of_validate (hd : d.Orderly) (h : d.validate = .ok e) :
    e.sections.get? defineName = d.sections.get? defineName ∧ e.macros = d.macros ∧ e.Orderly := by
  obtain ⟨-, rfl⟩ := validate_eq_ok_iff.mp h
  have hkept := filled_of_validate h
  have hdemand : ∀ c ∈ d.demands, c.sectionName ≠ defineName ∧ c.rule.wellFormed := by
    intro c hc
    obtain ⟨schema, hschema, hrule⟩ := Demand.mem_demandsOf.mp hc
    have hget := Table.mem_entries_iff.mp hschema
    refine ⟨fun hname => ?_, ?_⟩
    · rw [hname, hd.unruled] at hget
      cases hget
    · exact hd.wellFormed.schemas _ schema hget _ (Section.mem_contents_of_property hrule)
  have hrun : (d.demands.foldl Demand.fill d).sections.get? defineName = d.sections.get? defineName ∧
      (d.demands.foldl Demand.fill d).IsNamed ∧ (d.demands.foldl Demand.fill d).WellFormed := by
    refine List.foldlRecOn d.demands Demand.fill (motive := fun b : Document =>
      b.sections.get? defineName = d.sections.get? defineName ∧ b.IsNamed ∧ b.WellFormed)
      ⟨rfl, hd.named, hd.wellFormed⟩ ?_
    rintro b ⟨hdefine, hnamed, hwell⟩ c hc
    obtain ⟨hname, hrule⟩ := hdemand c hc
    exact ⟨(define_fill hname).trans hdefine, hnamed.modify (Section.name_supply c.key c.rule),
      hwell.modify fun _ hs => wellFormed_supply hs c.key hrule⟩
  refine ⟨hrun.1, hkept.macros, hrun.2.1, hrun.2.2, fun k hk => ?_, ?_⟩
  · rw [hkept.macros] at hk
    rw [get?, hrun.1]
    exact hd.declared k hk
  · rw [hkept.schemas]
    exact hd.unruled

theorem mirrors_of_validate (hd : d.Orderly) (h : d.validate = .ok e) : e.Mirrors ↔ d.Mirrors := by
  obtain ⟨hdefine, hmacros, -⟩ := define_of_validate hd h
  simp only [Mirrors, get?, hdefine, hmacros]

/-! ## Patching -/

/-- A property of the patch counts before one that was there. -/
theorem get?_patch_property (d q : Document) (n k : String) :
    (d.patch q).get? n k = (q.get? n k).or (d.get? n k) := by
  rw [get?, get?_patch, get?, get?]
  cases q.sections.get? n with
  | none => rfl
  | some s =>
    cases d.sections.get? n with
    | none => exact Option.or_none.symm
    | some old => exact Table.get?_insertAll old.properties s.properties k

theorem Orderly.patch (hd : d.Orderly) (hq : q.Orderly) : (d.patch q).Orderly := by
  have hcases : ∀ n t, (d.patch q).sections.get? n = some t →
      d.sections.get? n = some t ∨ ∃ s, q.sections.get? n = some s ∧ t = patched (d.sections.get? n) s := by
    intro n t ht
    rw [get?_patch, Option.or_eq_some_iff] at ht
    refine ht.symm.imp And.right fun ht => ?_
    obtain ⟨s, hs, rfl⟩ := Option.map_eq_some_iff.mp ht
    exact ⟨s, hs, rfl⟩
  refine ⟨⟨fun n t ht => ?_, hd.named.schemas⟩, ⟨fun n t ht => ?_, hd.wellFormed.schemas,
    hd.wellFormed.macros⟩, fun k hk => ?_, hd.unruled⟩
  · rcases hcases n t ht with hold | ⟨s, hs, rfl⟩
    · exact hd.named.sections n t hold
    · cases hold : d.sections.get? n with
      | none => exact hq.named.sections n s hs
      | some old => exact hd.named.sections n old hold
  · rcases hcases n t ht with hold | ⟨s, hs, rfl⟩
    · exact hd.wellFormed.sections n t hold
    · have hnew := hq.wellFormed.sections n s hs
      cases hold : d.sections.get? n with
      | none => exact hnew
      | some old =>
        obtain ⟨hproperties, hregistry⟩ := Section.wellFormed_iff.mp (hd.wellFormed.sections n old hold)
        refine Section.wellFormed_iff.mpr ⟨fun k v hv => ?_, List.forall_mem_append.mpr
          ⟨hregistry, (Section.wellFormed_iff.mp hnew).2⟩⟩
        change (old.properties.insertAll s.properties.entries).get? k = some v at hv
        rw [Table.get?_insertAll, Option.or_eq_some_iff] at hv
        exact hv.elim hnew.property fun hv => hproperties k v hv.2
  · rw [get?_patch_property, Option.isSome_or, hd.declared k hk, Bool.or_true]

/-- **Patching leaves the macros alone**, and so they stay the properties of `[#define]` exactly if the
    patch defines nothing new there. -/
theorem mirrors_patch_iff (h : d.Mirrors) :
    (d.patch q).Mirrors ↔ ∀ k v, q.get? defineName k = some v → d.get? defineName k = some v := by
  show (∀ k, d.macros.get? k = (d.patch q).get? defineName k) ↔ _
  simp only [h _, get?_patch_property]
  refine forall_congr' fun k => ?_
  cases q.get? defineName k with
  | none => simp
  | some v => simp

/-! ## Bytes -/

/-- If the macros are the properties of `[#define]`, they come back with the bytes of the document. -/
theorem get?_macros_of_decode {bytes : ByteArray} (hd : d.Orderly) (h : d.Mirrors)
    (hencode : Ybin.encode d = .ok bytes) (hdecode : Ybin.decode bytes = .ok e) (k : String) :
    e.macros.get? k = (d.macros.get? k).map Value.bare := by
  have hnamed : d.storedByName := by
    rw [storedByName, List.all_eq_true]
    exact fun f hf => beq_iff_eq.mpr (hd.named.sections f.1 f.2 (Table.mem_entries_iff.mp hf))
  have hwell : d.wellFormed := by
    rw [wellFormed, List.all_eq_true]
    intro s hs
    obtain ⟨n, hn⟩ := Table.mem_values_iff.mp hs
    exact List.all_eq_true.mpr (hd.wellFormed.sections n s hn)
  rw [Ybin.decode_of_encode hnamed hwell hencode hdecode, h k, get?, kept]
  cases d.sections.get? defineName with
  | none => rfl
  | some s => exact Table.get?_mapValues _ _ _

end Document

/-! ## Histories -/

namespace History

/-- Whether no step sets the macros and `[#define]` apart: resolving lets `[#define]` inherit nothing,
    which makes up for all that was before, and a patch defines nothing that is not there with the same
    value. -/
def InStep : History → Prop
  | compile .. | compileFile .. | decode .. => True
  | resolve h p => ∀ d e, h.document = .ok d → d.resolve p = .ok e →
      ∀ k, (e.get? defineName k).isSome → (d.get? defineName k).isSome
  | validate h => h.InStep
  | patch h changes => h.InStep ∧ ∀ d q, h.document = .ok d → changes.document = .ok q →
      ∀ k v, q.get? defineName k = some v → d.get? defineName k = some v

variable {h : History} {d : Document}

/-- **Every document is orderly**, whatever its history. -/
theorem orderly (hd : h.document = .ok d) : d.Orderly := by
  induction h generalizing d with
  | compile c text => exact (Compiler.compiled_of_compile hd).orderly
  | compileFile c path => exact (Compiler.compiled_of_compileFile hd).orderly
  | decode bytes =>
    obtain ⟨e, -, hcollected, -, rfl⟩ := Ybin.decode_eq_ok hd
    exact hcollected.orderly
  | resolve h p ih =>
    obtain ⟨b, hb, hresolve⟩ := except_bind_eq_ok.mp hd
    exact (ih hb).resolve hresolve
  | validate h ih =>
    obtain ⟨b, hb, hvalidate⟩ := except_bind_eq_ok.mp hd
    exact (Document.define_of_validate (ih hb) hvalidate).2.2
  | patch h changes ih ihChanges =>
    obtain ⟨b, hb, hd⟩ := except_bind_eq_ok.mp hd
    obtain ⟨q, hq, hd⟩ := except_bind_eq_ok.mp hd
    cases hd
    exact (ih hb).patch (ihChanges hq)

/-- **The macros are the properties of `[#define]`** as long as no step sets them apart. -/
theorem mirrors (hstep : h.InStep) (hd : h.document = .ok d) : d.Mirrors := by
  induction h generalizing d with
  | compile c text => exact (Compiler.compiled_of_compile hd).macros
  | compileFile c path => exact (Compiler.compiled_of_compileFile hd).macros
  | decode bytes =>
    obtain ⟨e, -, hcollected, -, rfl⟩ := Ybin.decode_eq_ok hd
    exact hcollected.mirrors
  | resolve h p =>
    obtain ⟨b, hb, hresolve⟩ := except_bind_eq_ok.mp hd
    exact (Document.mirrors_of_resolve (orderly hb) hresolve).mpr (hstep b d hb hresolve)
  | validate h ih =>
    obtain ⟨b, hb, hvalidate⟩ := except_bind_eq_ok.mp hd
    exact (Document.mirrors_of_validate (orderly hb) hvalidate).mpr (ih hstep hb)
  | patch h changes ih =>
    obtain ⟨b, hb, hd⟩ := except_bind_eq_ok.mp hd
    obtain ⟨q, hq, hd⟩ := except_bind_eq_ok.mp hd
    cases hd
    exact (Document.mirrors_patch_iff (ih hstep.1 hb)).mpr (hstep.2 b q hb hq)

end History

/-- **The macros over the history of a document.**  Every macro is a property of `[#define]`.  If no
    step has set them apart, the macros are the properties of `[#define]`, with the same values, and the
    bytes of the document give the same macros back.  And each step may set them apart in one way only:
    compiling and decoding never do, resolving does exactly if `[#define]` inherits something, and so
    not if it has no parents, validating does not, and a patch does exactly if it defines something that
    is not there with the same value. -/
theorem macros_of_history {h : History} {d : Document} (hd : h.document = .ok d) :
    (∀ k, (d.macros.get? k).isSome → (d.get? defineName k).isSome) ∧
      (h.InStep → d.Mirrors ∧ ∀ bytes e, Ybin.encode d = .ok bytes → Ybin.decode bytes = .ok e →
        ∀ k, e.macros.get? k = (d.macros.get? k).map Value.bare) ∧
      (∀ p e, d.resolve p = .ok e →
        (e.Mirrors ↔ ∀ k, (e.get? defineName k).isSome → (d.get? defineName k).isSome) ∧
          ((∀ s, d.sections.get? defineName = some s → s.parents = []) → e.Mirrors)) ∧
      (∀ e, d.validate = .ok e → (e.Mirrors ↔ d.Mirrors)) ∧
      ∀ q, d.Mirrors → ((d.patch q).Mirrors ↔
        ∀ k v, q.get? defineName k = some v → d.get? defineName k = some v) := by
  have horderly := History.orderly hd
  refine ⟨horderly.declared, fun hstep => ?_, fun p e he => ⟨?_, fun horphan => ?_⟩, fun e he => ?_,
    fun q hmirrors => Document.mirrors_patch_iff hmirrors⟩
  · have hmirrors := History.mirrors hstep hd
    exact ⟨hmirrors, fun bytes e hencode hdecode k =>
      Document.get?_macros_of_decode horderly hmirrors hencode hdecode k⟩
  · exact Document.mirrors_of_resolve horderly he
  · exact Document.mirrors_of_orphan horderly horphan he
  · exact Document.mirrors_of_validate horderly he

open Ybin (plainCompiler)

/-- A text with a macro, to which a patch adds a section before it is validated. -/
def History.patchedSection : History :=
  .validate (.patch (.compile plainCompiler "[#define]\na = 1\n[#schema]\n[S]\nx = ?, int, =7\n[#end_schema]\n")
    (.compile plainCompiler "[S]\ny = 2\n"))

/-- A history with a patch of another section. -/
theorem macros_of_history_patchedSection : ∃ d, History.patchedSection.document = .ok d ∧
    History.patchedSection.InStep ∧ d.Mirrors ∧ (d.macros.get? "a").isSome ∧
      ∃ bytes e, Ybin.encode d = .ok bytes ∧ Ybin.decode bytes = .ok e ∧
        ∀ k, e.macros.get? k = (d.macros.get? k).map Value.bare := by
  have hvalues : (History.patchedSection.document.toOption.bind fun d =>
      (Ybin.encode d).toOption.bind fun bytes => (Ybin.decode bytes).toOption.map fun _ =>
        (d.macros.get? "a").isSome) = some true := by decide +kernel
  obtain ⟨d, hd, hvalues⟩ := Option.bind_eq_some_iff.mp hvalues
  obtain ⟨bytes, hencode, hvalues⟩ := Option.bind_eq_some_iff.mp hvalues
  obtain ⟨e, hdecode, hvalue⟩ := Option.map_eq_some_iff.mp hvalues
  have hpatch : ((plainCompiler.compile "[S]\ny = 2\n").toOption.map fun q =>
      (q.sections.get? defineName).isNone) = some true := by decide +kernel
  obtain ⟨q, hq, hnone⟩ := Option.map_eq_some_iff.mp hpatch
  -- the patch has no section `[#define]`
  have hstep : History.patchedSection.InStep := by
    refine ⟨trivial, fun _ q' _ hq' k v hv => ?_⟩
    obtain rfl : q' = q := Except.ok.inj (hq'.symm.trans (eq_ok_of_toOption hq))
    rw [Document.get?, Option.isNone_iff_eq_none.mp hnone] at hv
    cases hv
  have hdocument := eq_ok_of_toOption hd
  obtain ⟨hmirrors, hbytes⟩ := (macros_of_history hdocument).2.1 hstep
  have hencode := eq_ok_of_toOption hencode
  have hdecode := eq_ok_of_toOption hdecode
  exact ⟨d, hdocument, hstep, hmirrors, hvalue, bytes, e, hencode, hdecode,
    hbytes bytes e hencode hdecode⟩

/-- A text with a macro, for which a patch has another value. -/
def History.patchedMacro : History :=
  .patch (.compile plainCompiler "[#define]\na = 1\n") (.compile plainCompiler "[#define]\na = 2\n")

/-- The patch reaches `[#define]` and not the macros, and so the macros are not those of the bytes. -/
theorem patchedMacro_apart : ∃ d, History.patchedMacro.document = .ok d ∧ ¬d.Mirrors ∧
    (d.get? defineName "a").bind Value.int? = some 2 ∧ (d.macros.get? "a").bind Value.int? = some 1 ∧
      ∃ bytes e, Ybin.encode d = .ok bytes ∧ Ybin.decode bytes = .ok e ∧
        (e.macros.get? "a").bind Value.int? = some 2 := by
  have hvalues : (History.patchedMacro.document.toOption.bind fun d =>
      (Ybin.encode d).toOption.bind fun bytes => (Ybin.decode bytes).toOption.map fun e =>
        ((d.get? defineName "a").bind Value.int?, (d.macros.get? "a").bind Value.int?,
          (e.macros.get? "a").bind Value.int?)) = some (some 2, some 1, some 2) := by decide +kernel
  obtain ⟨d, hd, hvalues⟩ := Option.bind_eq_some_iff.mp hvalues
  obtain ⟨bytes, hencode, hvalues⟩ := Option.bind_eq_some_iff.mp hvalues
  obtain ⟨e, hdecode, hvalues⟩ := Option.map_eq_some_iff.mp hvalues
  obtain ⟨hdefine, hvalues⟩ := Prod.mk.inj hvalues
  obtain ⟨hvalue, hback⟩ := Prod.mk.inj hvalues
  refine ⟨d, eq_ok_of_toOption hd, fun hmirrors => ?_, hdefine, hvalue, bytes, e,
    eq_ok_of_toOption hencode, eq_ok_of_toOption hdecode, hback⟩
  rw [hmirrors "a", hdefine] at hvalue
  cases hvalue

end Yini
