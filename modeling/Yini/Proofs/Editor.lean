import Yini.Editor
import Yini.Proofs.Compile.Labels
import Yini.Proofs.Ybin.Cache

/-!
What an editor finds in a compiled document.

In a compiled document no two names overlap, so at the place of a property nothing else can be found
than this property.  Whether it is found depends on the section around its line: that is looked up by
the headers, of which a section keeps only the first.  Where this is the section of the property, the
property is found, and where it is another one, nothing is (`Editor.hover_compiled`).
-/

namespace Yini.Editor

/-! ## The section around a line -/

/-- There is a lowest header unless there is none at all. -/
theorem eq_nil_of_lowest {ss : List Section} (h : lowest ss = none) : ss = [] := by
  cases ss with
  | nil => rfl
  | cons s ss =>
    unfold lowest at h
    split at h
    · split at h <;> cases h
    · cases h

/-- **The lowest header is lower than those behind it** and at least as low as those before it. -/
theorem exists_of_lowest {ss : List Section} {s : Section} (h : lowest ss = some s) :
    ∃ before after, ss = before ++ s :: after ∧ (∀ t ∈ before, t.span.line ≤ s.span.line) ∧
      ∀ t ∈ after, t.span.line < s.span.line := by
  induction ss generalizing s with
  | nil => cases h
  | cons x ss ih =>
    unfold lowest at h
    split at h
    next t ht =>
      obtain ⟨before, after, hsplit, hbefore, hafter⟩ := ih ht
      split at h
      next hle =>
        cases h
        refine ⟨x :: before, after, by rw [hsplit]; rfl, ?_, hafter⟩
        exact List.forall_mem_cons.mpr ⟨hle, hbefore⟩
      next hlt =>
        -- the first header is below the lowest of the others, and so below all of them
        cases h
        refine ⟨[], ss, rfl, nofun, fun u hu => ?_⟩
        have hle : u.span.line ≤ t.span.line := by
          rw [hsplit] at hu
          rcases List.mem_append.mp hu with hu | hu
          · exact hbefore u hu
          rcases List.mem_cons.mp hu with rfl | hu
          · exact Nat.le_refl _
          · exact Nat.le_of_lt (hafter u hu)
        omega
    next hnone =>
      cases h
      rw [eq_nil_of_lowest hnone]
      exact ⟨[], [], rfl, nofun, nofun⟩

/-- **The lowest of some headers** is the last one of those on the greatest line. -/
theorem lowest_eq_some_iff {ss : List Section} {s : Section} : lowest ss = some s ↔
    ∃ before after, ss = before ++ s :: after ∧ (∀ t ∈ before, t.span.line ≤ s.span.line) ∧
      ∀ t ∈ after, t.span.line < s.span.line := by
  refine ⟨exists_of_lowest, ?_⟩
  rintro ⟨before, after, rfl, hbefore, hafter⟩
  induction before with
  | nil =>
    show lowest (s :: after) = some s
    unfold lowest
    split
    next t ht =>
      obtain ⟨front, back, hsplit, -⟩ := exists_of_lowest ht
      have hlt := hafter t (hsplit ▸ List.mem_append_right _ List.mem_cons_self)
      exact if_neg (Nat.not_le.mpr hlt)
    next => rfl
  | cons t before ih =>
    obtain ⟨ht, hbefore⟩ := List.forall_mem_cons.mp hbefore
    rw [List.cons_append, lowest, ih hbefore]
    exact if_pos ht

variable {d : Document} {file : Option String} {line column : Nat} {s : Section}

/-- The section around a line is one of the document, in the same file. -/
theorem of_sectionAt (h : sectionAt d file line = some s) :
    (∃ n, d.sections.get? n = some s) ∧ s.span.file = file := by
  obtain ⟨before, after, hsplit, -⟩ := exists_of_lowest h
  have hmem : s ∈ d.sections.values.filter fun s =>
      s.span.file == file && 0 < s.span.line && s.span.line ≤ line := by
    rw [hsplit]
    exact List.mem_append_right _ List.mem_cons_self
  obtain ⟨hmem, hfile⟩ := List.mem_filter.mp hmem
  simp only [Bool.and_eq_true, beq_iff_eq] at hfile
  exact ⟨Table.mem_values_iff.mp hmem, hfile.1.1⟩

/-! ## Names at a position -/

/-- A text covers the columns of its line from its place on, one for each character. -/
theorem covers_iff {span : Span} {text : String} : covers span text line column = true ↔
    span.line = line ∧ span.column ≤ column ∧ column < span.column + text.toList.length := by
  simp only [covers, Bool.and_eq_true, beq_iff_eq, decide_eq_true_eq, and_assoc]

/-- A name covers the place where it begins. -/
theorem covers_self (span : Span) {text : String} (h : text.toList ≠ []) :
    covers span text span.line span.column = true := by
  have hpos := List.length_pos_of_ne_nil h
  exact covers_iff.mpr ⟨rfl, Nat.le_refl _, by omega⟩

/-- **Where a name begins, no other name stands.** -/
theorem eq_of_covers {C : Chart} (hC : C.Apart) {l l' : Label} {span span' : Span} (hl : (l, span) ∈ C)
    (hl' : (l', span') ∈ C) (hfile : span'.file = span.file) (htext : l.text.toList ≠ [])
    (hcovers : covers span' l'.text span.line span.column = true) : l' = l := by
  obtain ⟨hline, hle, hlt⟩ := covers_iff.mp hcovers
  have hpos := List.length_pos_of_ne_nil htext
  by_contra hne
  rcases hC _ hl' _ hl hne hfile with h | h
  · unfold Span.Before Label.width at h
    dsimp only at h
    omega
  · unfold Span.Before Label.width at h
    dsimp only at h
    omega

/-- A key that is found has been noted there, in this file, and covers the column. -/
theorem keyAt_eq_some {key : String} {span : Span} (h : keyAt s file line column = some (key, span)) :
    s.keySpans.get? key = some span ∧ span.file = file ∧ covers span key line column = true := by
  have hholds := List.find?_some h
  simp only [Bool.and_eq_true, beq_iff_eq] at hholds
  exact ⟨Table.mem_entries_iff.mp (List.mem_of_find?_eq_some h), hholds⟩

/-- At the place of a property, no header is found. -/
theorem covers_header {t : Section} {n k : String} {span : Span} (hC : d.chart.Apart)
    (hk : k.toList ≠ []) (hlabel : (⟨n, some k⟩, span) ∈ d.chart) (ht : d.sections.get? t.name = some t)
    (hfile : t.span.file = span.file) : covers t.span t.name span.line span.column = false := by
  refine Bool.eq_false_iff.mpr fun hcovers => ?_
  have header : (⟨t.name, none⟩, t.span) ∈ d.chart := ⟨t, ht, rfl⟩
  cases eq_of_covers hC hlabel header hfile hk hcovers

/-- Among the properties of a section, only the property itself is found at its place. -/
theorem keyAt_of_apart {t : Section} {n k : String} {span : Span} (hC : d.chart.Apart)
    (hk : k.toList ≠ []) (hs : d.sections.get? n = some s) (hspan : s.keySpans.get? k = some span)
    (ht : d.sections.get? t.name = some t) :
    keyAt t span.file span.line span.column = if t.name = n then some (k, span) else none := by
  have hlabel : (⟨n, some k⟩, span) ∈ d.chart := ⟨s, hs, hspan⟩
  have hkey : ∀ key place, keyAt t span.file span.line span.column = some (key, place) →
      t.name = n ∧ key = k := by
    intro key place hfind
    obtain ⟨hplace, hplacefile, hcovers⟩ := keyAt_eq_some hfind
    have hother : (⟨t.name, some key⟩, place) ∈ d.chart := ⟨t, ht, hplace⟩
    cases eq_of_covers hC hlabel hother hplacefile hk hcovers
    exact ⟨rfl, rfl⟩
  split
  next hsame =>
    -- the property itself covers the place where it begins
    obtain rfl : t = s := Option.some.inj (ht.symm.trans (hsame ▸ hs))
    cases hfind : keyAt t span.file span.line span.column with
    | none =>
      have hall := List.find?_eq_none.mp hfind (k, span) (Table.mem_entries_iff.mpr hspan)
      simp [covers_self span hk] at hall
    | some e =>
      obtain ⟨key, place⟩ := e
      obtain ⟨-, rfl⟩ := hkey key place hfind
      obtain rfl : place = span := Option.some.inj ((keyAt_eq_some hfind).1.symm.trans hspan)
      rfl
  next hother =>
    cases hfind : keyAt t span.file span.line span.column with
    | none => rfl
    | some e => exact absurd (hkey e.1 e.2 hfind).1 hother

/-! ## What is shown -/

/-- What an editor shows about a property with a value. -/
def Hover.ofProperty (d : Document) (name key : String) (v : Value) (span : Span) : Hover where
  sectionName := name
  key := some key
  typeName := some v.typeName
  detail := v.text
  rule := ((d.schemas.get? name).bind (·.properties.get? key)).map Value.text
  span := span

/-- At the place of a property, the property is found exactly in its own section. -/
theorem hover_of_apart (hC : d.chart.Apart) (hnamed : d.IsNamed) {n k : String} (hk : k.toList ≠ [])
    {v : Value} {span : Span} (hs : d.sections.get? n = some s) (hspan : s.keySpans.get? k = some span)
    (hv : s.properties.get? k = some v) : hover d span.file span.line span.column =
      if (sectionAt d span.file span.line).any (·.name == n) then some (.ofProperty d n k v span)
      else none := by
  unfold hover
  cases hat : sectionAt d span.file span.line with
  | none => rfl
  | some t =>
    obtain ⟨⟨m, ht⟩, hfile⟩ := of_sectionAt hat
    obtain rfl := hnamed.sections m t ht
    show (if covers t.span t.name span.line span.column then _ else _) = _
    rw [covers_header hC hk ⟨s, hs, hspan⟩ ht hfile, if_neg Bool.false_ne_true]
    show (keyAt t span.file span.line span.column).bind _ = _
    rw [keyAt_of_apart hC hk hs hspan ht, Option.any_some]
    by_cases hsame : t.name = n
    · obtain rfl : t = s := Option.some.inj (ht.symm.trans (hsame ▸ hs))
      rw [if_pos hsame]
      show (t.properties.get? k).bind _ = _
      rw [hv, hsame, if_pos (beq_self_eq_true n)]
      rfl
    · rw [if_neg hsame, if_neg (by simpa using hsame)]
      rfl

/-- **What an editor finds where a property is written.** -/
theorem hover_compiled {c : Compiler} (h : (∃ text, c.compile text = .ok d) ∨ ∃ path, c.compileFile path = .ok d)
    {n k : String} {v : Value} {span : Span} (hs : d.sections.get? n = some s)
    (hspan : s.keySpans.get? k = some span) (hv : s.properties.get? k = some v) :
    hover d span.file span.line span.column =
      if (sectionAt d span.file span.line).any (·.name == n) then some (.ofProperty d n k v span)
      else none := by
  have hboth : d.chart.Apart ∧ d.Compiled := by
    rcases h with ⟨text, h⟩ | ⟨path, h⟩
    · exact ⟨Compiler.apart_of_compile h, Compiler.compiled_of_compile h⟩
    · exact ⟨Compiler.apart_of_compileFile h, Compiler.compiled_of_compileFile h⟩
  obtain ⟨hapart, hcompiled⟩ := hboth
  have hname := (hcompiled.legible.sections n s hs).names (k, v) (Table.mem_entries_iff.mpr hv)
  exact hover_of_apart hapart hcompiled.legible.named hname.ne_nil hs hspan hv

/-- A section that is declared again behind another one. -/
def redeclared : String := "[A]\nx = 1\n[B]\ny = 2\n[A]\nz = 3\n"

open Ybin (plainCompiler)

/-- The property under the first header is found. -/
theorem hover_compiled_redeclared : ∃ d s v, ((∃ text, plainCompiler.compile text = .ok d) ∨
      ∃ path, plainCompiler.compileFile path = .ok d) ∧ d.sections.get? "A" = some s ∧
    s.keySpans.get? "x" = some ⟨none, 2, 1⟩ ∧ s.properties.get? "x" = some v ∧
      hover d none 2 1 = some (.ofProperty d "A" "x" v ⟨none, 2, 1⟩) := by
  have hok : ((plainCompiler.compile redeclared).toOption.bind fun d =>
      (d.sections.get? "A").bind fun s => (s.properties.get? "x").filter fun _ =>
        s.keySpans.get? "x" = some ⟨none, 2, 1⟩ && (sectionAt d none 2).any (·.name == "A")).isSome := by
    decide +kernel
  obtain ⟨v, hv⟩ := Option.isSome_iff_exists.mp hok
  obtain ⟨d, hd, hv⟩ := Option.bind_eq_some_iff.mp hv
  obtain ⟨s, hs, hv⟩ := Option.bind_eq_some_iff.mp hv
  obtain ⟨hv, hall⟩ := Option.filter_eq_some_iff.mp hv
  rw [Bool.and_eq_true, decide_eq_true_eq] at hall
  obtain ⟨hspan, hat⟩ := hall
  have hcompile : (∃ text, plainCompiler.compile text = .ok d) ∨
      ∃ path, plainCompiler.compileFile path = .ok d := .inl ⟨redeclared, eq_ok_of_toOption hd⟩
  refine ⟨d, s, v, hcompile, hs, hspan, hv, ?_⟩
  exact (hover_compiled hcompile hs hspan hv).trans (if_pos hat)

/-- The property under the second header is not found: of the headers above it that the document has
    kept, the closest one is that of the other section. -/
theorem hover_redeclared : ¬∀ (c : Compiler) (text : String) (d : Document), c.compile text = .ok d →
    ∀ (n k : String) (s : Section) (v : Value) (span : Span), d.sections.get? n = some s →
      s.keySpans.get? k = some span → s.properties.get? k = some v →
        ∃ shown, hover d span.file span.line span.column = some shown ∧ shown.sectionName = n ∧
          shown.key = some k := by
  intro hclaim
  have hok : ((plainCompiler.compile redeclared).toOption.bind fun d =>
      (d.sections.get? "A").bind fun s => (s.properties.get? "z").filter fun _ =>
        s.keySpans.get? "z" = some ⟨none, 6, 1⟩ && (hover d none 6 1).isNone).isSome := by
    decide +kernel
  obtain ⟨v, hv⟩ := Option.isSome_iff_exists.mp hok
  obtain ⟨d, hd, hv⟩ := Option.bind_eq_some_iff.mp hv
  obtain ⟨s, hs, hv⟩ := Option.bind_eq_some_iff.mp hv
  obtain ⟨hv, hall⟩ := Option.filter_eq_some_iff.mp hv
  rw [Bool.and_eq_true, decide_eq_true_eq, Option.isNone_iff_eq_none] at hall
  obtain ⟨hspan, hnone⟩ := hall
  obtain ⟨shown, hshown, -⟩ :=
    hclaim plainCompiler redeclared d (eq_ok_of_toOption hd) "A" "z" s v _ hs hspan hv
  rw [hnone] at hshown
  cases hshown

end Yini.Editor
