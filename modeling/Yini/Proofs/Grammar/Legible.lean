import Mathlib.Data.List.Basic
import Yini.Grammar.Rule
import Yini.Proofs.Grammar.Factor
import Yini.Proofs.Merge

/-!
Legible values: those that some source text stands for.

What is read off a source is legible, and so is what resolving makes of it.  A legible value has no
names in it that could not be written, its records have no field twice, a point of the plane has no
third coordinate, and the text of a deferred expression is an expression (`Deferred`).  Numerals have
no sign, so what is read is *unsigned* besides: but for the least integer, no number in it is negative.
-/

namespace Yini

/-! ## Names -/

/-- The text can be written as a name. -/
def IsName (s : String) : Prop := Token.Spells s.toList (.ident s) []

/-- Names with points between them. -/
inductive Dotted : String → Prop
  | one {s : String} (h : IsName s) : Dotted s
  | more {s t : String} (hs : Dotted s) (ht : IsName t) : Dotted (s ++ "." ++ t)

/-- A name is spelled as it is, before anything that does not continue it. -/
theorem spells_ident_iff {text rest : List Char} {name : String} :
    Token.Spells text (.ident name) rest ↔ text = name.toList ∧ IsName name ∧
      ∀ c, rest.head? = some c → Text.continuesName c = false := by
  have hword : ∀ {cs : List Char}, Token.ofWord (String.ofList cs) = .ident name → cs = name.toList := by
    intro cs h
    unfold Token.ofWord at h
    split at h
    · cases h
    split at h
    · cases h
    · rw [← Token.ident.inj h, String.toList_ofList]
  constructor
  · intro h
    generalize ht : Token.ident name = t at h
    cases h with
    | @word c cs _ hmark hdigit hstart hcs hrest =>
      have htext := hword ht.symm
      refine ⟨htext, ?_, hrest⟩
      rw [IsName, ← htext, ht]
      exact .word hmark hdigit hstart hcs fun _ h => by cases h
    | _ => cases ht
  · rintro ⟨rfl, hname, hrest⟩
    generalize htext : name.toList = text at hname
    generalize ht : Token.ident name = t at hname
    rw [IsName, htext, ht] at hname
    cases hname with
    | word hmark hdigit hstart hcs _ => exact .word hmark hdigit hstart hcs hrest
    | _ => cases ht

theorem isName_of_cut {w : Word} {ws : List Word} {last : List Char} {name : String}
    (h : Cut (w :: ws) last) (hw : w.token = .ident name) : IsName name := by
  have hspells := h.1.spells
  rw [hw] at hspells
  exact (spells_ident_iff.mp hspells).2.1

/-! ## Legible values -/

open Grammar in
/-- The text of a deferred expression: an expression without a gap at its ends, which is not too deep to
    be read alone. -/
def Deferred (text : String) : Prop :=
  ∃ w ws v last, text.toList = w.text ++ written ws ∧ IsExpression (some maxNesting) (w :: ws) v ∧
    Cut ({ w with gap := [] } :: ws) last

/-- A reference as it can be written. -/
def Reference.Legible (r : Reference) : Prop :=
  match r.kind with
  | .environment => IsName r.target
  | .macroName => IsName r.target
  | .crossSection => ∃ name key, IsName name ∧ IsName key ∧ r.target = name ++ "." ++ key
  | .localization => Dotted r.target

/-- A float whose sign is not set. -/
def Binary32.Unsigned (x : Binary32) : Prop := x.bits.toNat < Nat.pow 2 31

/-- An atom as it can be written. -/
def Atom.Legible (unsigned : Bool) : Atom → Prop
  | .int n => unsigned → 0 ≤ n.toInt ∨ n = Int32.minValue
  | .float x => unsigned → x.Unsigned
  | .coord c => c.spatial = false → c.z = .zero false
  | .reference r => r.Legible
  | .dyna text => Deferred text
  | _ => True

namespace Value

/-- **A value that a source text can stand for.** -/
inductive Legible (unsigned : Bool) : Value → Prop
  | atom {a : Atom} {span : Span} (h : a.Legible unsigned) : Legible unsigned (.atom a span)
  | sequence {kind : SequenceKind} {vs : List Value} {span : Span} (h : ∀ v ∈ vs, Legible unsigned v) :
      Legible unsigned (.sequence kind vs span)
  | record {kind : RecordKind} {fields : Entries Value} {span : Span} (hnodup : fields.keys.Nodup)
      (hnames : ∀ e ∈ fields, IsName e.1) (hkind : kind = .struct → fields ≠ [])
      (h : ∀ e ∈ fields, Legible unsigned e.2) : Legible unsigned (.record kind fields span)
  | binary {l r : Value} {op : BinaryOp} {span : Span} (hl : Legible unsigned l)
      (hr : Legible unsigned r) : Legible unsigned (.binary l op r span)
  | neg {v : Value} {span : Span} (h : Legible unsigned v) : Legible unsigned (.neg v span)

/-- What is legible without signs is legible. -/
theorem Legible.signed {v : Value} (h : v.Legible true) : v.Legible false := by
  induction h with
  | @atom a span h =>
    refine .atom ?_
    cases a with
    | int => exact fun h => by cases h
    | float => exact fun h => by cases h
    | _ => exact h
  | sequence _ ih => exact .sequence ih
  | record hnodup hnames hkind _ ih => exact .record hnodup hnames hkind ih
  | binary _ _ ihl ihr => exact .binary ihl ihr
  | neg _ ih => exact .neg ih

/-- What is legible is well-formed. -/
theorem Legible.wellFormed {unsigned : Bool} {v : Value} (h : v.Legible unsigned) : v.wellFormed := by
  induction h with
  | atom => rfl
  | sequence _ ih => exact allWellFormed_iff.mpr ih
  | record hnodup _ _ _ ih =>
    rw [Value.wellFormed, Bool.and_eq_true, decide_eq_true_eq]
    exact ⟨hnodup, allFieldsWellFormed_iff.mpr ih⟩
  | binary _ _ ihl ihr => rw [Value.wellFormed, ihl, ihr]; rfl
  | neg _ ih => rw [Value.wellFormed, ih]

end Value

/-! ## Rules, sections and documents -/

/-- The name of a type as it can be written: a name, perhaps with another one in brackets.  The name
    `e` alone is a mark of its own. -/
def IsTypeName (t : String) : Prop :=
  ∃ name, IsName name ∧ name ≠ "e" ∧
    (t = name ∨ ∃ element, IsName element ∧ t = name ++ "[" ++ element ++ "]")

/-- A rule that a source text can stand for. -/
structure Rule.Legible (unsigned : Bool) (r : Rule) : Prop where
  typeName : ∀ t ∈ r.marks.typeName, IsTypeName t
  fill : r.marks.whenEmpty = .fill → r.fallback.isSome
  fallback : ∀ v ∈ r.fallback, v.Legible unsigned
  lower : ∀ v ∈ r.lower, v.Legible unsigned
  upper : ∀ v ∈ r.upper, v.Legible unsigned

/-- The value is a legible rule. -/
def Value.LegibleRule (unsigned : Bool) (v : Value) : Prop :=
  ∃ (r : Rule) (span : Span), v = r.toValue span ∧ r.Legible unsigned

theorem Value.LegibleRule.wellFormed {unsigned : Bool} {v : Value} (h : v.LegibleRule unsigned) :
    v.wellFormed := by
  obtain ⟨r, span, rfl, hr⟩ := h
  have hoption : ∀ {o : Option Value}, (∀ v ∈ o, v.Legible unsigned) → optionWellFormed o := fun h =>
    optionWellFormed_iff.mpr fun v hv => (h v hv).wellFormed
  rw [Rule.toValue, Value.wellFormed, hoption hr.fallback, hoption hr.lower, hoption hr.upper]
  rfl

/-- A name of a section that holds values: a special one has no parents. -/
def IsHeader (name : String) (parents : List String) : Prop :=
  IsName name ∨ ((name = defineName ∨ name = includeName) ∧ parents = [])

/-- A section with names that can be written.  What its properties hold is said by `P`, and what its
    registry holds by `Q`. -/
structure Section.Legible (P Q : Value → Prop) (s : Section) : Prop where
  parents : ∀ parent ∈ s.parents, IsName parent
  names : ∀ e ∈ s.properties.entries, IsName e.1
  properties : ∀ e ∈ s.properties.entries, P e.2
  registry : ∀ v ∈ s.registry, Q v

/-- A section of values as it is read. -/
structure Section.ReadValues (s : Section) : Prop
    extends s.Legible (Value.Legible true) (Value.Legible true) where
  header : IsHeader s.name s.parents

/-- A section of rules as it is read. -/
structure Section.ReadRules (s : Section) : Prop
    extends s.Legible (Value.LegibleRule true) (Value.Legible true) where
  header : IsName s.name

/-- **A document as it is read**, alone or with others that are merged into it. -/
structure Document.Read (d : Document) : Prop where
  macros : d.macros = ∅
  named : d.IsNamed
  sections : ∀ n s, d.sections.get? n = some s → s.ReadValues
  schemas : ∀ n s, d.schemas.get? n = some s → s.ReadRules

/-- No special name can be written as a name. -/
theorem IsName.not_special {name : String} (h : IsName name) : Section.isSpecialName name = false := by
  unfold IsName at h
  unfold Section.isSpecialName
  split
  next cs heq =>
    rw [heq] at h
    generalize ht : Token.ident name = t at h
    generalize htext : '#' :: cs = text at h
    cases h with
    | word hmark =>
      rw [← (List.cons.inj htext).1] at hmark
      cases hmark
    | _ => cases ht
  next => rfl

/-! ## No gap at the ends -/

namespace Text

/-- A code point that is in some ranges is in one of them. -/
theorem exists_of_inRanges {ranges : List (Nat × Nat)} {n : Nat} (h : inRanges ranges n = true) :
    ∃ r ∈ ranges, r.1 ≤ n ∧ n ≤ r.2 := by
  induction ranges with
  | nil => cases h
  | cons r ranges ih =>
    rw [inRanges] at h
    split at h
    next => cases h
    next hlo =>
      split at h
      next hhi => exact ⟨r, List.mem_cons_self, Nat.le_of_not_lt hlo, hhi⟩
      next =>
        obtain ⟨s, hs, hbounds⟩ := ih h
        exact ⟨s, List.mem_cons_of_mem _ hs, hbounds⟩

/-- No white space continues a name. -/
theorem not_isBlank_of_continuesName {c : Char} (h : continuesName c = true) : isBlank c = false := by
  have hletters : ∀ r ∈ blankRanges, ∀ s ∈ alphabeticRanges, r.2 < s.1 ∨ s.2 < r.1 := by
    decide +kernel
  have hnumbers : ∀ r ∈ blankRanges, ∀ s ∈ numericRanges, r.2 < s.1 ∨ s.2 < r.1 := by
    decide +kernel
  refine Bool.eq_false_iff.mpr fun hblank => ?_
  obtain ⟨r, hr, hlo, hhi⟩ := exists_of_inRanges hblank
  simp only [continuesName, isAlphanumeric, isAlphabetic, Bool.or_eq_true, beq_iff_eq] at h
  rcases h with (h | h) | rfl
  · obtain ⟨s, hs, hlo', hhi'⟩ := exists_of_inRanges h
    rcases hletters r hr s hs with h | h <;> omega
  · obtain ⟨s, hs, hlo', hhi'⟩ := exists_of_inRanges h
    rcases hnumbers r hr s hs with h | h <;> omega
  · exact absurd hblank (by decide)

/-- Where no white space is in front, none is dropped there. -/
theorem dropWhile_isBlank_eq_self {cs : List Char} (h : ∀ c, cs.head? = some c → isBlank c = false) :
    cs.dropWhile isBlank = cs := by
  cases cs with
  | nil => rfl
  | cons c cs => rw [List.dropWhile_cons, h c rfl]; rfl

/-- Where no white space is at the end, none is dropped there. -/
theorem trimEnd_eq_self {cs : List Char} (h : ∀ c, cs.getLast? = some c → isBlank c = false) :
    trimEnd cs = cs := by
  rw [trimEnd, dropWhile_isBlank_eq_self (by simpa using h), List.reverse_reverse]

/-- White space at the end makes no difference. -/
theorem trimEnd_append {blank : List Char} (hblank : blank.all isBlank) (cs : List Char) :
    trimEnd (cs ++ blank) = trimEnd cs := by
  have hblanks : ∀ c ∈ blank.reverse, isBlank c := fun c hc =>
    List.all_eq_true.mp hblank c (List.mem_reverse.mp hc)
  rw [trimEnd, List.reverse_append, List.dropWhile_append_of_pos hblanks, ← trimEnd]

/-- A text without white space at its ends stays as it is. -/
theorem trim_eq_self {cs : List Char} (hfirst : ∀ c, cs.head? = some c → isBlank c = false)
    (hlast : ∀ c, cs.getLast? = some c → isBlank c = false) : trim cs = cs := by
  rw [trim, dropWhile_isBlank_eq_self hfirst, trimEnd_eq_self hlast]

end Text

/-- The last character of a quoted text is its closing mark. -/
theorem Token.getLast?_of_scanString {body acc text : List Char} {n : Nat}
    (h : scanString body acc n = some (text, n + body.length)) : body.getLast? = some '"' := by
  fun_induction scanString body acc n with
  | case1 => cases h
  | case2 cs acc n =>
    have hlength := (Prod.mk.inj (Option.some.inj h)).2
    rw [List.length_cons] at hlength
    rw [List.eq_nil_of_length_eq_zero (l := cs) (by omega)]
    rfl
  | case3 c cs acc n ih =>
    have hlast := ih (by rw [h, List.length_cons, List.length_cons]; congr 2; omega)
    rw [List.getLast?_cons_cons]
    cases cs with
    | nil => cases hlast
    | cons => rw [List.getLast?_cons_cons, hlast]
  | case4 c cs acc n _ _ ih =>
    have hlast := ih (by rw [h, List.length_cons]; congr 2; omega)
    cases cs with
    | nil => cases hlast
    | cons => rw [List.getLast?_cons_cons, hlast]

/-- No word ends with white space. -/
theorem Word.Before.not_isBlank_last {w : Word} {rest : List Char} (h : w.Before rest) {c : Char}
    (hc : w.text.getLast? = some c) : Text.isBlank c = false := by
  have hdigit : ∀ {cs : List Char}, (∀ c ∈ cs, c.isDigit) → c ∈ cs → Text.isBlank c = false :=
    fun hcs hc => Text.not_isBlank_of_continuesName (Text.continuesName_of_isDigit (hcs c hc))
  have hspells := h.spells
  -- by the kinds of words: each ends with a mark, a digit, a quotation mark, or a letter of a name
  generalize w.text = text at hspells hc
  generalize w.token = t at hspells
  cases hspells with
  | append => cases hc; decide
  | @mark c' m _ hm hrest =>
    cases hc
    unfold Mark.ofChar? at hm
    split at hm <;> first | decide | cases hm
  | string hbody =>
    have hlast := Token.getLast?_of_scanString hbody
    rw [List.getLast?_cons, hlast] at hc
    cases hc
    decide
  | whole _ hdigits => exact hdigit hdigits (List.mem_of_getLast? hc)
  | @decimal digits fraction _ _ hfraction _ hfractions _ =>
    refine hdigit hfractions ?_
    rw [List.getLast?_append, List.getLast?_cons] at hc
    cases hlast : fraction.getLast? with
    | none => exact absurd (List.getLast?_eq_none_iff.mp hlast) hfraction
    | some d =>
      rw [hlast] at hc
      cases hc
      exact List.mem_of_getLast? hlast
  | @word c' cs _ _ _ hstart hcs _ =>
    have hmem := List.mem_of_getLast? hc
    rcases List.mem_cons.mp hmem with rfl | hmem
    · exact Text.not_isBlank_of_continuesName (Text.continuesName_of_startsName hstart)
    · exact Text.not_isBlank_of_continuesName (hcs c hmem)

/-- Where no gap begins there is no white space. -/
theorem not_isBlank_of_not_opensGap {cs : List Char} (h : opensGap cs = false) {c : Char}
    (hc : cs.head? = some c) : Text.isBlank c = false := by
  obtain ⟨cs, rfl⟩ := List.head?_eq_some_iff.mp hc
  by_cases hslash : c = '/'
  · rw [hslash]
    decide
  · rwa [opensGap_of_ne_slash hslash] at h

/-- What words are written in does not end with white space. -/
theorem Cut.not_isBlank_last {ws : List Word} {last : List Char} (h : Cut ws last) {c : Char}
    (hc : (written ws).getLast? = some c) : Text.isBlank c = false := by
  induction ws with
  | nil => cases hc
  | cons w ws ih =>
    rw [written_cons, List.getLast?_append, List.getLast?_append] at hc
    cases hlast : (written ws).getLast? with
    | some d =>
      rw [hlast] at hc
      cases hc
      exact ih h.2 hlast
    | none =>
      rw [hlast] at hc
      cases htext : w.text.getLast? with
      | none => exact absurd (List.getLast?_eq_none_iff.mp htext) h.1.spells.ne_nil
      | some d =>
        rw [htext] at hc
        cases hc
        exact h.1.not_isBlank_last htext

/-- The text of words has no gap at its ends, but for that before the first word. -/
theorem Cut.trim_eq {w : Word} {ws : List Word} {last : List Char} (h : Cut (w :: ws) last) :
    Text.trim (w.text ++ written ws) = w.text ++ written ws := by
  have hregap : Cut ({ w with gap := [] } :: ws) last := h.regap .done
  refine Text.trim_eq_self (fun c hc => ?_) fun c hc => hregap.not_isBlank_last ?_
  · refine not_isBlank_of_not_opensGap h.1.starts ?_
    obtain ⟨d, ds, htext⟩ := List.exists_cons_of_ne_nil h.1.spells.ne_nil
    rw [htext] at hc ⊢
    exact hc
  · rwa [written_cons]

end Yini
