import Mathlib.Data.List.Nodup
import Mathlib.Data.List.Perm.Basic
import Yini.Proofs.Grammar.Reading
import Yini.Proofs.Grammar.RuleText

/-!
The order of the marks of a rule.

Each mark changes a part of the rule, and marks of different kinds change different parts, with one
exception: a default value also says what happens to a missing property, as `~` and `e` do.  So the rule
that marks make does not depend on their order (`whenMissing_rule_of_perm`), but for what happens to a
missing property, and there the last mark that says anything counts (`whenEmpty_rule`).

Whatever is accepted as a mark or as an expression is accepted in every order (`SaysMarks.reads`), so the
same holds of what is read (`rule_of_perm`).
-/

namespace Yini

/-! ## Marks and what they make -/

/-- A mark of a rule, by what it says. -/
inductive RuleMark where
  /-- The property has to be there: `!`. -/
  | required
  /-- The property may be missing: `?`. -/
  | optional
  /-- Nothing happens if the property is missing: `~`. -/
  | ignore
  /-- It is a fault if the property is missing: `e`. -/
  | refuse
  | typeName (name : String)
  /-- The value that a missing property gets: `=` and an expression. -/
  | fallback (v : Value)
  | lower (v : Value)
  | upper (v : Value)

namespace RuleMark

/-- Kinds of marks.  A rule has use for one mark of each. -/
inductive Kind where
  | requirement
  | missing
  | typeName
  | fallback
  | lower
  | upper
deriving DecidableEq

/-- The kind of a mark. -/
def kind : RuleMark → Kind
  | required => .requirement
  | optional => .requirement
  | ignore => .missing
  | refuse => .missing
  | typeName _ => .typeName
  | fallback _ => .fallback
  | lower _ => .lower
  | upper _ => .upper

/-- What a mark changes. -/
def change : RuleMark → Rule → Rule
  | required => Rule.require .required
  | optional => Rule.require .optional
  | ignore => Rule.whenMissing .ignore
  | refuse => Rule.whenMissing .refuse
  | typeName name => Rule.ofType name
  | fallback v => Rule.withFallback v
  | lower v => Rule.withLower v
  | upper v => Rule.withUpper v

/-- What a mark says about a missing property, if it says anything. -/
def whenMissing? : RuleMark → Option WhenEmpty
  | ignore => some .ignore
  | refuse => some .refuse
  | fallback _ => some .fill
  | _ => none

/-- The rule that marks make of the empty one, one after the other. -/
def rule (ms : List RuleMark) : Rule := ms.foldl (fun r m => m.change r) {}

variable {m m' : RuleMark} {ms ms' : List RuleMark}

/-- What happens to a missing property is what the mark says of it, if it says anything. -/
theorem whenEmpty_change (m : RuleMark) (r : Rule) :
    (m.change r).marks.whenEmpty = m.whenMissing?.getD r.marks.whenEmpty := by
  cases m <;> rfl

/-- **The last mark that says what happens to a missing property counts.**  Each mark either says it anew or
    leaves it as the ones before it have. -/
theorem whenEmpty_foldl (ms : List RuleMark) (r : Rule) :
    (ms.foldl (fun r m => m.change r) r).marks.whenEmpty =
      (ms.filterMap whenMissing?).getLast?.getD r.marks.whenEmpty := by
  induction ms generalizing r with
  | nil => rfl
  | cons m ms ih =>
    rw [List.foldl_cons, ih, whenEmpty_change]
    cases hm : m.whenMissing? with
    | none => rw [List.filterMap_cons_none hm]; rfl
    | some e =>
      rw [List.filterMap_cons_some hm, List.getLast?_cons]
      cases (ms.filterMap whenMissing?).getLast? <;> rfl

/-- **The last mark that says what happens to a missing property counts.** -/
theorem whenEmpty_rule (ms : List RuleMark) :
    (rule ms).marks.whenEmpty = (ms.filterMap whenMissing?).getLast?.getD .ignore :=
  whenEmpty_foldl ms {}

/-! ## Other orders -/

/-- What a mark changes beside what happens to a missing property. -/
def changeRest (r : Rule) (m : RuleMark) : Rule := Rule.whenMissing .ignore (m.change r)

/-- Marks of different kinds change different parts of the rest. -/
theorem changeRest_comm (h : m.kind ≠ m'.kind) (r : Rule) :
    changeRest (changeRest r m) m' = changeRest (changeRest r m') m := by
  cases m <;> cases m' <;> first | rfl | exact absurd rfl h

/-- Apart from missing properties a mark changes its own part of the rule. -/
theorem whenMissing_change (m : RuleMark) (r : Rule) :
    Rule.whenMissing .ignore (m.change r) = changeRest (Rule.whenMissing .ignore r) m := by
  cases m <;> rfl

/-- Apart from missing properties every mark changes its own part of the rule, one after the other. -/
theorem whenMissing_foldl (ms : List RuleMark) (r : Rule) :
    Rule.whenMissing .ignore (ms.foldl (fun r m => m.change r) r) =
      ms.foldl changeRest (Rule.whenMissing .ignore r) := by
  induction ms generalizing r with
  | nil => rfl
  | cons m ms ih => rw [List.foldl_cons, ih, whenMissing_change, List.foldl_cons]

/-- **Marks in another order** make the same rule, but for what happens to a missing property. -/
theorem whenMissing_rule_of_perm (hperm : ms.Perm ms') (hkinds : (ms.map kind).Nodup) :
    Rule.whenMissing .ignore (rule ms') = Rule.whenMissing .ignore (rule ms) := by
  have hcomm : ∀ m ∈ ms, ∀ m' ∈ ms, ∀ r,
      changeRest (changeRest r m) m' = changeRest (changeRest r m') m := by
    intro m hm m' hm' r
    by_cases hkind : m.kind = m'.kind
    · rw [List.inj_on_of_nodup_map hkinds hm hm' hkind]
    · exact changeRest_comm hkind r
  rw [rule, rule, whenMissing_foldl, whenMissing_foldl]
  exact (hperm.foldl_eq' hcomm _).symm

/-- Two rules that agree in everything else agree if they say the same about a missing property. -/
theorem eq_iff_whenEmpty {r r' : Rule} (h : Rule.whenMissing .ignore r' = Rule.whenMissing .ignore r) :
    r' = r ↔ r'.marks.whenEmpty = r.marks.whenEmpty := by
  refine ⟨fun heq => by rw [heq], fun hempty => ?_⟩
  have hback : ∀ r : Rule, r = Rule.whenMissing r.marks.whenEmpty (Rule.whenMissing .ignore r) := fun _ => rfl
  rw [hback r', h, hempty, ← hback]

/-- Only marks of two kinds say anything about a missing property. -/
theorem length_whenMissing_le (hkinds : (ms.map kind).Nodup) : (ms.filterMap whenMissing?).length ≤ 2 := by
  have hlength : (ms.filterMap whenMissing?).length = ((ms.filter (·.whenMissing?.isSome)).map kind).length := by
    rw [List.length_map, ← List.countP_eq_length_filter, List.length_filterMap_eq_countP]
  have hsub : ((ms.filter (·.whenMissing?.isSome)).map kind).Sublist (ms.map kind) :=
    List.filter_sublist.map kind
  have htwo : ((ms.filter (·.whenMissing?.isSome)).map kind) ⊆ [.missing, .fallback] := by
    intro k hk
    obtain ⟨m, hm, rfl⟩ := List.mem_map.mp hk
    have hsays := (List.mem_filter.mp hm).2
    cases m <;> first | exact List.mem_cons_self | exact List.mem_cons_of_mem _ List.mem_cons_self | cases hsays
  rw [hlength]
  exact (List.subperm_of_subset (hkinds.sublist hsub) htwo).length_le

/-- Two things are in the same order exactly if the same one is last. -/
theorem last_eq_iff {α : Type} {as bs : List α} (hperm : as.Perm bs) (hlength : as.length ≤ 2) (a : α) :
    bs.getLast?.getD a = as.getLast?.getD a ↔ bs = as := by
  refine ⟨fun hlast => ?_, fun h => by rw [h]⟩
  match as, bs, hperm.length_eq with
  | [], [], _ => rfl
  | [b], [c], _ => exact congrArg ([·]) hlast
  | [b, b'], [c, c'], _ =>
    obtain rfl : c' = b' := hlast
    have hfirst : [b].Perm [c] := (List.perm_append_right_iff [c']).mp hperm
    rw [List.singleton_perm_singleton.mp hfirst]
  | _ :: _ :: _ :: _, _, _ => exact absurd hlength (by simp)

/-- **Marks in another order make the same rule** exactly if those that say what happens to a missing
    property are in the same order. -/
theorem rule_eq_iff (hperm : ms.Perm ms') (hkinds : (ms.map kind).Nodup) :
    rule ms' = rule ms ↔ ms'.filterMap whenMissing? = ms.filterMap whenMissing? := by
  rw [eq_iff_whenEmpty (whenMissing_rule_of_perm hperm hkinds), whenEmpty_rule, whenEmpty_rule,
    last_eq_iff (hperm.filterMap whenMissing?) (length_whenMissing_le hkinds)]

end RuleMark

/-! ## Marks in words -/

namespace Grammar

open RuleMark

variable {k k' : Scene} {p p' : Parser} {w : Word} {ws ws' rest rest' : List Word} {v : Value}
  {m : RuleMark} {ms ms' : List RuleMark}

/-- **The words are accepted as an expression** of the value, at some place. -/
def AcceptedExpression (ws : List Word) (v : Value) : Prop :=
  ∃ k p rest u q, p.Faces k (ws ++ rest) ∧ expression p = .ok u q ∧ q.Faces k rest ∧ u.bare = v

/-- What is accepted as an expression is one wherever it stands. -/
theorem AcceptedExpression.isExpression (h : AcceptedExpression ws v) : IsExpression (some maxNesting) ws v := by
  obtain ⟨k, p, rest, u, q, hp, hu, hq, rfl⟩ := h
  obtain ⟨used, after, hused, hafter, hexpression, -⟩ := takes_expression hp hu
  obtain ⟨rfl, rfl⟩ := List.append_inj' hused (hq.left.symm.trans hafter.left)
  exact hexpression

/-- Words that are an expression are accepted as one where they stand alone. -/
theorem IsExpression.accepted {text : List Char} {n : Nat} (h : IsExpression (some n) ws v) (hn : n ≤ maxNesting)
    (hshown : Shown text ws) : AcceptedExpression ws v := by
  obtain ⟨p, -, hp⟩ := hshown.ofSource none
  rw [← List.append_nil ws] at hp
  obtain ⟨u, q, hrun, hu, hq⟩ := (h.gives _ ends_nil hp).exists_ok (Nat.not_lt_of_le hn)
  exact ⟨_, p, [], u, q, hp, hrun, hq, hu⟩

/-- **The words say a mark.** -/
inductive Says : List Word → RuleMark → Prop
  | required {w : Word} (hw : w.token = .mark .bang) : Says [w] .required
  | optional {w : Word} (hw : w.token = .mark .question) : Says [w] .optional
  | ignore {w : Word} (hw : w.token = .mark .tilde) : Says [w] .ignore
  | refuse {w : Word} (hw : w.token = .ident "e") : Says [w] .refuse
  | typeName {w : Word} {name : String} (hw : w.token = .ident name) (hname : name ≠ "e") :
      Says [w] (.typeName name)
  | elementType {w opening element close : Word} {name part : String} (hw : w.token = .ident name)
      (hname : name ≠ "e") (hopening : opening.token = .mark .openBracket) (hgap : opening.gap = [])
      (helement : element.token = .ident part) (hclose : close.token = .mark .closeBracket) :
      Says [w, opening, element, close] (.typeName (name ++ "[" ++ part ++ "]"))
  | fallback {w : Word} {ws : List Word} {v : Value} (hw : w.token = .mark .assign)
      (h : AcceptedExpression ws v) : Says (w :: ws) (.fallback v)
  | lower {w assign : Word} {ws : List Word} {v : Value} (hw : w.token = .ident "min")
      (hassign : assign.token = .mark .assign) (h : AcceptedExpression ws v) :
      Says (w :: assign :: ws) (.lower v)
  | upper {w assign : Word} {ws : List Word} {v : Value} (hw : w.token = .ident "max")
      (hassign : assign.token = .mark .assign) (h : AcceptedExpression ws v) :
      Says (w :: assign :: ws) (.upper v)

/-- **The words say marks** with commas between them. -/
inductive SaysMarks : List Word → List RuleMark → Prop
  | last {ws : List Word} {m : RuleMark} (h : Says ws m) : SaysMarks ws [m]
  | cons {ws ws' : List Word} {w : Word} {m : RuleMark} {ms : List RuleMark} (h : Says ws m)
      (hcomma : w.token = .mark .comma) (hrest : SaysMarks ws' ms) : SaysMarks (ws ++ w :: ws') (m :: ms)

/-- The levels that were enough for a value are enough again. -/
theorem MarkWithin.never {change : Rule → Rule}
    (h : MarkWithin (Depth.Exceeds (some maxNesting) maxNesting) ws change) : MarkWithin False ws change :=
  fun r hends hp => (h r hends hp).mono (Nat.lt_irrefl maxNesting)

/-- A mark is read as such. -/
theorem Says.within (h : Says ws m) : MarkWithin False ws m.change := by
  cases h with
  | required hw => exact markWithin_required hw
  | optional hw => exact markWithin_optional hw
  | ignore hw => exact markWithin_ignore hw
  | refuse hw => exact markWithin_refuse hw
  | typeName hw hname => exact markWithin_type hw hname
  | elementType hw hname hopening hgap helement hclose =>
    exact markWithin_elementType hw hname hopening hgap helement hclose
  | fallback hw h => exact MarkWithin.never (markWithin_fallback hw h.isExpression)
  | lower hw hassign h => exact MarkWithin.never (markWithin_lower hw hassign h.isExpression)
  | upper hw hassign h => exact MarkWithin.never (markWithin_upper hw hassign h.isExpression)

/-- What the words say as marks, they say within the grammar of rules. -/
theorem SaysMarks.within (h : SaysMarks ws ms) : MarksWithin False ws (ms.map RuleMark.change) := by
  induction h with
  | last h => exact .last h.within
  | cons h hcomma _ ih => exact .cons h.within hcomma ih

/-- **Marks are read as the rule that they make.** -/
theorem SaysMarks.reads (h : SaysMarks ws ms) (hends : EndsEntry rest) (hp : p.Faces k (ws ++ rest)) :
    ∃ v q, Grammar.rule p = .ok v q ∧ v.bare = (RuleMark.rule ms).toValue .none ∧ q.Faces k rest := by
  obtain ⟨v, q, hrun, hv, hq⟩ := (h.within.rule hends hp).exists_ok id
  rw [List.foldl_map] at hv
  exact ⟨v, q, hrun, hv, hq⟩

/-- **Marks may come in any order**, if at most one of each kind is there: in every order they are read as
    a rule, and these rules agree in everything but what happens to a missing property.  They agree in
    that as well exactly if the marks that say so, a default value among them, are in the same order. -/
theorem rule_of_perm (hperm : ms.Perm ms') (hkinds : (ms.map RuleMark.kind).Nodup) (h : SaysMarks ws ms)
    (h' : SaysMarks ws' ms') (hends : EndsEntry rest) (hends' : EndsEntry rest') (hp : p.Faces k (ws ++ rest))
    (hp' : p'.Faces k' (ws' ++ rest')) : ∃ (r r' : Rule) (v v' : Value) (q q' : Parser),
      Grammar.rule p = .ok v q ∧ q.Faces k rest ∧ v.bare = r.toValue .none ∧
      Grammar.rule p' = .ok v' q' ∧ q'.Faces k' rest' ∧ v'.bare = r'.toValue .none ∧
      r'.whenMissing .ignore = r.whenMissing .ignore ∧
      (v'.bare = v.bare ↔ ms'.filterMap whenMissing? = ms.filterMap whenMissing?) := by
  obtain ⟨v, q, hrun, hv, hq⟩ := h.reads hends hp
  obtain ⟨v', q', hrun', hv', hq'⟩ := h'.reads hends' hp'
  refine ⟨_, _, v, v', q, q', hrun, hq, hv, hrun', hq', hv', whenMissing_rule_of_perm hperm hkinds, ?_⟩
  rw [hv, hv', ← rule_eq_iff hperm hkinds]
  refine ⟨fun heq => ?_, fun heq => by rw [heq]⟩
  obtain ⟨hmarks, hfallback, hlower, hupper, -⟩ := Value.rule.inj heq
  cases hr : RuleMark.rule ms
  cases hr' : RuleMark.rule ms'
  rw [hr, hr'] at hmarks hfallback hlower hupper
  cases hmarks; cases hfallback; cases hlower; cases hupper
  rfl

/-- The words of `=5`. -/
def fiveWords : List Word := [Mark.assign.word, ⟨[], .number (String.ofList ['5']), ['5']⟩]

theorem shown_five : Shown ['=', '5'] fiveWords :=
  (shown_digits (List.cons_ne_nil _ _) (List.forall_mem_singleton.mpr rfl)).behind_mark (m := .assign) (by decide)

theorem says_five : Says fiveWords (.fallback (.atom (.int 5) .none)) :=
  .fallback rfl ((isFactor_number (d := some 0) rfl rfl).isExpression.accepted (by decide)
    (shown_digits (List.cons_ne_nil _ _) (List.forall_mem_singleton.mpr rfl)))

/-- Three marks in two orders, with `~` behind the default value in both. -/
theorem rule_of_perm_rotated : ∃ (p p' q q' : Parser) (v v' : Value),
    Parser.ofSource none "=5,~,!" = .ok p ∧ Grammar.rule p = .ok v q ∧
    Parser.ofSource none "!,=5,~" = .ok p' ∧ Grammar.rule p' = .ok v' q' ∧ v'.bare = v.bare := by
  have hquiet : ∀ cs : List Char, Quiet (',' :: cs) := quiet_cons (by decide) (by decide)
  have hsays : SaysMarks _ _ := .cons says_five (w := Mark.comma.word) rfl
    (.cons (.ignore (w := Mark.tilde.word) rfl) (w := Mark.comma.word) rfl
      (.last (.required (w := Mark.bang.word) rfl)))
  have hshown := shown_five.append ((((Shown.mark .bang).behind_mark (m := .comma) (by decide)).behind_mark
    (m := .tilde) (by decide)).behind_mark (m := .comma) (by decide)) (hquiet _)
  have hsays' : SaysMarks _ _ := .cons (.required (w := Mark.bang.word) rfl) (w := Mark.comma.word) rfl
    (.cons says_five (w := Mark.comma.word) rfl (.last (.ignore (w := Mark.tilde.word) rfl)))
  have hshown' := ((shown_five.append ((Shown.mark .tilde).behind_mark (m := .comma) (by decide))
    (hquiet _)).behind_mark (m := .comma) (by decide)).behind_mark (m := .bang) (by decide)
  obtain ⟨p, hp, hfaces⟩ := hshown.ofSource none
  obtain ⟨p', hp', hfaces'⟩ := hshown'.ofSource none
  have hperm : List.Perm ([.fallback (.atom (.int 5) .none), .ignore] ++ [RuleMark.required])
      ([.required] ++ [.fallback (.atom (.int 5) .none), .ignore]) := List.perm_append_comm
  obtain ⟨-, -, v, v', q, q', hrun, -, -, hrun', -, -, -, hsame⟩ := rule_of_perm hperm (by decide)
    hsays hsays' .finish .finish (by simpa using hfaces) (by simpa using hfaces')
  exact ⟨p, p', q, q', v, v', hp, hrun, hp', hrun', hsame.mpr rfl⟩

/-- **A default value behind `~` is not the same as one before it**: the one fills in a missing property,
    the other does not. -/
theorem rule_of_swapped : ∃ (ms ms' : List RuleMark) (ws ws' : List Word) (p p' q q' : Parser) (v v' : Value),
    ms.Perm ms' ∧ (ms.map RuleMark.kind).Nodup ∧ SaysMarks ws ms ∧ SaysMarks ws' ms' ∧
    Shown "~,=5".toList ws ∧ Parser.ofSource none "~,=5" = .ok p ∧ Grammar.rule p = .ok v q ∧
    Shown "=5,~".toList ws' ∧ Parser.ofSource none "=5,~" = .ok p' ∧ Grammar.rule p' = .ok v' q' ∧
    v'.bare ≠ v.bare := by
  have hsays : SaysMarks _ _ := .cons (.ignore (w := Mark.tilde.word) rfl) (w := Mark.comma.word) rfl
    (.last says_five)
  have hsays' : SaysMarks _ _ := .cons says_five (w := Mark.comma.word) rfl
    (.last (.ignore (w := Mark.tilde.word) rfl))
  have hshown := (shown_five.behind_mark (m := .comma) (by decide)).behind_mark (m := .tilde) (by decide)
  have hshown' := shown_five.append ((Shown.mark .tilde).behind_mark (m := .comma) (by decide))
    (quiet_cons (by decide) (by decide) _)
  obtain ⟨p, hp, hfaces⟩ := hshown.ofSource none
  obtain ⟨p', hp', hfaces'⟩ := hshown'.ofSource none
  obtain ⟨v, q, hrun, hv, -⟩ := hsays.reads .finish (by simpa using hfaces)
  obtain ⟨v', q', hrun', hv', -⟩ := hsays'.reads .finish (by simpa using hfaces')
  refine ⟨_, _, _, _, p, p', q, q', v, v', List.Perm.swap _ _ [], by decide, hsays, hsays', hshown, hp, hrun,
    hshown', hp', hrun', ?_⟩
  rw [hv, hv']
  exact fun heq => absurd (Value.rule.inj heq).1 (by decide)

end Grammar

end Yini
