import Yini.Grammar.Rule
import Yini.Proofs.Grammar.Printing

/-!
The text of a rule is read as that rule (`entryText_rule`).

The marks of a rule are read one after the other, and each changes the rule in its way (`IsMark`).  So
the text of a rule is a list of marks with commas between them, and what it stands for is what these
marks make of the empty rule one after the other (`Marks`).
-/

namespace Yini

/-- The rule with its values without places. -/
def Rule.bare (r : Rule) : Rule where
  marks := r.marks
  fallback := Value.bareOption r.fallback
  lower := Value.bareOption r.lower
  upper := Value.bareOption r.upper

/-- The rule that the text of a rule stands for. -/
def Rule.spelled (r : Rule) : Rule where
  marks := r.marks
  fallback := Value.spelledOption r.fallback
  lower := Value.spelledOption r.lower
  upper := Value.spelledOption r.upper

/-! ## What marks change -/

namespace Rule

/-- The rule with another requirement. -/
def require (q : Requirement) (r : Rule) : Rule := { r with marks := { r.marks with requirement := q } }

/-- The rule with another type. -/
def ofType (t : String) (r : Rule) : Rule := { r with marks := { r.marks with typeName := some t } }

/-- The rule with something else to do about a missing property. -/
def whenMissing (e : WhenEmpty) (r : Rule) : Rule := { r with marks := { r.marks with whenEmpty := e } }

/-- The rule with another default value. -/
def withFallback (v : Value) (r : Rule) : Rule := whenMissing .fill { r with fallback := some v }

/-- The rule with another lower bound. -/
def withLower (v : Value) (r : Rule) : Rule := { r with lower := some v }

/-- The rule with another upper bound. -/
def withUpper (v : Value) (r : Rule) : Rule := { r with upper := some v }

/-- What the marks of a rule change, in the order in which they are written. -/
def changes (r : Rule) : List (Rule → Rule) :=
  [require r.marks.requirement] ++
  (r.marks.typeName.map ofType).toList ++
  (r.fallback.map withFallback).toList ++
  (match r.marks.whenEmpty with
    | .ignore => if r.fallback.isSome then [whenMissing .ignore] else []
    | .refuse => [whenMissing .refuse]
    | .fill => []) ++
  (r.lower.map withLower).toList ++
  (r.upper.map withUpper).toList

/-- **The marks of a rule make that rule** of the empty one. -/
theorem foldl_changes (r : Rule) (hfill : r.marks.whenEmpty = .fill → r.fallback.isSome) :
    r.changes.foldl (fun r f => f r) {} = r := by
  obtain ⟨⟨requirement, typeName, whenEmpty⟩, fallback, lower, upper⟩ := r
  cases requirement <;> cases typeName <;> cases whenEmpty <;> cases fallback <;> cases lower <;>
    cases upper <;> first | rfl | cases hfill rfl

end Rule

namespace Grammar

variable {k : Scene} {p q : Parser} {w : Word} {ws rest : List Word} {v : Value} {deep : Prop} {d : Depth}

/-! ## What may follow -/

/-- The words begin another entry or another section, behind a gap, or there are none. -/
inductive EndsEntry : List Word → Prop
  | finish : EndsEntry []
  | next {w : Word} {ws : List Word} (hgap : w.gap ≠ [])
      (hw : (∃ name, w.token = .ident name) ∨ w.token = .mark .append ∨ w.token = .mark .openBracket) :
      EndsEntry (w :: ws)

/-- The words do not continue a mark of a rule. -/
def EndsMark (rest : List Word) : Prop := front rest = .mark .comma ∨ EndsEntry rest

theorem EndsEntry.endsExpression (h : EndsEntry rest) : EndsExpression rest := by
  cases h with
  | finish => exact ⟨⟨⟨nofun, nofun, nofun⟩, rfl⟩, rfl⟩
  | @next w ws hgap hw =>
    rcases hw with ⟨name, hw⟩ | hw | hw
    · refine ⟨⟨⟨?_, ?_, ?_⟩, ?_⟩, ?_⟩
      · rw [front_cons, hw]; nofun
      · rw [front_cons, hw]; nofun
      · intro w' ws' heq _
        cases heq
        exact hgap
      · rw [front_cons, hw]; rfl
      · rw [front_cons, hw]; rfl
    · exact ends_of_mark hw (by decide)
    · exact ends_of_mark hw (by decide)

/-- What ends an entry is no other mark than a bracket or `+=`. -/
theorem EndsEntry.ne_mark (h : EndsEntry rest) {m : Mark} (hm : m ∉ [.append, .openBracket]) :
    front rest ≠ .mark m := by
  intro heq
  cases h with
  | finish => cases heq
  | next hgap hw =>
    rw [front_cons] at heq
    rcases hw with ⟨name, hw⟩ | hw | hw <;> rw [hw] at heq <;> cases heq <;> exact hm (by decide)

theorem EndsMark.endsExpression (h : EndsMark rest) : EndsExpression rest := by
  rcases h with h | h
  · obtain ⟨w, ws, rfl, hw⟩ := cons_of_front h Token.noConfusion
    exact ends_of_comma hw
  · exact h.endsExpression

theorem EndsMark.ne_assign (h : EndsMark rest) : front rest ≠ .mark .assign := by
  rcases h with h | h
  · rw [h]; nofun
  · exact h.ne_mark (by decide)

/-- A bracket does not stand right behind a type name, unless it belongs to it. -/
theorem EndsMark.not_element (h : EndsMark rest) (hp : p.Faces k rest) :
    (decide (front rest = .mark .openBracket) && p.isAdjacent) = false := by
  rcases h with h | h
  · rw [h]; rfl
  · cases h with
    | finish => rfl
    | next hgap =>
      rw [hp.isAdjacent, List.isEmpty_eq_false_iff.mpr hgap, Bool.and_false]

/-! ## Marks -/

/-- **The words are a mark** that changes a rule so, unless a value in it may be too `deep`. -/
def MarkWithin (deep : Prop) (ws : List Word) (change : Rule → Rule) : Prop :=
  ∀ {k p gap rest} (r : Rule), EndsMark rest → p.Faces k (regap gap ws ++ rest) →
    Gives deep (fun r' q => r'.bare = change r.bare ∧ q.Faces k rest) (ruleMark r p)

/-- **The words are a mark** that changes a rule so. -/
def IsMark (ws : List Word) (change : Rule → Rule) : Prop :=
  ∀ {k p gap rest} (r : Rule), EndsMark rest → p.Faces k (regap gap ws ++ rest) →
    Gives True (fun r' q => r'.bare = change r.bare ∧ q.Faces k rest) (ruleMark r p)

theorem markWithin_required (hw : w.token = .mark .bang) :
    MarkWithin deep [w] (Rule.require .required) := by
  intro k p gap rest r _ hp
  have hp : p.Faces k ({ w with gap } :: rest) := hp
  rw [ruleMark, peek_bind hp, front_cons, hw]
  exact ⟨rfl, hp.advance⟩

theorem markWithin_optional (hw : w.token = .mark .question) :
    MarkWithin deep [w] (Rule.require .optional) := by
  intro k p gap rest r _ hp
  have hp : p.Faces k ({ w with gap } :: rest) := hp
  rw [ruleMark, peek_bind hp, front_cons, hw]
  exact ⟨rfl, hp.advance⟩

theorem markWithin_ignore (hw : w.token = .mark .tilde) :
    MarkWithin deep [w] (Rule.whenMissing .ignore) := by
  intro k p gap rest r _ hp
  have hp : p.Faces k ({ w with gap } :: rest) := hp
  rw [ruleMark, peek_bind hp, front_cons, hw]
  exact ⟨rfl, hp.advance⟩

theorem markWithin_refuse (hw : w.token = .ident "e") :
    MarkWithin deep [w] (Rule.whenMissing .refuse) := by
  intro k p gap rest r _ hp
  have hp : p.Faces k ({ w with gap } :: rest) := hp
  rw [ruleMark, peek_bind hp, front_cons, hw]
  exact ⟨rfl, hp.advance⟩

/-- An expression behind `=` is the default value. -/
theorem markWithin_fallback (hw : w.token = .mark .assign) (h : IsExpression d ws v) :
    MarkWithin (d.Exceeds maxNesting) (w :: ws) (Rule.withFallback v) := by
  intro k p gap rest r hends hp
  have hp : p.Faces k ({ w with gap } :: (ws ++ rest)) := hp
  rw [ruleMark, peek_bind hp, front_cons, hw]
  refine (h.gives _ hends.endsExpression hp.advance).bind ?_
  rintro u q ⟨hu, hq⟩
  exact ⟨by rw [Rule.bare, Value.bareOption, hu]; rfl, hq⟩

/-- A word that is neither the mark `e` nor the name of a bound begins the name of a type. -/
theorem ruleMark_word {name : String} {gap : List Char} (hw : w.token = .ident name)
    (hp : p.Faces k ({ w with gap } :: ws)) (r : Rule) :
    ruleMark r p = (if name = "e" then
        return { r with marks := { r.marks with whenEmpty := .refuse } }
      else if name = "min" ∧ front ws = .mark .assign then do
        bump
        let v ← expression
        return { r with lower := some v }
      else if name = "max" ∧ front ws = .mark .assign then do
        bump
        let v ← expression
        return { r with upper := some v }
      else do
        let typeName ← elementType name
        return { r with marks := { r.marks with typeName := some typeName } } : Grammar Rule) p.advance := by
  rw [ruleMark, peek_bind hp, front_cons, hw]
  show ((get : Grammar Parser) >>= _) p = _
  rw [get_bind, bump_bind, hp.second, List.tail_cons]

/-- An expression behind `min` is the lower bound. -/
theorem markWithin_lower {assign : Word} (hw : w.token = .ident "min") (hassign : assign.token = .mark .assign)
    (h : IsExpression d ws v) : MarkWithin (d.Exceeds maxNesting) (w :: assign :: ws) (Rule.withLower v) := by
  intro k p gap rest r hends hp
  have hp : p.Faces k ({ w with gap } :: assign :: (ws ++ rest)) := hp
  rw [ruleMark_word hw hp, if_neg (by decide), if_pos ⟨rfl, hassign⟩]
  refine (h.gives _ hends.endsExpression hp.advance.advance).bind ?_
  rintro u q ⟨hu, hq⟩
  exact ⟨by rw [Rule.bare, Value.bareOption, hu]; rfl, hq⟩

/-- An expression behind `max` is the upper bound. -/
theorem markWithin_upper {assign : Word} (hw : w.token = .ident "max") (hassign : assign.token = .mark .assign)
    (h : IsExpression d ws v) : MarkWithin (d.Exceeds maxNesting) (w :: assign :: ws) (Rule.withUpper v) := by
  intro k p gap rest r hends hp
  have hp : p.Faces k ({ w with gap } :: assign :: (ws ++ rest)) := hp
  rw [ruleMark_word hw hp, if_neg (by decide), if_neg (by simp), if_pos ⟨rfl, hassign⟩]
  refine (h.gives _ hends.endsExpression hp.advance.advance).bind ?_
  rintro u q ⟨hu, hq⟩
  exact ⟨by rw [Rule.bare, Value.bareOption, hu]; rfl, hq⟩

theorem markWithin_type {name : String} (hw : w.token = .ident name) (hname : name ≠ "e") :
    MarkWithin deep [w] (Rule.ofType name) := by
  intro k p gap rest r hends hp
  have hp : p.Faces k ({ w with gap } :: rest) := hp
  rw [ruleMark_word hw hp, if_neg hname, if_neg fun h => hends.ne_assign h.2,
    if_neg fun h => hends.ne_assign h.2, elementType, bind_assoc, sees_bind hp.advance, bind_assoc, get_bind,
    hends.not_element hp.advance]
  exact ⟨rfl, hp.advance⟩

/-- A name in brackets behind another one is the type of the elements. -/
theorem markWithin_elementType {opening element close : Word} {name part : String} (hw : w.token = .ident name)
    (hname : name ≠ "e") (hopening : opening.token = .mark .openBracket) (hgap : opening.gap = [])
    (helement : element.token = .ident part) (hclose : close.token = .mark .closeBracket) :
    MarkWithin deep [w, opening, element, close] (Rule.ofType (name ++ "[" ++ part ++ "]")) := by
  intro k p gap rest r _ hp
  have hp : p.Faces k ({ w with gap } :: opening :: element :: close :: rest) := hp
  have hassign : ∀ s : String, ¬(name = s ∧ front (opening :: element :: close :: rest) = .mark .assign) :=
    fun s h => by rw [front_cons, hopening] at h; cases h.2
  rw [ruleMark_word hw hp, if_neg hname, if_neg (hassign _), if_neg (hassign _), elementType, bind_assoc,
    sees_bind hp.advance, bind_assoc, get_bind, hp.advance.isAdjacent, front_cons, hopening, hgap,
    if_pos (by simp), bind_assoc, bump_bind, bind_assoc,
    expectName_bind hp.advance.advance (by rw [front_cons, helement])]
  dsimp only
  rw [bind_assoc, expect_bind hp.advance.advance.advance, front_cons, if_pos hclose]
  exact ⟨rfl, hp.advance.advance.advance.advance⟩

/-! ## Marks with commas between them -/

theorem IsMark.regap {change : Rule → Rule} (h : IsMark ws change) (gap : List Char) :
    IsMark (regap gap ws) change := by
  intro k p gap' rest r hends hp
  rw [regap_regap] at hp
  exact h r hends hp

/-- A mark is read at its own place. -/
theorem MarkWithin.gives {change : Rule → Rule} (h : MarkWithin deep ws change) (hends : EndsMark rest)
    (hp : p.Faces k (ws ++ rest)) (r : Rule) :
    Gives deep (fun r' q => r'.bare = change r.bare ∧ q.Faces k rest) (ruleMark r p) := by
  obtain ⟨gap, hgap⟩ := exists_regap ws
  have hp' : p.Faces k (Yini.regap gap ws ++ rest) := by rwa [hgap]
  exact h r hends hp'

/-- Marks with commas between them, and what they change; values in them may be too `deep`. -/
inductive MarksWithin (deep : Prop) : List Word → List (Rule → Rule) → Prop
  | last {ws : List Word} {change : Rule → Rule} (h : MarkWithin deep ws change) : MarksWithin deep ws [change]
  | cons {ws ws' : List Word} {w : Word} {change : Rule → Rule} {changes : List (Rule → Rule)}
      (h : MarkWithin deep ws change) (hcomma : w.token = .mark .comma)
      (hrest : MarksWithin deep ws' changes) : MarksWithin deep (ws ++ w :: ws') (change :: changes)

/-- Marks are read one after the other. -/
theorem MarksWithin.gives {changes : List (Rule → Rule)} (h : MarksWithin deep ws changes)
    (hends : EndsEntry rest) {bound : Nat} (hbound : ws.length < bound) (hp : p.Faces k (ws ++ rest))
    (r : Rule) :
    Gives deep (fun r' q => r'.bare = changes.foldl (fun r f => f r) r.bare ∧ q.Faces k rest)
      (ruleMarks bound r p) := by
  induction h generalizing bound p r with
  | last h =>
    obtain ⟨bound, rfl⟩ := Nat.exists_eq_succ_of_ne_zero (Nat.ne_zero_of_lt hbound)
    refine (h.gives (.inr hends) hp r).bind ?_
    rintro r' q ⟨hr', hq⟩
    rw [eat_bind hq, if_neg (hends.ne_mark (by decide))]
    exact ⟨hr', hq⟩
  | @cons ws ws' w change changes h hcomma _ ih =>
    obtain ⟨bound, rfl⟩ := Nat.exists_eq_succ_of_ne_zero (Nat.ne_zero_of_lt hbound)
    rw [List.append_assoc, List.cons_append] at hp
    -- a comma ends a mark as the end of the entry does
    have hends : EndsMark (w :: (ws' ++ rest)) := .inl hcomma
    refine (h.gives hends hp r).bind ?_
    rintro r' q ⟨hr', hq⟩
    rw [eat_bind hq, front_cons, if_pos hcomma]
    have hbound' : ws'.length < bound := by
      simp only [List.length_append, List.length_cons] at hbound
      omega
    rw [List.foldl_cons, ← hr']
    exact ih hbound' hq.advance r'

/-- Marks are a rule. -/
theorem MarksWithin.rule {changes : List (Rule → Rule)} (h : MarksWithin deep ws changes)
    (hends : EndsEntry rest) (hp : p.Faces k (ws ++ rest)) :
    Gives deep (fun v q => v.bare = (changes.foldl (fun r f => f r) ({} : Rule)).toValue .none ∧
      q.Faces k rest) (rule p) := by
  have hbound : ws.length < (ws ++ rest).length + 1 := by
    rw [List.length_append]
    omega
  rw [Grammar.rule, here_bind, remaining_bind hp]
  refine (h.gives hends hbound hp {}).bind ?_
  rintro r q ⟨hr, hq⟩
  refine ⟨?_, hq⟩
  have hempty : Rule.bare {} = {} := rfl
  rw [hempty] at hr
  rw [← hr]
  rfl

/-- Marks with commas between them, and what they change. -/
inductive Marks : List Word → List (Rule → Rule) → Prop
  | last {ws : List Word} {change : Rule → Rule} (h : IsMark ws change) : Marks ws [change]
  | cons {ws ws' : List Word} {w : Word} {change : Rule → Rule} {changes : List (Rule → Rule)}
      (hne : ws ≠ []) (h : IsMark ws change) (hcomma : w.token = .mark .comma)
      (hrest : Marks ws' changes) : Marks (ws ++ w :: ws') (change :: changes)

theorem Marks.regap {changes : List (Rule → Rule)} (h : Marks ws changes) (gap : List Char) :
    Marks (regap gap ws) changes := by
  cases h with
  | last h => exact .last (h.regap gap)
  | @cons ws ws' w change changes hne h hcomma hrest =>
    rw [regap_append hne]
    refine .cons ?_ (h.regap gap) hcomma hrest
    obtain ⟨w', ws, rfl⟩ := List.exists_cons_of_ne_nil hne
    exact List.cons_ne_nil _ _

/-- Marks between commas are read as marks of a rule, whatever is known of their nesting. -/
theorem Marks.within {changes : List (Rule → Rule)} (h : Marks ws changes) : MarksWithin True ws changes := by
  induction h with
  | last h => exact .last h
  | cons _ h hcomma _ ih => exact .cons h hcomma ih

/-- **Marks are read as the rule that they make of the empty one.** -/
theorem Marks.yields {changes : List (Rule → Rule)} (h : Marks ws changes) :
    Yields True rule EndsEntry ws ((changes.foldl (fun r f => f r) ({} : Rule)).toValue .none) :=
  fun hends hp => (h.regap _).within.rule hends hp

/-! ## Texts of rules -/

/-- The text of a mark, with what the mark changes. -/
def MarkText (text : List Char) (change : Rule → Rule) : Prop :=
  ∃ ws, ws ≠ [] ∧ Shown text ws ∧ IsMark ws change

/-- Texts of marks with commas between them are shown by words that are read as these marks. -/
theorem shown_marks {texts : List (List Char)} {changes : List (Rule → Rule)}
    (h : List.Forall₂ MarkText texts changes) (hne : changes ≠ []) :
    ∃ ws, ws ≠ [] ∧ Shown ([',', ' '].intercalate texts) ws ∧ Marks ws changes := by
  induction h with
  | nil => exact absurd rfl hne
  | @cons text change texts changes h hrest ih =>
    obtain ⟨ws, hws, hshown, hmark⟩ := h
    cases hrest with
    | nil =>
      rw [List.intercalate_singleton]
      exact ⟨ws, hws, hshown, .last hmark⟩
    | cons =>
      obtain ⟨ws', hws', hshown', hmarks⟩ := ih (List.cons_ne_nil _ _)
      obtain ⟨gap, hgap⟩ := exists_regap_of_indent [' '] ws'
      have hmore := hshown'.indent [' '] hws' (by decide)
      rw [hgap] at hmore
      refine ⟨ws ++ Mark.comma.word :: regap gap ws', by simp, ?_, .cons hws hmark rfl (hmarks.regap gap)⟩
      rw [List.intercalate_cons_of_ne_nil (List.cons_ne_nil _ _), List.append_assoc]
      exact hshown.append (hmore.behind_mark (m := .comma) (by decide)) (quiet_cons (by decide) (by decide) _)

theorem markText_type {t : String} (h : IsTypeName t) : MarkText t.toList (Rule.ofType t) := by
  obtain ⟨name, hname, hword, rfl | ⟨element, helement, rfl⟩⟩ := h
  · exact ⟨_, List.cons_ne_nil _ _, hname.shown, markWithin_type rfl hword⟩
  · have hclosed := (helement.shown.before_mark (m := .closeBracket) (by decide)).behind_mark
      (m := .openBracket) (by decide)
    have hshown := hname.shown.append hclosed (quiet_cons (by decide) (by decide) _)
    refine ⟨[nameWord name, Mark.openBracket.word, nameWord element, Mark.closeBracket.word],
      List.cons_ne_nil _ _, ?_, markWithin_elementType rfl hword rfl rfl rfl rfl⟩
    simpa [String.toList_append, Mark.text] using hshown

theorem markText_fallback (h : ExpressionText v.text.toList v.spelled) :
    MarkText ("=" ++ v.text).toList (Rule.withFallback v.spelled) := by
  obtain ⟨ws, hshown, hexpression⟩ := h
  refine ⟨Mark.assign.word :: ws, List.cons_ne_nil _ _, ?_, markWithin_fallback rfl hexpression⟩
  rw [String.toList_append]
  exact hshown.behind_mark (m := .assign) (by decide)

/-- The words of a bound: its name and an expression behind `=`. -/
theorem shown_bound {name : String} (hname : IsName name) {text : List Char} (h : Shown text ws) :
    Shown (name.toList ++ '=' :: text) (nameWord name :: Mark.assign.word :: ws) := by
  have hassign := h.behind_mark (m := .assign) (by decide)
  refine ⟨?_, fun hlast => ⟨hname.before ?_, hassign.cut hlast⟩⟩
  · rw [written_cons, hassign.written]
    rfl
  · rintro c ⟨⟩
    decide

theorem markText_lower (h : ExpressionText v.text.toList v.spelled) :
    MarkText ("min=" ++ v.text).toList (Rule.withLower v.spelled) := by
  obtain ⟨ws, hshown, hexpression⟩ := h
  have hname : IsName "min" := isName_ofList 'm' ['i', 'n'] rfl rfl (by decide) (by decide) rfl
  refine ⟨nameWord "min" :: Mark.assign.word :: ws, List.cons_ne_nil _ _, ?_,
    markWithin_lower rfl rfl hexpression⟩
  rw [String.toList_append]
  exact shown_bound hname hshown

theorem markText_upper (h : ExpressionText v.text.toList v.spelled) :
    MarkText ("max=" ++ v.text).toList (Rule.withUpper v.spelled) := by
  obtain ⟨ws, hshown, hexpression⟩ := h
  have hname : IsName "max" := isName_ofList 'm' ['a', 'x'] rfl rfl (by decide) (by decide) rfl
  refine ⟨nameWord "max" :: Mark.assign.word :: ws, List.cons_ne_nil _ _, ?_,
    markWithin_upper rfl rfl hexpression⟩
  rw [String.toList_append]
  exact shown_bound hname hshown

theorem markText_refuse : MarkText "e".toList (Rule.whenMissing .refuse) := by
  have hname : IsName "e" := isName_ofList 'e' [] rfl rfl (by decide) (by decide) rfl
  exact ⟨_, List.cons_ne_nil _ _, hname.shown, markWithin_refuse rfl⟩

theorem forall₂_requirement (q : Requirement) : List.Forall₂ MarkText ([match q with
    | .required => "!"
    | .optional => "?"].map String.toList) [Rule.require q] := by
  refine .cons ?_ .nil
  cases q with
  | required => exact ⟨_, List.cons_ne_nil _ _, Shown.mark .bang, markWithin_required rfl⟩
  | optional => exact ⟨_, List.cons_ne_nil _ _, Shown.mark .question, markWithin_optional rfl⟩

/-- What happens to a missing property is written as a mark, if it has to be. -/
theorem forall₂_whenEmpty (e : WhenEmpty) (fallback : Option Value) :
    List.Forall₂ MarkText ((match e with
      | .ignore => if (Value.optionText fallback).isSome then ["~"] else []
      | .refuse => ["e"]
      | .fill => []).map String.toList) (match e with
      | .ignore => if (Value.spelledOption fallback).isSome then [Rule.whenMissing .ignore] else []
      | .refuse => [Rule.whenMissing .refuse]
      | .fill => []) := by
  cases e with
  | ignore =>
    cases fallback with
    | none => exact .nil
    | some v => exact .cons ⟨_, List.cons_ne_nil _ _, Shown.mark .tilde, markWithin_ignore rfl⟩ .nil
  | refuse => exact .cons markText_refuse .nil
  | fill => exact .nil

/-- The text of a value behind a sign, if there is a value. -/
theorem forall₂_option {o : Option Value} {sign : String} {change : Value → Rule → Rule}
    (hlegible : ∀ v ∈ o, v.Legible false) (hfinite : ∀ v ∈ o, v.isFinite)
    (hmark : ∀ v : Value, ExpressionText v.text.toList v.spelled →
      MarkText (sign ++ v.text).toList (change v.spelled)) :
    List.Forall₂ MarkText ((((Value.optionText o).map (sign ++ ·)).toList).map String.toList)
      ((Value.spelledOption o).map change).toList := by
  cases o with
  | none => exact .nil
  | some v => exact .cons (hmark v (expressionText_text (hlegible v rfl) (hfinite v rfl))) .nil

/-- The texts of the marks of a rule, with what they change. -/
theorem forall₂_markTexts {r : Rule} (h : r.Legible false) (hfallback : ∀ v ∈ r.fallback, v.isFinite)
    (hlower : ∀ v ∈ r.lower, v.isFinite) (hupper : ∀ v ∈ r.upper, v.isFinite) :
    List.Forall₂ MarkText ((r.marks.texts (Value.optionText r.fallback) (Value.optionText r.lower)
      (Value.optionText r.upper)).map String.toList) r.spelled.changes := by
  have htype : List.Forall₂ MarkText (r.marks.typeName.toList.map String.toList)
      (r.marks.typeName.map Rule.ofType).toList := by
    cases htype : r.marks.typeName with
    | none => exact .nil
    | some t => exact .cons (markText_type (h.typeName t htype)) .nil
  rw [RuleMarks.texts]
  simp only [List.map_append]
  exact List.rel_append (List.rel_append (List.rel_append (List.rel_append (List.rel_append
    (forall₂_requirement _) htype) (forall₂_option h.fallback hfallback fun _ => markText_fallback))
    (forall₂_whenEmpty _ _)) (forall₂_option h.lower hlower fun _ => markText_lower))
    (forall₂_option h.upper hupper fun _ => markText_upper)

/-- The text is written in words that the rule of the grammar takes for the value at the end of an
    entry. -/
def EntryText (value : Grammar Value) (text : List Char) (v : Value) : Prop :=
  ∃ ws, ws ≠ [] ∧ Shown text ws ∧ Yields True value EndsEntry ws v

theorem entryText_expression (h : v.Legible false) (hfinite : v.isFinite) :
    EntryText expression v.text.toList v.spelled := by
  obtain ⟨ws, hshown, hexpression⟩ := expressionText_text h hfinite
  exact ⟨ws, ne_nil_of_opens hexpression.opens, hshown, fun hends hp =>
    hexpression.yields _ hends.endsExpression hp⟩

/-- **The text of a rule** is read as that rule. -/
theorem entryText_rule (h : v.LegibleRule false) (hfinite : v.isFinite) :
    EntryText rule v.text.toList v.spelled := by
  obtain ⟨r, span, rfl, hr⟩ := h
  rw [Rule.toValue, Value.isFinite, Bool.and_eq_true, Bool.and_eq_true, Value.optionFinite_iff,
    Value.optionFinite_iff, Value.optionFinite_iff] at hfinite
  have htexts := forall₂_markTexts hr hfinite.1.1 hfinite.1.2 hfinite.2
  obtain ⟨ws, hne, hshown, hmarks⟩ := shown_marks htexts (List.cons_ne_nil _ _)
  have hfill : r.spelled.marks.whenEmpty = .fill → r.spelled.fallback.isSome := by
    intro hfill
    obtain ⟨v, hv⟩ := Option.isSome_iff_exists.mp (hr.fill hfill)
    rw [Rule.spelled, hv]
    rfl
  refine ⟨ws, hne, ?_, ?_⟩
  · rw [Rule.toValue, Value.text, String.toList_intercalate]
    exact hshown
  · intro k p gap rest hends hp
    have hrule := hmarks.yields hends hp
    rw [Rule.foldl_changes _ hfill] at hrule
    exact hrule

end Grammar

end Yini
