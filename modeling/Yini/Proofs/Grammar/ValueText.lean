import Yini.Proofs.Equality
import Yini.Proofs.Grammar.Printing
import Yini.Proofs.Grammar.Reading

/-!
Expressions written out and read again.

The text of a value has parentheses only where it would be grouped in another way without them, and every
literal in it has to be cut into the tokens that it came from.  That both is right has been shown form by
form (`Grammar.exists_printed`): the text is an expression of what the value spells.  What was read is
spelled as it is, because a numeral has no sign, so it is read back with the same operations in the same
shape (`Value.text_reads_back`).
-/

namespace Yini

open Grammar

namespace Value

variable {source text : String} {ws : List Word} {v : Value} {d : Depth}

/-- An expression that is all there is. -/
theorem ofSource_of_ok {p q : Parser} {k : Scene} (hp : Parser.ofSource none text = .ok p)
    (hrun : expression p = .ok v q) (hq : q.Faces k []) : ofSource text = .ok v := by
  have hlone : loneExpression p = .ok v q := by
    rw [loneExpression, bind_of_ok hrun, peek_bind hq]
    rfl
  rw [ofSource, hp]
  dsimp only
  rw [hlone]

/-- A fault of the expression is the fault of the text. -/
theorem ofSource_of_error {p q : Parser} {fault : Fault} (hp : Parser.ofSource none text = .ok p)
    (hrun : expression p = .error fault q) : ofSource text = .error fault := by
  have hlone : loneExpression p = .error fault q := bind_eq_error.mpr (.inl hrun)
  rw [ofSource, hp]
  dsimp only
  rw [hlone]

/-- **Words that are an expression**, where they are all there is, are read to its value, or they are
    too deep. -/
theorem ofSource_of_expression (htext : text.toList = written ws) (hcut : Cut ws [])
    (h : IsExpression d ws v) :
    (d.Exceeds maxNesting ∧ ∃ fault, ofSource text = .error fault ∧ fault.code = 217) ∨
      ∃ w, ofSource text = .ok w ∧ w.bare = v := by
  obtain ⟨p, hp, hfaces⟩ := Parser.ofSource_of_words none htext hcut
  rw [← List.append_nil ws] at hfaces
  have hgives : Gives (d.Exceeds maxNesting) (fun u q => u.bare = v ∧ q.Faces _ [])
      (expression p) := h.gives maxNesting ends_nil hfaces
  cases hrun : expression p with
  | error fault q =>
    rw [hrun] at hgives
    exact .inl ⟨hgives.1, fault, ofSource_of_error hp hrun, hgives.2⟩
  | ok w q =>
    rw [hrun] at hgives
    obtain ⟨hw, hq⟩ := hgives
    exact .inr ⟨w, ofSource_of_ok hp hrun hq, hw⟩

/-- Words that are an expression of no more than the greatest depth are read. -/
theorem ofSource_of_words (htext : text.toList = written ws) (hcut : Cut ws [])
    (h : IsExpression (some maxNesting) ws v) : ∃ w, ofSource text = .ok w ∧ w.bare = v := by
  rcases ofSource_of_expression htext hcut h with ⟨hdeep, -⟩ | hread
  · exact absurd hdeep (Nat.lt_irrefl maxNesting)
  · exact hread

/-- **Printing keeps the grouping and the kind of every expression.**  A value that was read and has no
    infinite or missing number is written as a text that is read back to the same operations on the same
    literals in the same shape, and so to an equal value; or the text is nested too deep. -/
theorem text_reads_back (h : ofSource source = .ok v) (hfinite : v.isFinite) :
    (∃ fault, ofSource v.text = .error fault ∧ fault.code = 217) ∨
      ∃ w, ofSource v.text = .ok w ∧ w.bare = v.bare ∧ v.same w := by
  have hlegible := legible_of_ofSource h
  obtain ⟨ws, hshown, hexpression⟩ := expressionText_text hlegible.signed hfinite
  rcases ofSource_of_expression hshown.written.symm (hshown.cut quiet_nil) hexpression with
    ⟨-, hdeep⟩ | ⟨w, hw, hspelled⟩
  · exact .inl hdeep
  · have hbare : w.bare = v.bare := hspelled.trans (spelled_eq_bare hlegible)
    exact .inr ⟨w, hw, hbare, same_of_bare_eq hfinite hlegible.wellFormed hbare⟩

/-- An expression in which parentheses are needed on both sides and behind a minus sign. -/
def groupedText : String := "(1 + 2) * 3 - (4 - -(a % 5.0)) / [#0F0, \x7bk: -2147483648\x7d]"

/-- An expression whose parentheses are needed. -/
theorem text_reads_back_groupedText : ∃ v, ofSource groupedText = .ok v ∧ v.isFinite ∧
    ∃ w, ofSource v.text = .ok w ∧ w.bare = v.bare ∧ v.same w := by
  have hread : ((ofSource groupedText).toOption.filter fun v =>
      v.isFinite && (ofSource v.text).toOption.isSome).isSome := by decide +kernel
  obtain ⟨v, hv⟩ := Option.isSome_iff_exists.mp hread
  obtain ⟨hv, hall⟩ := Option.filter_eq_some_iff.mp hv
  obtain ⟨hfinite, hagain⟩ := (Bool.and_eq_true _ _).mp hall
  have h := eq_ok_of_toOption hv
  refine ⟨v, h, hfinite, ?_⟩
  rcases text_reads_back h hfinite with ⟨fault, hfault, -⟩ | hsame
  · rw [hfault] at hagain
    cases hagain
  · exact hsame

end Value

end Yini
