import Yini.Proofs.Dyna.Capacity
import Yini.Proofs.Dyna.Sharing
import Yini.Proofs.Grammar.Nameless

/-!
What an expression without names and references can see of its context: its quoted texts, and nothing else.

A text in quotes and a name are the same to an evaluator, and it looks both up.  So an expression in which
no token asks for a name or a reference may still depend on the context (`quoted_looked_up`).  But this is
all: two contexts that agree on its quoted texts give it the same value, in both ways of evaluating
(`evaluate_nameless`).

1. *The tree* (`Value.evaluate_congr`).  A walk looks up the texts and references of the tree and nothing
   else, for one kind of node after the other.
2. *The program.*  It comes to what the walk comes to, for the program of any evaluator that keeps programs
   faithfully.
3. *The text* (`Value.asksOnly_of_nameless`).  The texts in the tree are quoted ones.
-/

namespace Yini

/-! ## Values that ask for the same -/

namespace Value

variable {S : String → Prop} {c c' : Context}

/-- Lists have the same value in two contexts, if their items do. -/
theorem evaluateItems_congr {vs : List Value} (h : ∀ v ∈ vs, v.evaluate c = v.evaluate c') :
    evaluateItems c vs = evaluateItems c' vs := by
  induction vs with
  | nil => rfl
  | cons v vs ih =>
    obtain ⟨hv, hvs⟩ := List.forall_mem_cons.mp h
    rw [evaluateItems, evaluateItems, hv, ih hvs]

/-- Fields have the same values in two contexts, if each of them does. -/
theorem evaluateFields_congr {fs : Entries Value} (h : ∀ e ∈ fs, e.2.evaluate c = e.2.evaluate c') :
    evaluateFields c fs = evaluateFields c' fs := by
  induction fs with
  | nil => rfl
  | cons e fs ih =>
    obtain ⟨he, hfs⟩ := List.forall_mem_cons.mp h
    rw [evaluateFields, evaluateFields, he, ih hfs]

/-- **A walk depends on what is asked for only.** -/
theorem evaluate_congr (hc : ∀ s, S s → c.value? s = c'.value? s) {v : Value} (hv : v.AsksOnly S) :
    v.evaluate c = v.evaluate c' := by
  induction v using Value.induction with
  | atom a span =>
    have ha : a.AsksOnly S := hv (a, span) (List.mem_singleton.mpr rfl)
    cases a with
    | string s => rw [evaluate, evaluate, hc s ha]
    | reference r => exact ha.elim
    | _ => rfl
  | sequence kind items span ih =>
    have hitems : ∀ v ∈ items, v.AsksOnly S := fun v hmem e he => hv e (mem_itemAtoms.mpr ⟨v, hmem, he⟩)
    rw [evaluate, evaluate, evaluateItems_congr fun v hmem => ih v hmem (hitems v hmem)]
  | record kind fields span ih =>
    have hfields : ∀ f ∈ fields, f.2.AsksOnly S := fun f hmem e he => hv e (mem_fieldAtoms.mpr ⟨f, hmem, he⟩)
    rw [evaluate, evaluate, evaluateFields_congr fun f hmem => ih f hmem (hfields f hmem)]
  | binary l op r span ihl ihr =>
    obtain ⟨hl, hr⟩ := List.forall_mem_append.mp hv
    rw [evaluate, evaluate, ihl hl, ihr hr]
  | neg v span ih => rw [evaluate, evaluate, ih hv]
  | rule => rfl

end Value

/-! ## Texts -/

namespace Evaluator

variable {text : String} {c c' : Context} {e e' : Evaluator}

/-- A faithful evaluator runs the program of the text, wherever it has it from. -/
theorem Faithful.evaluate_bytecode (he : e.Faithful) (text : String) (c : Context) :
    (e.evaluate text c .bytecode).1 = (Program.ofSource text).bind fun p => p.run c := by
  have hprogram := (he.program text).1
  rw [evaluate, ← hprogram]
  cases (e.program text) with
  | mk x e => cases x <;> rfl

/-- **Nothing but quoted texts is seen of the context.**  An expression whose text has no reference mark and no
    name in it, other than those of constructors, fields and the digits of colors, has the same result in all
    contexts that agree on its quoted texts, in both ways of evaluating. -/
theorem evaluate_nameless (htext : Nameless text) (hc : ∀ s ∈ quotedTexts text, c.value? s = c'.value? s)
    (he : e.Faithful) (he' : e'.Faithful) (strategy : Strategy) :
    (e.evaluate text c strategy).1 = (e'.evaluate text c' strategy).1 := by
  cases strategy with
  | treeWalk =>
    show evaluateTree text c = evaluateTree text c'
    rw [evaluateTree, evaluateTree]
    cases hread : Value.ofSource text with
    | error fault => rfl
    | ok v => exact Value.evaluate_congr hc (Value.asksOnly_of_nameless htext hread)
  | bytecode =>
    rw [he.evaluate_bytecode, he'.evaluate_bytecode, Program.ofSource]
    cases hread : Value.ofSource text with
    | error fault => rfl
    | ok v =>
      show (Program.ofValue v).bind _ = (Program.ofValue v).bind _
      cases hprogram : Program.ofValue v with
      | error fault => rfl
      | ok p =>
        have hv := (Value.legible_of_ofSource hread).wellFormed
        show p.run c = p.run c'
        rw [Program.run_eq_evaluate hv hprogram, Program.run_eq_evaluate hv hprogram]
        exact Value.evaluate_congr hc (Value.asksOnly_of_nameless htext hread)

/-- A record with a color, a point and a joined text. -/
def labelText : String := "\x7bcolor: #0F0, at: Coord(1, -2), label: \"w\" + 3\x7d"

/-- A context that knows a name. -/
def knowing : Context := .ofTable (.ofList [("x", .atom (.int 5) .none)])

/-- An expression with a quoted text in it, and two contexts of which only one knows a name. -/
theorem evaluate_nameless_labelText : Nameless labelText ∧ quotedTexts labelText = ["w"] ∧
    ∀ strategy, (evaluate {} labelText knowing strategy).1 = (evaluate {} labelText (.ofTable ∅) strategy).1 := by
  have htext : Nameless labelText := by decide +kernel
  have hquoted : quotedTexts labelText = ["w"] := by decide +kernel
  have hc : ∀ s ∈ quotedTexts labelText, knowing.value? s = (Context.ofTable ∅).value? s := by
    rw [hquoted]
    exact List.forall_mem_singleton.mpr rfl
  exact ⟨htext, hquoted, fun strategy => evaluate_nameless htext hc faithful_empty faithful_empty strategy⟩

/-- **A text in quotes is looked up like a name**, so its value depends on the context. -/
theorem quoted_looked_up : Nameless "\"x\"" ∧ ∀ strategy,
    (evaluate {} "\"x\"" knowing strategy).1 ≠ (evaluate {} "\"x\"" (.ofTable ∅) strategy).1 := by
  refine ⟨by decide +kernel, fun strategy h => ?_⟩
  have hknown : (evaluate {} "\"x\"" knowing strategy).1.toOption.bind Value.int? = some 5 := by
    cases strategy <;> decide +kernel
  have hnone : (evaluate {} "\"x\"" (.ofTable ∅) strategy).1.toOption.bind Value.int? = none := by
    cases strategy <;> decide +kernel
  rw [h, hnone] at hknown
  cases hknown

end Evaluator

end Yini
