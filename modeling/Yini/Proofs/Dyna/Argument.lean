import Yini.Dyna.Evaluator
import Yini.Proofs.Compile.Compiled
import Yini.Proofs.Dyna.Lowering
import Yini.Proofs.Grammar.Origin
import Yini.Proofs.Grammar.ValueText

/-!
Deferred expressions are read again without a fault.

What is kept of `Dyna(...)` is a piece of the source, and that piece is cut into words and read once
more when it is evaluated.  It stands alone then: at other places, without what stood around it, and
with all levels of nesting left.  Still the words are the same and they are read to the same value
(`Argument.ofSource`).  So a text that is kept in a compiled document can always be read, and if
evaluating it fails, the fault is one of evaluation (`deferred_reads_again`).
-/

namespace Yini

open Grammar

/-! ## Words that stand alone -/

/-- The text of a deferred expression can be read. -/
theorem Deferred.ofSource {text : String} (h : Deferred text) : ∃ w, Value.ofSource text = .ok w := by
  obtain ⟨w, ws, v, last, htext, hexpression, hcut⟩ := h
  have hwritten : text.toList = written ({ w with gap := [] } :: ws) := by
    rw [htext, written_cons]
    rfl
  obtain ⟨u, hu, -⟩ :=
    Value.ofSource_of_words hwritten (hcut.quiet quiet_nil) (hexpression.regap [])
  exact ⟨u, hu⟩

/-- **The text of a deferred expression stands for its argument**: it is read alone to the value that
    was read in place. -/
theorem Argument.ofSource {file : Option String} {source text : String} {span : Span} {u : Value}
    (h : Argument file source text span u) : ∃ w, Value.ofSource text = .ok w ∧ w.bare = u.bare := by
  obtain ⟨hp, hn, hrun, hargument⟩ := h
  obtain ⟨k, ws, hfaces⟩ := hp.advance.faces
  obtain ⟨w, used, close, rest, u', q₁, -, -, -, hu', hexpression, hcut, htext⟩ :=
    dyna_cases (takes_expressionOf (takes_factor hn)) hfaces hrun
  obtain ⟨rfl, -⟩ := EStateM.Result.ok.inj (hargument.symm.trans hu')
  cases htext
  have hlevels : IsExpression (some maxNesting) (w :: used) u.bare :=
    hexpression.mono fun _ hm => Nat.lt_of_lt_of_le hm hn
  refine Value.ofSource_of_words ?_ (hcut.quiet quiet_nil) (hlevels.regap [])
  rw [String.toList_ofList, hcut.trim_eq, written_cons]
  rfl

/-! ## Deferred expressions of compiled documents -/

/-- An atom in a value that can be written can be written. -/
theorem Value.Legible.of_mem_atoms {unsigned : Bool} {v : Value} (h : v.Legible unsigned) {a : Atom}
    {span : Span} (hmem : (a, span) ∈ v.atoms) : a.Legible unsigned := by
  induction h with
  | @atom b span' h =>
    cases List.mem_singleton.mp hmem
    exact h
  | sequence _ ih =>
    obtain ⟨v, hv, hmem⟩ := mem_itemAtoms.mp hmem
    exact ih v hv hmem
  | record _ _ _ _ ih =>
    obtain ⟨e, he, hmem⟩ := mem_fieldAtoms.mp hmem
    exact ih e he hmem
  | binary _ _ ihl ihr => exact (List.mem_append.mp hmem).elim ihl ihr
  | neg _ ih => exact ih hmem

/-- **A deferred expression in a document that can be written** has a text that can be read. -/
theorem Document.Legible.deferred {d : Document} (h : d.Legible) {v : Value} (hv : v ∈ d.values)
    {text : String} {span : Span} (hmem : (.dyna text, span) ∈ v.atoms) : Deferred text := by
  rcases h.of_mem_values hv with hv | ⟨r, place, rfl, hr⟩
  · exact hv.of_mem_atoms hmem
  · obtain ⟨u, hu | hu | hu, hmem⟩ := Value.mem_atoms_rule.mp hmem
    · exact (hr.fallback u hu).of_mem_atoms hmem
    · exact (hr.lower u hu).of_mem_atoms hmem
    · exact (hr.upper u hu).of_mem_atoms hmem

/-! ## Faults of evaluation -/

namespace Program

variable {p : Program} {c : Context} {f : Fault}

theorem code_of_damaged_eq_error {α : Type} {offset : Nat} {damage : Damage}
    (h : (damaged offset damage : Except Fault α) = .error f) : f.code = 508 := by
  cases h
  rfl

/-- The faults of an instruction. -/
theorem code_of_perform_eq_error {s : State} {o : Opcode} {operand : Nat}
    (h : p.perform c s o operand = .error f) :
    (501 ≤ f.code ∧ f.code ≤ 508) ∨ ∃ r, c.reference r = .error f := by
  -- every way to find the stack too short or a constant of the wrong kind is a damaged program
  have hdamaged : ∀ {offset damage},
      (damaged offset damage : Except Fault (Value × List Value)) = .error f →
        501 ≤ f.code ∧ f.code ≤ 508 :=
    fun h => by rw [code_of_damaged_eq_error h]; decide
  unfold perform at h
  split at h
  · split at h
    · exact .inl (hdamaged h)
    · split at h
      · cases h
      · rcases except_bind_eq_error.mp h with h | ⟨_, _, h⟩
        · exact .inr ⟨_, h⟩
        · cases h
      · exact .inl (hdamaged h)
      · cases h
  · split at h
    · rcases except_bind_eq_error.mp h with h | ⟨_, _, h⟩
      · have := Value.code_of_combine_eq_error h
        exact .inl (by omega)
      · cases h
    · exact .inl (hdamaged h)
  · split at h
    · rcases except_bind_eq_error.mp h with h | ⟨_, _, h⟩
      · have := Value.code_of_opposite_eq_error h
        exact .inl (by omega)
      · cases h
    · exact .inl (hdamaged h)
  · split at h
    · cases h
    · exact .inl (hdamaged h)
  · split at h
    · split at h
      · cases h
      · exact .inl (hdamaged h)
    · exact .inl (hdamaged h)
  · exact .inl (hdamaged h)

/-- **The faults of a program**, whatever it is: faults of evaluation, and those that the context gives
    for references. -/
theorem code_of_run_eq_error (h : p.run c = .error f) :
    (501 ≤ f.code ∧ f.code ≤ 508) ∨ ∃ r, c.reference r = .error f := by
  have hdamaged : ∀ {offset damage},
      (damaged offset damage : Except Fault Value) = .error f → 501 ≤ f.code ∧ f.code ≤ 508 :=
    fun h => by rw [code_of_damaged_eq_error h]; decide
  unfold run at h
  generalize p.code.toList = code at h
  generalize (⟨0, p.spans.toList, []⟩ : State) = s at h
  fun_induction exec p c code s with
  | case1 => exact .inl (hdamaged h)
  | case2 => exact .inl (hdamaged h)
  | case3 s =>
    unfold finish at h
    split at h
    · cases h
    · exact .inl (hdamaged h)
    · exact .inl (hdamaged h)
  | case4 _ _ _ _ _ _ _ _ _ _ _ _ ih => exact ih h
  | case5 _ _ _ _ _ _ _ _ _ fault hperform =>
    cases h
    exact code_of_perform_eq_error hperform
  | case6 => exact .inl (hdamaged h)
  | case7 _ _ _ _ _ _ _ _ _ _ ih => exact ih h
  | case8 _ _ _ _ _ _ _ fault hperform =>
    cases h
    exact code_of_perform_eq_error hperform

/-- The fault of an operand that is too large. -/
theorem code_of_operand_eq_error {n : Nat} {span : Span} (h : operand n span = .error f) :
    f.code = 507 := by
  unfold operand at h
  split at h <;> cases h
  rfl

theorem code_of_emitPush_eq_error {k : Push} {constant : Value} (h : p.emitPush k constant = .error f) :
    f.code = 507 := by
  rcases except_bind_eq_error.mp h with h | ⟨_, _, h⟩
  · exact code_of_operand_eq_error h
  · cases h

/-- Items are lowered one after the other. -/
theorem code_of_lowerItems_eq_error {vs : List Value}
    (hvs : ∀ v ∈ vs, ∀ {p : Program}, lower v p = .error f → 505 ≤ f.code ∧ f.code ≤ 507)
    (h : lowerItems vs p = .error f) : 505 ≤ f.code ∧ f.code ≤ 507 := by
  induction vs generalizing p with
  | nil => cases h
  | cons v vs ih =>
    rw [lowerItems] at h
    split at h
    next => exact ih (List.forall_mem_cons.mp hvs).2 h
    next hv =>
      cases h
      exact hvs v List.mem_cons_self hv

/-- Fields are lowered one after the other, with their names. -/
theorem code_of_lowerFields_eq_error {fs : Entries Value} {span : Span}
    (hfs : ∀ e ∈ fs, ∀ {p : Program}, lower e.2 p = .error f → 505 ≤ f.code ∧ f.code ≤ 507)
    (h : lowerFields span fs p = .error f) : 505 ≤ f.code ∧ f.code ≤ 507 := by
  induction fs generalizing p with
  | nil => cases h
  | cons e fs ih =>
    rw [lowerFields] at h
    split at h
    next =>
      split at h
      next => exact ih (List.forall_mem_cons.mp hfs).2 h
      next hv =>
        cases h
        exact hfs e List.mem_cons_self hv
    next hname =>
      cases h
      have := code_of_emitPush_eq_error hname
      omega

/-- Lowering fails at rules, and where a number is too large. -/
theorem code_of_lower_eq_error (v : Value) (h : lower v p = .error f) :
    505 ≤ f.code ∧ f.code ≤ 507 := by
  induction v using Value.induction generalizing p with
  | atom a span =>
    have := code_of_emitPush_eq_error h
    omega
  | sequence kind items span ih =>
    rw [lower] at h
    rcases except_bind_eq_error.mp h with h | ⟨_, _, h⟩
    · exact code_of_lowerItems_eq_error ih h
    rcases except_bind_eq_error.mp h with h | ⟨_, _, h⟩
    · have := code_of_operand_eq_error h
      omega
    · cases h
  | record kind fields span ih =>
    rw [lower] at h
    rcases except_bind_eq_error.mp h with h | ⟨_, _, h⟩
    · exact code_of_lowerFields_eq_error ih h
    rcases except_bind_eq_error.mp h with h | ⟨_, _, h⟩
    · have := code_of_operand_eq_error h
      omega
    · cases h
  | binary l op r span ihl ihr =>
    rw [lower] at h
    rcases except_bind_eq_error.mp h with h | ⟨_, _, h⟩
    · exact ihl h
    rcases except_bind_eq_error.mp h with h | ⟨_, _, h⟩
    · exact ihr h
    · cases h
  | neg v span ih =>
    rw [lower] at h
    rcases except_bind_eq_error.mp h with h | ⟨_, _, h⟩
    · exact ih h
    · cases h
  | rule marks fallback lower' upper span =>
    rw [lower] at h
    cases h
    simp [Fault.code, EvaluationCause.code]

end Program

/-- The fault is one of reading: the source cannot be cut into tokens, or they do not fit the grammar. -/
def Fault.isSyntax : Fault → Bool
  | .lex .. => true
  | .parse .. => true
  | _ => false

/-- Faults of evaluation are no faults of syntax. -/
theorem Fault.not_isSyntax_of_code {f : Fault} (h : 501 ≤ f.code) : f.isSyntax = false := by
  cases f with
  | lex cause span =>
    have hcode : cause.code < 501 := by cases cause <;> simp [LexCause.code]
    exact absurd h (Nat.not_le_of_lt hcode)
  | parse cause found span =>
    have hcode : cause.code < 501 := by
      cases cause with
      | wanted w =>
        show (if w.isName then 203 else 202) < 501
        split <;> decide
      | _ => simp [ParseCause.code]
    exact absurd h (Nat.not_le_of_lt hcode)
  | _ => rfl

/-- **Evaluating a text that can be read** has no fault of reading, but for those that the context gives
    for references. -/
theorem Evaluator.not_isSyntax_of_evaluate {text : String} (htext : ∃ w, Value.ofSource text = .ok w)
    {e : Evaluator} {c : Context} {s : Strategy} {f : Fault}
    (h : (e.evaluate text c s).1 = .error f) :
    f.isSyntax = false ∨ ∃ r, c.reference r = .error f := by
  obtain ⟨w, hw⟩ := htext
  have hrun (p : Program) (h : p.run c = .error f) :
      f.isSyntax = false ∨ ∃ r, c.reference r = .error f :=
    (Program.code_of_run_eq_error h).imp_left fun hcode => Fault.not_isSyntax_of_code hcode.1
  cases s with
  | treeWalk =>
    have h : evaluateTree text c = .error f := h
    rw [evaluateTree, hw] at h
    exact (Value.code_of_evaluate_eq_error w h).imp_left fun hcode => Fault.not_isSyntax_of_code hcode.1
  | bytecode =>
    have hprogram : Program.ofSource text = Program.ofValue w := by
      rw [Program.ofSource, hw]
      rfl
    unfold evaluate program at h
    rw [hprogram] at h
    -- a kept program is run at once; any other text is lowered first, and that can only be too large
    cases hkept : e.programs.get? text with
    | some p =>
      rw [hkept] at h
      exact hrun p h
    | none =>
      rw [hkept] at h
      cases hlower : Program.ofValue w with
      | ok p =>
        rw [hlower] at h
        exact hrun p h
      | error fault =>
        rw [hlower] at h
        cases h
        rcases except_bind_eq_error.mp hlower with hlower | ⟨_, _, hlower⟩
        · have := Program.code_of_lower_eq_error w hlower
          exact .inl (Fault.not_isSyntax_of_code (by omega))
        · cases hlower

/-- **Deferred expressions are read again.**  Whatever `Dyna` keeps, in a document or in an expression
    that is read, is the text of an argument that was read in place; every such text is read alone, to
    the value that the argument had in place.  So evaluating a deferred expression of a compiled
    document never has a fault of reading, in either way, unless the context itself gives that fault for
    a reference. -/
theorem deferred_reads_again :
    (∀ file source d, Document.ofSource file source = .ok d → ∀ v ∈ d.values, v.Placed file source) ∧
      (∀ source v, Value.ofSource source = .ok v → v.Placed none source) ∧
      (∀ file source text span u, Argument file source text span u →
        ∃ w, Value.ofSource text = .ok w ∧ w.bare = u.bare) ∧
      ∀ (c : Compiler) (d : Document),
        ((∃ text, c.compile text = .ok d) ∨ ∃ path, c.compileFile path = .ok d) →
        ∀ v ∈ d.values, ∀ text span, (.dyna text, span) ∈ v.atoms →
        ∀ (e : Evaluator) (context : Context) (s : Strategy) (fault : Fault),
          (e.evaluateDyna (.atom (.dyna text) span) context s).1 = .error fault →
            fault.isSyntax = false ∨ ∃ r, context.reference r = .error fault := by
  refine ⟨fun _ _ _ h => Document.placed_of_ofSource h, fun _ _ h => Value.placed_of_ofSource h,
    fun _ _ _ _ _ h => h.ofSource, fun c d h v hv text span hmem e context s fault hfault => ?_⟩
  have hcompiled : d.Compiled := by
    rcases h with ⟨text, h⟩ | ⟨path, h⟩
    · exact Compiler.compiled_of_compile h
    · exact Compiler.compiled_of_compileFile h
  exact Evaluator.not_isSyntax_of_evaluate (hcompiled.legible.deferred hv hmem).ofSource hfault

/-- A deferred expression in a list, with white space and a comment in it. -/
def deferredText : String := "[A]\nx = [Dyna( @k /* one */ + 1 )]\n"

/-- A deferred expression with a comment in it, in a text and in a compiled document. -/
theorem deferred_reads_again_deferredText :
    (∃ d, Document.ofSource none deferredText = .ok d ∧
      ∃ v ∈ d.values, (.dyna "@k /* one */ + 1", ⟨none, 2, 6⟩) ∈ v.atoms ∧
        ∃ u w, Argument none deferredText "@k /* one */ + 1" ⟨none, 2, 6⟩ u ∧
          Value.ofSource "@k /* one */ + 1" = .ok w ∧ w.bare = u.bare) ∧
    ∃ d, Compiler.compile ⟨.ofTexts ∅, .none, none⟩ deferredText = .ok d ∧
      ∃ v ∈ d.values, (.dyna "@k /* one */ + 1", ⟨none, 2, 6⟩) ∈ v.atoms ∧
        ∃ fault, (Evaluator.evaluateDyna {} (.atom (.dyna "@k /* one */ + 1") ⟨none, 2, 6⟩) (.ofTable ∅)
          .bytecode).1 = .error fault ∧
            (fault.isSyntax = false ∨ ∃ r, (Context.ofTable ∅).reference r = .error fault) := by
  obtain ⟨hdocuments, -, harguments, hevaluation⟩ := deferred_reads_again
  have hvalue {x : Except Fault Document} (hx : (x.toOption.filter fun d => d.values.any fun v =>
      v.atoms.contains (.dyna "@k /* one */ + 1", ⟨none, 2, 6⟩)).isSome) :
      ∃ d, x = .ok d ∧ ∃ v ∈ d.values, (.dyna "@k /* one */ + 1", ⟨none, 2, 6⟩) ∈ v.atoms := by
    obtain ⟨d, hd⟩ := Option.isSome_iff_exists.mp hx
    obtain ⟨hd, hmem⟩ := Option.filter_eq_some_iff.mp hd
    obtain ⟨v, hv, hmem⟩ := List.any_eq_true.mp hmem
    exact ⟨d, eq_ok_of_toOption hd, v, hv, List.contains_iff_mem.mp hmem⟩
  constructor
  · obtain ⟨d, hd, v, hv, hmem⟩ :=
      hvalue (x := Document.ofSource none deferredText) (by decide +kernel)
    obtain ⟨u, hu⟩ := hdocuments _ _ _ hd v hv _ _ hmem
    obtain ⟨w, hw, hsame⟩ := harguments _ _ _ _ _ hu
    exact ⟨d, hd, v, hv, hmem, u, w, hu, hw, hsame⟩
  · obtain ⟨d, hd, v, hv, hmem⟩ :=
      hvalue (x := Compiler.compile ⟨.ofTexts ∅, .none, none⟩ deferredText) (by decide +kernel)
    have hfault : (fault? (Evaluator.evaluateDyna {} (.atom (.dyna "@k /* one */ + 1") ⟨none, 2, 6⟩)
        (.ofTable ∅) .bytecode).1).isSome := by decide +kernel
    obtain ⟨fault, hfault⟩ := Option.isSome_iff_exists.mp hfault
    have hfault := eq_error_of_fault? hfault
    exact ⟨d, hd, v, hv, hmem, fault, hfault,
      hevaluation _ d (.inl ⟨_, hd⟩) v hv _ _ hmem {} (.ofTable ∅) .bytecode fault hfault⟩

end Yini
