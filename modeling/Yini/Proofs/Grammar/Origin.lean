import Yini.Proofs.Grammar.Built
import Yini.Proofs.Grammar.Contents

/-!
Where the deferred expressions of a document come from.

While a source is read, the parser goes through certain states (`Parser.Reached`).  Every `Dyna` in
what is read, at any depth, was made by the rule for it in one of these states, and the rule had read
an expression there: its *argument* (`Argument`).  That is what is known of each atom as it is read
(`defers_argument`); the values are built of such atoms, and so are documents
(`Document.placed_of_ofSource`).
-/

namespace Yini

/-! ## Atoms of values -/

namespace Value

mutual

/-- The atoms in a value, at any depth, with their places. -/
def atoms : Value → List (Atom × Span)
  | atom a span => [(a, span)]
  | sequence _ items _ => itemAtoms items
  | record _ fields _ => fieldAtoms fields
  | binary l _ r _ => atoms l ++ atoms r
  | neg v _ => atoms v
  | rule _ d lo hi _ => optionAtoms d ++ (optionAtoms lo ++ optionAtoms hi)
termination_by structural v => v

/-- The atoms in the values of a list. -/
def itemAtoms : List Value → List (Atom × Span)
  | [] => []
  | v :: vs => atoms v ++ itemAtoms vs
termination_by structural vs => vs

/-- The atoms in the values of fields. -/
def fieldAtoms : List (String × Value) → List (Atom × Span)
  | [] => []
  | (_, v) :: fs => atoms v ++ fieldAtoms fs
termination_by structural fs => fs

/-- The atoms in a value that may be absent. -/
def optionAtoms : Option Value → List (Atom × Span)
  | none => []
  | some v => atoms v
termination_by structural o => o

end

variable {e : Atom × Span}

/-- The atoms of a list are those of its items. -/
theorem mem_itemAtoms {vs : List Value} : e ∈ itemAtoms vs ↔ ∃ v ∈ vs, e ∈ v.atoms := by
  induction vs with
  | nil => simp [itemAtoms]
  | cons v vs ih => simp [itemAtoms, ih]

/-- The atoms of fields are those of their values. -/
theorem mem_fieldAtoms {fs : Entries Value} : e ∈ fieldAtoms fs ↔ ∃ f ∈ fs, e ∈ f.2.atoms := by
  induction fs with
  | nil => simp [fieldAtoms]
  | cons f fs ih => obtain ⟨k, v⟩ := f; simp [fieldAtoms, ih]

theorem mem_optionAtoms {o : Option Value} : e ∈ optionAtoms o ↔ ∃ v ∈ o, e ∈ v.atoms := by
  cases o <;> simp [optionAtoms]

/-- The atoms of a rule are those of its values. -/
theorem mem_atoms_rule {marks : RuleMarks} {fallback lower upper : Option Value} {span : Span} :
    e ∈ (rule marks fallback lower upper span).atoms ↔
      ∃ v, (v ∈ fallback ∨ v ∈ lower ∨ v ∈ upper) ∧ e ∈ v.atoms := by
  simp only [atoms, List.mem_append, mem_optionAtoms, or_and_right, exists_or]

end Value

/-! ## States and arguments -/

/-- The states of the parser while a source is read. -/
inductive Parser.Reached (file : Option String) (source : String) : Parser → Prop
  | start {p : Parser} (h : ofSource file source = .ok p) : Reached file source p
  | advance {p : Parser} (h : Reached file source p) : Reached file source p.advance
  | turn {p : Parser} (h : Reached file source p) (mode : Bool) :
      Reached file source { p with schemaMode := mode }

/-- The parser faces words in each of these states. -/
theorem Parser.Reached.faces {file : Option String} {source : String} {p : Parser}
    (h : p.Reached file source) : ∃ k ws, p.Faces k ws := by
  induction h with
  | start h =>
    obtain ⟨ws, last, hfaces⟩ := faces_ofSource h
    exact ⟨_, ws, hfaces⟩
  | advance _ ih =>
    obtain ⟨k, ws, hfaces⟩ := ih
    cases ws with
    | nil => exact ⟨k, [], by rwa [hfaces.advance_nil]⟩
    | cons w ws => exact ⟨k, ws, hfaces.advance⟩
  | turn _ mode ih =>
    obtain ⟨k, ws, hfaces⟩ := ih
    exact ⟨_, ws, hfaces.turn mode⟩

open Grammar in
/-- **A deferred expression and its argument**: at some place of the source the rule for `Dyna` gives
    the text, with the given span, and the value that it reads between the parentheses is the other
    one. -/
inductive Argument (file : Option String) (source : String) (text : String) (span : Span)
    (u : Value) : Prop
  | intro {p q q' : Parser} {n : Nat} (hp : p.Reached file source) (hn : n ≤ maxNesting)
      (hrun : dyna (expressionOf (factor n)) span p = .ok (.atom (.dyna text) span) q)
      (hargument : expressionOf (factor n) p.advance = .ok u q')

/-- Every deferred expression in the value has an argument in the source. -/
def Value.Placed (file : Option String) (source : String) (v : Value) : Prop :=
  ∀ text span, (.dyna text, span) ∈ v.atoms → ∃ u, Argument file source text span u

namespace Grammar

variable {file : Option String} {source : String}

/-- A deferred expression has an argument in the source. -/
def HasArgument (file : Option String) (source : String) (a : Atom) (span : Span) : Prop :=
  ∀ text, a = .dyna text → ∃ u, Argument file source text span u

/-- Only deferred expressions have an argument to be found. -/
theorem plain_hasArgument : Plain (HasArgument file source) :=
  fun _ _ ha text h => absurd h (ha text)

/-- A value that is built of atoms with arguments holds deferred expressions with arguments only. -/
theorem Built.placed {n k : Nat} {rank : Rank} {v : Value}
    (h : Built (HasArgument file source) n rank k v) : v.Placed file source := by
  intro text span hmem
  induction h with
  | atom ha =>
    rw [Value.atoms, List.mem_singleton] at hmem
    cases hmem
    exact ha text rfl
  | neg _ _ ih => exact ih hmem
  | sequence _ _ _ ih =>
    obtain ⟨v, hv, hmem⟩ := Value.mem_itemAtoms.mp hmem
    exact ih v hv hmem
  | record _ _ _ ih =>
    obtain ⟨e, he, hmem⟩ := Value.mem_fieldAtoms.mp hmem
    exact ih e he hmem
  | group _ ih => exact ih hmem
  | one _ ih => exact ih hmem
  | whole _ ih => exact ih hmem
  | multiply _ _ _ _ ihl ihr => exact (List.mem_append.mp hmem).elim ihl ihr
  | add _ _ _ _ ihl ihr => exact (List.mem_append.mp hmem).elim ihl ihr

/-- The states of the parser while a source is read. -/
def reading (file : Option String) (source : String) : Pace :=
  .steady (Parser.Reached file source) .advance fun mode h => .turn h mode

/-- **A deferred expression has an argument**: what has just been read. -/
theorem defers_argument : Defers (reading file source) (HasArgument file source) := by
  intro n hn h span k p v q hp hrun
  have hdyna := hrun
  rw [dyna, bump_bind, sees_eq] at hrun
  split at hrun
  next => exact absurd hrun fail_ne_ok
  next =>
    dsimp only at hrun
    rw [get_bind] at hrun
    obtain ⟨u, q₁, hu, hrun⟩ := bind_eq_ok.mp hrun
    obtain ⟨_, hq₁, -⟩ := h k _ _ _ (Parser.Reached.advance hp) hu
    rw [get_bind] at hrun
    obtain ⟨_, q₂, hclose, hrun⟩ := bind_eq_ok.mp hrun
    obtain ⟨_, hq₂, -⟩ := passes_expect _ _ _ _ _ _ hq₁ hclose
    cases hrun
    refine ⟨0, hq₂, _, rfl, ?_⟩
    rintro text ⟨⟩
    exact ⟨u, hp, hn, hdyna, hu⟩

/-- What is read as an expression holds deferred expressions with their arguments only. -/
theorem leads_placed : Leads (reading file source) expression fun v _ => v.Placed file source :=
  (leads_expression plain_hasArgument defers_argument).imp fun _ _ hv => hv.placed

/-- The values of a document hold deferred expressions with their arguments only. -/
def PlacedDocument (file : Option String) (source : String) (d : Document) : Prop :=
  ∀ v ∈ d.values, v.Placed file source

theorem leads_placedRule : Leads (reading file source) rule fun v _ => v.Placed file source := by
  refine (leads_rule leads_placed).imp ?_
  rintro v k ⟨r, span, rfl, hr⟩ text span' hmem
  obtain ⟨v, hv, hmem⟩ := Value.mem_atoms_rule.mp hmem
  exact hr v hv text span' hmem

end Grammar

/-- **Every deferred expression in a document** has an argument in the source. -/
theorem Document.placed_of_ofSource {file : Option String} {source : String} {d : Document}
    (h : ofSource file source = .ok d) : Grammar.PlacedDocument file source d := by
  obtain ⟨p, q, hp, hrun⟩ := ofSource_eq_ok.mp h
  obtain ⟨-, -, hd⟩ := Grammar.leads_document Grammar.leads_placed Grammar.leads_placedRule 0 p d q
    (.start hp) hrun
  exact hd.forall_values (fun _ hv => hv) fun _ hv => hv

/-- Every deferred expression in an expression that stands alone has an argument in its text. -/
theorem Value.placed_of_ofSource {source : String} {v : Value} (h : ofSource source = .ok v) :
    v.Placed none source := by
  unfold ofSource at h
  split at h
  next => cases h
  next p hp =>
    split at h
    next v' q hrun =>
      cases h
      obtain ⟨-, -, hv⟩ := Grammar.leads_loneExpression Grammar.leads_placed 0 p v q (.start hp) hrun
      exact hv
    next => cases h

end Yini
