import Yini.Proofs.Grammar.Built
import Yini.Proofs.Grammar.Contents
import Yini.Proofs.Grammar.ValueText

/-!
How high the trees of values are.

The parser counts a level for a container, for parentheses and for a minus sign, and none for an operator,
so that a long sum may be written without parentheses.  `Value.deepest` counts the nodes on the way to a
leaf, with a weight for operations, and three weights are looked at:

* `Value.nesting` passes over operations.  It is what the parser bounds.
* `Value.turns` counts them on the way to their right operand only.  Terms and factors cannot be chains
  again, so it is bounded by the levels as well.
* `Value.height` counts them all.  Each is an operator of the text, and the left operands of a chain can be
  as many as there are operators: so no number bounds the height of all texts (`Value.height_unbounded`).

The three bounds are one lemma about how values are built (`Grammar.Built.deepest_le`).
-/

namespace Yini

/-! ## Nodes on the way to a leaf -/

/-- What is counted besides containers, minus signs and leaves. -/
structure Count where
  /-- An operation on the way to an operand. -/
  operation : Nat
  /-- What the way to the right operand counts more. -/
  turn : Nat
  /-- A rule on the way to a value in it. -/
  rule : Nat

namespace Value

mutual

/-- The most nodes that are counted on the way to a leaf, with the leaf. -/
def deepest (c : Count) : Value → Nat
  | atom _ _ => 1
  | sequence _ items _ => 1 + deepestItem c items
  | record _ fields _ => 1 + deepestField c fields
  | binary l _ r _ => c.operation + max (deepest c l) (c.turn + deepest c r)
  | neg v _ => 1 + deepest c v
  | rule _ d lo hi _ =>
    max 1 (c.rule + max (deepestOption c d) (max (deepestOption c lo) (deepestOption c hi)))
termination_by structural v => v

/-- The most in the values of a list. -/
def deepestItem (c : Count) : List Value → Nat
  | [] => 0
  | v :: vs => max (deepest c v) (deepestItem c vs)
termination_by structural vs => vs

/-- The most in the values of fields. -/
def deepestField (c : Count) : List (String × Value) → Nat
  | [] => 0
  | (_, v) :: fs => max (deepest c v) (deepestField c fs)
termination_by structural fs => fs

/-- The most in a value that may be absent. -/
def deepestOption (c : Count) : Option Value → Nat
  | none => 0
  | some v => deepest c v
termination_by structural o => o

end

/-- **The height of the tree**: every node counts. -/
def height (v : Value) : Nat := v.deepest ⟨1, 0, 1⟩

/-- **How deeply a value is nested**: containers, minus signs and leaves count. -/
def nesting (v : Value) : Nat := v.deepest ⟨0, 0, 0⟩

/-- The height without the operations that one gets out of by their left operand. -/
def turns (v : Value) : Nat := v.deepest ⟨0, 1, 1⟩

variable {c : Count} {m : Nat}

/-- A list is as deep as its deepest item. -/
theorem deepestItem_le_iff {vs : List Value} : deepestItem c vs ≤ m ↔ ∀ v ∈ vs, v.deepest c ≤ m := by
  induction vs with
  | nil => simp [deepestItem]
  | cons v vs ih => simp only [deepestItem, Nat.max_le, ih, List.forall_mem_cons]

/-- Fields are as deep as the deepest of their values. -/
theorem deepestField_le_iff {fs : Entries Value} : deepestField c fs ≤ m ↔ ∀ e ∈ fs, e.2.deepest c ≤ m := by
  induction fs with
  | nil => simp [deepestField]
  | cons e fs ih =>
    obtain ⟨k, v⟩ := e
    simp only [deepestField, Nat.max_le, ih, List.forall_mem_cons]

theorem deepestOption_le_iff {o : Option Value} : deepestOption c o ≤ m ↔ ∀ v ∈ o, v.deepest c ≤ m := by
  cases o <;> simp [deepestOption]

/-- Places are no nodes. -/
theorem deepest_bare (c : Count) (v : Value) : v.bare.deepest c = v.deepest c := by
  have hoption : ∀ o : Option Value, (∀ v ∈ o, v.bare.deepest c = v.deepest c) →
      deepestOption c (bareOption o) = deepestOption c o := by
    intro o h
    cases o with
    | none => rfl
    | some v => exact h v rfl
  induction v using Value.induction with
  | atom => rfl
  | sequence kind items span ih =>
    have hitems : deepestItem c (bareItems items) = deepestItem c items := by
      induction items with
      | nil => rfl
      | cons v vs ihs =>
        rw [bareItems, deepestItem, deepestItem, ih v List.mem_cons_self,
          ihs fun u hu => ih u (List.mem_cons_of_mem _ hu)]
    rw [bare, deepest, deepest, hitems]
  | record kind fields span ih =>
    have hfields : deepestField c (bareFields fields) = deepestField c fields := by
      induction fields with
      | nil => rfl
      | cons e fs ihs =>
        obtain ⟨k, v⟩ := e
        rw [bareFields, deepestField, deepestField, ih (k, v) List.mem_cons_self,
          ihs fun u hu => ih u (List.mem_cons_of_mem _ hu)]
    rw [bare, deepest, deepest, hfields]
  | binary l op r span hl hr => rw [bare, deepest, deepest, hl, hr]
  | neg v span ih => rw [bare, deepest, deepest, ih]
  | rule marks fallback lower upper span hd hlo hhi =>
    rw [bare, deepest, deepest, hoption fallback hd, hoption lower hlo, hoption upper hhi]

end Value

/-! ## Bounds -/

namespace Grammar

variable {A : Atom → Span → Prop} {n k : Nat} {rank : Rank} {v : Value}

/-- The turns that are left to a place in a chain: a term is no sum, and a factor is no term. -/
def Rank.spare : Rank → Nat
  | .sum => 0
  | .term => 1
  | .factor => 2

/-- **How high a value is built**: each level holds one node and the turns from a sum to a factor. -/
theorem Built.deepest_le (h : Built A n rank k v) (c : Count) :
    v.deepest c + rank.spare * c.turn ≤ (1 + 2 * c.turn) * n + c.operation * k := by
  -- a level more
  have hlevel (n : Nat) : (1 + 2 * c.turn) * (n + 1) = (1 + 2 * c.turn) * n + (1 + 2 * c.turn) :=
    Nat.mul_succ _ _
  -- an operator more
  have hoperator (k : Nat) : c.operation * (k + 1) = c.operation * k + c.operation := Nat.mul_succ _ _
  induction h with
  | @atom n =>
    rw [Value.deepest, Rank.spare, hlevel n]
    omega
  | @neg n k v span _ ih =>
    simp only [Rank.spare] at ih ⊢
    rw [Value.deepest, hlevel n]
    omega
  | @sequence n k items kind span _ ih =>
    have hitems : Value.deepestItem c items ≤ (1 + 2 * c.turn) * n + c.operation * k := by
      refine Value.deepestItem_le_iff.mpr fun v hv => ?_
      have hv := ih v hv
      simp only [Rank.spare] at hv
      omega
    rw [Value.deepest, Rank.spare, hlevel n]
    omega
  | @record n k fields kind span _ ih =>
    have hfields : Value.deepestField c fields ≤ (1 + 2 * c.turn) * n + c.operation * k := by
      refine Value.deepestField_le_iff.mpr fun e he => ?_
      have he := ih e he
      simp only [Rank.spare] at he
      omega
    rw [Value.deepest, Rank.spare, hlevel n]
    omega
  | @group n k v _ ih =>
    simp only [Rank.spare] at ih ⊢
    rw [hlevel n]
    omega
  | one _ ih =>
    simp only [Rank.spare] at ih ⊢
    omega
  | whole _ ih =>
    simp only [Rank.spare] at ih ⊢
    omega
  | @multiply n k l r op span _ _ ihl ihr =>
    simp only [Rank.spare] at ihl ihr ⊢
    rw [Value.deepest, hoperator k]
    omega
  | @add n k l r op span _ _ ihl ihr =>
    simp only [Rank.spare] at ihl ihr ⊢
    rw [Value.deepest, hoperator k]
    omega

/-- **Nesting is bounded by the levels**, whatever operators there are. -/
theorem Built.nesting_le (h : Built A n rank k v) : v.nesting ≤ n := by
  have hle := h.deepest_le ⟨0, 0, 0⟩
  simp only [Nat.mul_zero, Nat.zero_mul, Nat.add_zero, Nat.one_mul] at hle
  exact hle

/-- **Turns are bounded by the levels**: on each there are a sum, a term and a factor. -/
theorem Built.turns_le (h : Built A n rank k v) : v.turns ≤ 3 * n := by
  have hle := h.deepest_le ⟨0, 1, 1⟩
  simp only [Nat.mul_one, Nat.zero_mul, Nat.add_zero] at hle
  exact Nat.le_trans (Nat.le_add_right _ _) hle

/-- **The height is bounded by the levels and the operators** on the way to a leaf. -/
theorem Built.height_le (h : Built A n rank k v) : v.height ≤ n + k := by
  have hle := h.deepest_le ⟨1, 0, 1⟩
  simp only [Nat.mul_zero, Nat.add_zero, Nat.one_mul] at hle
  exact hle

end Grammar

/-! ## Operators of a text -/

/-- The tokens among some lexemes that join operands. -/
def signs (ls : List Lexeme) : Nat := ls.countP (Grammar.joins ·.token)

/-- **The operators of a text**, if it can be cut into lexemes. -/
def operators (file : Option String) (text : String) : Nat :=
  match Lexeme.read file text with
  | .ok (ls, _) => signs ls
  | .error _ => 0

namespace Grammar

variable {total : Nat}

/-- Operators that have been taken are no longer to come. -/
def spending (total : Nat) : Pace where
  At k p := p.finish.token = .finish ∧ k + signs p.rest ≤ total
  advance {k p} h := by
    refine ⟨by rw [Parser.finish_advance]; exact h.1, Nat.le_trans (Nat.add_le_add_left ?_ k) h.2⟩
    rw [Parser.rest_advance]
    exact List.Sublist.countP_le (List.tail_sublist p.rest)
  turn _ h := h
  spend {k p} hjoins h := by
    refine ⟨by rw [Parser.finish_advance]; exact h.1, ?_⟩
    have htotal := h.2
    rw [Parser.rest_advance]
    unfold Parser.current at hjoins
    cases hrest : p.rest with
    | nil =>
      rw [hrest] at hjoins
      dsimp only at hjoins
      rw [h.1] at hjoins
      cases hjoins
    | cons l ls =>
      rw [hrest] at hjoins htotal
      have hcount : signs (l :: ls) = signs ls + 1 := List.countP_cons_of_pos hjoins
      rw [List.tail_cons]
      omega

/-- Of a deferred expression nothing is kept but its text. -/
theorem defers_any {K : Pace} : Defers K fun _ _ => True := by
  intro n _ h span
  have hend (text : String) : Leads K (pure (Value.atom (.dyna text) span)) fun v _ =>
      ∃ a, v = Value.atom a span ∧ True := leads_pure ⟨_, rfl, trivial⟩
  refine passes_bump.then fun _ => (passes_sees _).then fun empty => ?_
  cases empty with
  | true => exact leads_fail_bind
  | false =>
    refine passes_get.then fun _ => h.bind fun _ _ _ => passes_get.then fun _ => ?_
    exact (passes_expect _ _).then fun _ => passes_get.then fun _ => hend _

/-- A value that is built with no more operators than the text has. -/
def BuiltWithin (total : Nat) (v : Value) : Prop :=
  ∃ k, k ≤ total ∧ Built (fun _ _ => True) maxNesting .sum k v

/-- An expression is built within the operators that were left, and takes its own. -/
theorem leads_builtWithin : Leads (spending total) expression fun v _ => BuiltWithin total v := by
  intro k p v q hp hrun
  obtain ⟨j, hq, hv⟩ := leads_expression (fun _ _ _ => trivial) defers_any k p v q hp hrun
  have htotal := hq.2
  exact ⟨j, hq, j, by omega, hv⟩

/-- A rule is no higher than its values, or one node higher. -/
theorem deepest_toValue_le {c : Count} {m : Nat} {r : Rule} (h : Holding (Value.deepest c · ≤ m) r)
    (hm : 1 ≤ m) (span : Span) : (r.toValue span).deepest c ≤ c.rule + m := by
  have hd : Value.deepestOption c r.fallback ≤ m :=
    Value.deepestOption_le_iff.mpr fun v hv => h v (.inl hv)
  have hlo : Value.deepestOption c r.lower ≤ m :=
    Value.deepestOption_le_iff.mpr fun v hv => h v (.inr (.inl hv))
  have hhi : Value.deepestOption c r.upper ≤ m :=
    Value.deepestOption_le_iff.mpr fun v hv => h v (.inr (.inr hv))
  rw [Rule.toValue, Value.deepest]
  omega

end Grammar

/-- **How high a value may be**, in a text with `total` operators.  `rules` is the number of rules that
    stand above its expressions: one for a rule, none for anything else. -/
structure Value.Low (rules total : Nat) (v : Value) : Prop where
  nesting : v.nesting ≤ maxNesting
  turns : v.turns ≤ rules + 3 * maxNesting
  height : v.height ≤ rules + (maxNesting + total)

namespace Grammar

/-- What is built with the operators of the text is low. -/
theorem BuiltWithin.low {v : Value} (h : BuiltWithin total v) : v.Low 0 total := by
  obtain ⟨k, hk, hv⟩ := h
  have hturns := hv.turns_le
  have hheight := hv.height_le
  exact ⟨hv.nesting_le, by omega, by omega⟩

/-- An expression is low without a rule above it. -/
theorem leads_low : Leads (spending total) expression fun v _ => v.Low 0 total :=
  leads_builtWithin.imp fun _ _ hv => hv.low

/-- A rule is low with one rule, itself, above its expressions. -/
theorem leads_lowRule : Leads (spending total) rule fun v _ => v.Low 1 total := by
  refine (leads_rule leads_low).imp ?_
  rintro v j ⟨r, span, rfl, hr⟩
  have hnesting : Holding (Value.deepest ⟨0, 0, 0⟩ · ≤ maxNesting) r := fun v hv => (hr v hv).nesting
  have hturns : Holding (Value.deepest ⟨0, 1, 1⟩ · ≤ 3 * maxNesting) r := fun v hv =>
    (hr v hv).turns.trans_eq (Nat.zero_add _)
  have hheight : Holding (Value.deepest ⟨1, 0, 1⟩ · ≤ maxNesting + total) r := fun v hv =>
    (hr v hv).height.trans_eq (Nat.zero_add _)
  exact ⟨(deepest_toValue_le hnesting (by decide) span).trans_eq (Nat.zero_add _),
    deepest_toValue_le hturns (by decide) span,
    deepest_toValue_le hheight (Nat.le_add_right_of_le (by decide)) span⟩

end Grammar

/-- No operator of a text has been taken before it is read. -/
theorem Parser.spending_of_ofSource {file : Option String} {text : String} {p : Parser}
    (h : ofSource file text = .ok p) : (Grammar.spending (operators file text)).At 0 p := by
  obtain ⟨ws, last, hfaces⟩ := faces_ofSource h
  obtain ⟨ls, finish, hread, rfl⟩ := ofSource_eq_ok h
  refine ⟨hfaces.finish, ?_⟩
  rw [operators, hread, Nat.zero_add]
  exact Nat.le_refl (signs ls)

/-- What an expression that stands alone is built of. -/
theorem Value.builtWithin_of_ofSource {text : String} {v : Value} (h : ofSource text = .ok v) :
    Grammar.BuiltWithin (operators none text) v := by
  unfold ofSource at h
  split at h
  next => cases h
  next p hp =>
    split at h
    next w q hrun =>
      cases h
      obtain ⟨-, -, hv⟩ := Grammar.leads_loneExpression Grammar.leads_builtWithin 0 p v q
        (Parser.spending_of_ofSource hp) hrun
      exact hv
    next => cases h

/-- The bounds for the values of a document, by where they stand. -/
theorem Document.low_of_ofSource {file : Option String} {text : String} {d : Document}
    (h : ofSource file text = .ok d) :
    d.Consists (Value.Low 1 (operators file text)) (Value.Low 0 (operators file text)) := by
  obtain ⟨p, q, hp, hrun⟩ := ofSource_eq_ok.mp h
  obtain ⟨-, -, hd⟩ := Grammar.leads_document Grammar.leads_low Grammar.leads_lowRule 0 p d q
    (Parser.spending_of_ofSource hp) hrun
  exact hd

/-- **How high the values of a text are.**  Whatever is read, an expression that stands alone or a property
    or an entry of a registry of a document: not counting operations it is nested at most as deeply as the
    parser allows; counting them on the way to their right operands only, it has three times as many nodes
    at most; and counting all nodes it is higher than that nesting by the operators of the text at most.
    The rules of a schema, which are its properties, have one node more than that in the last two counts.
    There are no other values in a document. -/
theorem heights_of_text (file : Option String) (text : String) :
    (∀ v, Value.ofSource text = .ok v → v.nesting ≤ maxNesting ∧ v.turns ≤ 3 * maxNesting ∧
      v.height ≤ maxNesting + operators none text) ∧
    ∀ d, Document.ofSource file text = .ok d →
      (∀ s ∈ d.sections.values, ∀ v ∈ s.contents, v.nesting ≤ maxNesting ∧ v.turns ≤ 3 * maxNesting ∧
        v.height ≤ maxNesting + operators file text) ∧
      (∀ s ∈ d.schemas.values, ∀ v ∈ s.registry, v.nesting ≤ maxNesting ∧ v.turns ≤ 3 * maxNesting ∧
        v.height ≤ maxNesting + operators file text) ∧
      (∀ s ∈ d.schemas.values, ∀ v ∈ s.properties.values, v.nesting ≤ maxNesting ∧
        v.turns ≤ 1 + 3 * maxNesting ∧ v.height ≤ 1 + (maxNesting + operators file text)) ∧
      d.macros = ∅ := by
  -- without a rule above it, a value has the bounds of an expression
  have hplain {total : Nat} {v : Value} (h : v.Low 0 total) :
      v.nesting ≤ maxNesting ∧ v.turns ≤ 3 * maxNesting ∧ v.height ≤ maxNesting + total :=
    ⟨h.nesting, h.turns.trans_eq (Nat.zero_add _), h.height.trans_eq (Nat.zero_add _)⟩
  constructor
  · intro v hv
    exact hplain (Value.builtWithin_of_ofSource hv).low
  · intro d hd
    have hlow := Document.low_of_ofSource hd
    refine ⟨fun s hs v hv => hplain (((hlow.sections s hs).mem_contents hv).elim id id),
      fun s hs v hv => hplain ((hlow.schemas s hs).registry v hv), fun s hs v hv => ?_, hlow.macros⟩
    obtain ⟨e, he, rfl⟩ := List.mem_map.mp hv
    have hrule := (hlow.schemas s hs).properties e he
    exact ⟨hrule.nesting, hrule.turns, hrule.height⟩

/-- An expression with all its operators on one level. -/
def flatText : String := "1 + 2 * -[3 - 4, (5)] - 6"

/-- A section and a schema with a rule and an entry of its registry. -/
def flatDocument : String :=
  "[S]\nx = 1 + 2\n+= 3 * 4\n[#schema]\n[S]\nx = !, int, min=1 - 2\n+= 5\n[#end_schema]\n"

/-- A flat expression, and a document with one in a section and in a schema. -/
theorem heights_of_text_flatText : (∃ v, Value.ofSource flatText = .ok v ∧ v.nesting ≤ maxNesting ∧
      v.turns ≤ 3 * maxNesting ∧ v.height ≤ maxNesting + operators none flatText) ∧
    ∃ d, Document.ofSource none flatDocument = .ok d ∧
      (∀ s ∈ d.sections.values, ∀ v ∈ s.contents, v.nesting ≤ maxNesting ∧ v.turns ≤ 3 * maxNesting ∧
        v.height ≤ maxNesting + operators none flatDocument) ∧
      (∀ s ∈ d.schemas.values, ∀ v ∈ s.registry, v.nesting ≤ maxNesting ∧ v.turns ≤ 3 * maxNesting ∧
        v.height ≤ maxNesting + operators none flatDocument) ∧
      (∀ s ∈ d.schemas.values, ∀ v ∈ s.properties.values, v.nesting ≤ maxNesting ∧
        v.turns ≤ 1 + 3 * maxNesting ∧ v.height ≤ 1 + (maxNesting + operators none flatDocument)) ∧
      d.macros = ∅ := by
  have hvalue : (Value.ofSource flatText).toOption.isSome := by decide +kernel
  have hdocument : (Document.ofSource none flatDocument).toOption.isSome := by decide +kernel
  obtain ⟨v, hv⟩ := Option.isSome_iff_exists.mp hvalue
  obtain ⟨d, hd⟩ := Option.isSome_iff_exists.mp hdocument
  have hv := eq_ok_of_toOption hv
  have hd := eq_ok_of_toOption hd
  exact ⟨⟨v, hv, (heights_of_text none flatText).1 v hv⟩, d, hd,
    (heights_of_text none flatDocument).2 d hd⟩

/-! ## Chains of any length -/

/-- The characters of ones with so many minus signs between them. -/
def difference : Nat → List Char
  | 0 => ['1']
  | n + 1 => difference n ++ ['-', '1']

/-- Their tree: each operator has all that stands before it on its left. -/
def differenceTree : Nat → Value
  | 0 => .atom (.int 1) .none
  | n + 1 => .binary (differenceTree n) .sub (.atom (.int 1) .none) .none

/-- A difference of differences is one node higher than its left operand. -/
theorem height_differenceTree (n : Nat) : (differenceTree n).height = n + 1 := by
  induction n with
  | zero => rfl
  | succ n ih =>
    have hone : Value.deepest ⟨1, 0, 1⟩ (.atom (.int 1) .none) = 1 := rfl
    have ih : Value.deepest ⟨1, 0, 1⟩ (differenceTree n) = n + 1 := ih
    show Value.deepest ⟨1, 0, 1⟩ (differenceTree (n + 1)) = n + 1 + 1
    rw [differenceTree, Value.deepest, ih, hone]
    show 1 + max (n + 1) (0 + 1) = n + 1 + 1
    omega

open Grammar in
/-- A difference of ones is read to its tree. -/
theorem ofSource_difference (n : Nat) : ∃ v, Value.ofSource (String.ofList (difference n)) = .ok v ∧
    v.bare = differenceTree n := by
  have hone : Shown ['1'] [⟨[], .number "1", ['1']⟩] :=
    shown_digits (List.cons_ne_nil _ _) fun c hc => by rw [List.mem_singleton.mp hc]; rfl
  have hterm : IsTerm (some maxNesting) [⟨[], .number "1", ['1']⟩] (.atom (.int 1) .none) :=
    (isFactor_number (d := some 127) rfl (by decide +kernel)).isTerm
  have hread : ∃ ws, Shown (difference n) ws ∧ IsExpression (some maxNesting) ws (differenceTree n) := by
    induction n with
    | zero => exact ⟨_, hone, hterm.isExpression⟩
    | succ n ih =>
      obtain ⟨ws, hws, hexpression⟩ := ih
      have hmore := hone.behind_mark (m := .minus) (by decide)
      exact ⟨_, hws.append hmore (quiet_cons (by decide) (by decide) _), .more hexpression rfl hterm⟩
  obtain ⟨ws, hws, hexpression⟩ := hread
  refine Value.ofSource_of_words ?_ (hws.cut quiet_nil) hexpression
  rw [String.toList_ofList, hws.written]

/-- **No number bounds the height of all values that are read**: a chain of operators is as high as it is
    long. -/
theorem Value.height_unbounded :
    ¬∃ bound, ∀ text v, Value.ofSource text = .ok v → v.height ≤ bound := by
  rintro ⟨bound, h⟩
  obtain ⟨v, hv, hbare⟩ := ofSource_difference bound
  have hheight : v.height = bound + 1 := by
    rw [← height_differenceTree, ← hbare]
    exact (Value.deepest_bare _ v).symm
  have hle := h _ v hv
  omega

end Yini
