import Yini.Proofs.Grammar.Factor
import Yini.Proofs.Grammar.Pace

/-!
How the values that are read are built.

`Built` follows the rules for expressions: one level for every container, every pair of parentheses and
every minus sign, and one operator for every operation on the way to a leaf.  Reading an expression gives
a value that is built with the levels that could still be opened and with the operators that were taken
(`leads_expression`).  What holds of each deferred expression as it is read is carried along.

So what is to be proved of values that are read is proved by induction on how they are built.
-/

namespace Yini.Grammar

variable {A : Atom → Span → Prop} {n k k' : Nat} {rank : Rank} {v : Value} {K : Pace}

/-- The places of a value in a chain of operations: the whole chain, one of its terms, or a factor. -/
inductive Rank where
  | sum
  | term
  | factor

/-- **How a value is built** of atoms with a property, with so many levels at most, and with so many
    operators at most on the way to a leaf. -/
inductive Built (A : Atom → Span → Prop) : Nat → Rank → Nat → Value → Prop
  | atom {n k : Nat} {a : Atom} {span : Span} (h : A a span) : Built A (n + 1) .factor k (.atom a span)
  | neg {n k : Nat} {v : Value} (span : Span) (h : Built A n .factor k v) :
      Built A (n + 1) .factor k (.neg v span)
  | sequence {n k : Nat} {items : List Value} (kind : SequenceKind) (span : Span)
      (h : ∀ v ∈ items, Built A n .sum k v) : Built A (n + 1) .factor k (.sequence kind items span)
  | record {n k : Nat} {fields : Entries Value} (kind : RecordKind) (span : Span)
      (h : ∀ e ∈ fields, Built A n .sum k e.2) : Built A (n + 1) .factor k (.record kind fields span)
  | group {n k : Nat} {v : Value} (h : Built A n .sum k v) : Built A (n + 1) .factor k v
  | one {n k : Nat} {v : Value} (h : Built A n .factor k v) : Built A n .term k v
  | multiply {n k : Nat} {l r : Value} (op : BinaryOp) (span : Span) (hl : Built A n .term k l)
      (hr : Built A n .factor k r) : Built A n .term (k + 1) (.binary l op r span)
  | whole {n k : Nat} {v : Value} (h : Built A n .term k v) : Built A n .sum k v
  | add {n k : Nat} {l r : Value} (op : BinaryOp) (span : Span) (hl : Built A n .sum k l)
      (hr : Built A n .term k r) : Built A n .sum (k + 1) (.binary l op r span)

/-- What is built with some operators is built with more of them as well. -/
theorem Built.mono (h : Built A n rank k v) (hk : k ≤ k') : Built A n rank k' v := by
  induction h generalizing k' with
  | atom h => exact .atom h
  | neg span _ ih => exact .neg span (ih hk)
  | sequence kind span _ ih => exact .sequence kind span fun v hv => ih v hv hk
  | record kind span _ ih => exact .record kind span fun e he => ih e he hk
  | group _ ih => exact .group (ih hk)
  | one _ ih => exact .one (ih hk)
  | whole _ ih => exact .whole (ih hk)
  | multiply op span _ _ ihl ihr =>
    obtain ⟨m, rfl⟩ : ∃ m, k' = m + 1 := ⟨k' - 1, by omega⟩
    have hm := Nat.le_of_succ_le_succ hk
    exact .multiply op span (ihl hm) (ihr hm)
  | add op span _ _ ihl ihr =>
    obtain ⟨m, rfl⟩ : ∃ m, k' = m + 1 := ⟨k' - 1, by omega⟩
    have hm := Nat.le_of_succ_le_succ hk
    exact .add op span (ihl hm) (ihr hm)

/-! ## Chains -/

theorem joins_of_termOp {t : Token} {op : BinaryOp} (h : termOp? t = some op) : joins t := by
  rw [joins, h]
  rfl

theorem joins_of_factorOp {t : Token} {op : BinaryOp} (h : factorOp? t = some op) : joins t := by
  rw [joins, h, Option.isSome_some, Bool.or_true]

section Chains

variable {op? : Token → Option BinaryOp} {operand : Grammar Value} {rank₀ rank₁ : Rank}
  (hop : ∀ {t op}, op? t = some op → joins t)
  (hone : ∀ {k v}, Built A n rank₀ k v → Built A n rank₁ k v)
  (hjoin : ∀ {k l r} op span, Built A n rank₁ k l → Built A n rank₀ k r →
    Built A n rank₁ (k + 1) (.binary l op r span))
  (h : Leads K operand fun v k => Built A n rank₀ k v)

include hop hjoin h

/-- Each operator of a chain is taken on the way, so the chain is built with as many. -/
theorem leads_chainFrom (bound : Nat) {left : Value} (hleft : Built A n rank₁ k left) :
    Leads K (chainFrom op? operand bound left) fun v j => Built A n rank₁ (k + j) v := by
  induction bound generalizing left k with
  | zero => exact leads_pure hleft
  | succ bound ih =>
    intro i p v q hp hrun
    rw [chainFrom, peek_eq] at hrun
    cases hsome : op? p.current.token with
    | none =>
      rw [hsome] at hrun
      cases hrun
      exact ⟨0, hp, hleft⟩
    | some op =>
      -- the operator is counted, and so is each one in its right operand
      rw [hsome] at hrun
      dsimp only at hrun
      rw [bump_bind] at hrun
      obtain ⟨right, q₁, hright, hrun⟩ := bind_eq_ok.mp hrun
      obtain ⟨j, hq₁, hr⟩ := h _ _ _ _ (K.spend (hop hsome) hp) hright
      have hbinary : Built A n rank₁ (k + j + 1) (.binary left op right left.span) :=
        hjoin op left.span (hleft.mono (Nat.le_add_right k j)) (hr.mono (Nat.le_add_left j k))
      obtain ⟨m, hq, hv⟩ := ih hbinary _ _ _ _ hq₁ hrun
      refine ⟨1 + j + m, ?_, ?_⟩
      · rwa [← Nat.add_assoc, ← Nat.add_assoc]
      · show Built A n rank₁ (k + (1 + j + m)) v
        have hcount : k + (1 + j + m) = k + j + 1 + m := by omega
        rwa [hcount]

include hone

/-- A chain is built of its operands, with one operator for each that joins them. -/
theorem leads_chain : Leads K (chain op? operand) fun v k => Built A n rank₁ k v :=
  h.bind fun _ _ hleft => passes_remaining.then fun bound => leads_chainFrom hop hjoin h bound (hone hleft)

end Chains

/-- **An expression is a sum of terms of factors.** -/
theorem leads_expressionOf {factor : Grammar Value} (h : Leads K factor fun v k => Built A n .factor k v) :
    Leads K (expressionOf factor) fun v k => Built A n .sum k v :=
  leads_chain joins_of_termOp .whole .add (leads_chain joins_of_factorOp .one .multiply h)

/-! ## Atoms -/

/-- What is built of atoms that are read without parentheses. -/
def Plain (A : Atom → Span → Prop) : Prop := ∀ (a : Atom) (span : Span), (∀ text, a ≠ .dyna text) → A a span

section Atoms

variable (hA : Plain A)

include hA

/-- An atom that is not deferred is built at once. -/
theorem leads_plain {a : Atom} {span : Span} (ha : ∀ text, a ≠ .dyna text) :
    Leads K (pure (.atom a span)) fun v k => Built A (n + 1) .factor k v :=
  leads_pure (.atom (hA a span ha))

theorem leads_number (digits : String) :
    Leads K (number digits) fun v k => Built A (n + 1) .factor k v := by
  unfold number
  cases ha : numberOf? digits with
  | none => exact leads_fail
  | some a =>
    refine passes_here.then fun span => passes_bump.then fun _ => leads_plain hA ?_
    rintro text rfl
    unfold numberOf? at ha
    dsimp only at ha
    split at ha
    · cases ha
    split at ha <;> cases ha

/-- A quoted text and a truth value are atoms. -/
theorem leads_literal {a : Atom} (ha : ∀ text, a ≠ .dyna text) :
    Leads K (literal a) fun v k => Built A (n + 1) .factor k v :=
  passes_here.then fun _ => passes_bump.then fun _ => leads_plain hA ha

theorem leads_hexColor : Leads K hexColor fun v k => Built A (n + 1) .factor k v := by
  refine passes_here.then fun _ => passes_bump.then fun _ => (passes_hexDigits 6 "").then fun digits => ?_
  cases colorOf? digits with
  | some c => exact leads_plain hA fun _ => Atom.noConfusion
  | none => exact passes_peek.then fun _ => leads_throw

/-- A reference to a macro or to a property is an atom. -/
theorem leads_atReference : Leads K atReference fun v k => Built A (n + 1) .factor k v := by
  refine passes_here.then fun _ => passes_bump.then fun _ => (passes_eat _).then fun braced => ?_
  cases braced with
  | true =>
    refine (passes_expectName _).then fun _ => (passes_expect _ _).then fun _ => ?_
    refine (passes_expectName _).then fun _ => (passes_expect _ _).then fun _ => ?_
    exact leads_plain hA fun _ => Atom.noConfusion
  | false => exact (passes_expectName _).then fun _ => leads_plain hA fun _ => Atom.noConfusion

/-- A reference to the environment is an atom. -/
theorem leads_environmentReference :
    Leads K environmentReference fun v k => Built A (n + 1) .factor k v := by
  refine passes_here.then fun _ => passes_bump.then fun _ => (passes_expect _ _).then fun _ => ?_
  refine (passes_expectName _).then fun _ => (passes_expect _ _).then fun _ => ?_
  exact leads_plain hA fun _ => Atom.noConfusion

/-- A reference to a text that is translated is an atom. -/
theorem leads_localizationReference :
    Leads K localizationReference fun v k => Built A (n + 1) .factor k v := by
  refine passes_here.then fun _ => passes_bump.then fun _ => (passes_expect _ _).then fun _ => ?_
  refine (passes_expectName _).then fun _ => passes_remaining.then fun bound => ?_
  refine (passes_keyParts bound _).then fun _ => (passes_expect _ _).then fun _ => ?_
  exact leads_plain hA fun _ => Atom.noConfusion

end Atoms

/-! ## Values with parts -/

section Parts

variable {expression : Grammar Value} (h : Leads K expression fun v k => Built A n .sum k v)

include h

/-- **The items of a list are built as expressions.**  Those that have been read stay built while the others
    are read, with the operators that these take besides. -/
theorem leads_itemsFrom (close : Mark) (bound : Nat) {before : List Value}
    (hbefore : ∀ v ∈ before, Built A n .sum k v) :
    Leads K (itemsFrom expression close bound before) fun vs j => ∀ v ∈ vs, Built A n .sum (k + j) v := by
  induction bound generalizing before k with
  | zero => exact leads_pure fun v hv => hbefore v (List.mem_reverse.mp hv)
  | succ bound ih =>
    refine (passes_sees close).then fun closed => ?_
    cases closed with
    | true => exact leads_pure fun v hv => hbefore v (List.mem_reverse.mp hv)
    | false =>
      refine h.bind fun v j hv => (passes_eat .comma).then fun more => ?_
      have hmore : ∀ u ∈ v :: before, Built A n .sum (k + j) u := by
        refine List.forall_mem_cons.mpr ⟨hv.mono (Nat.le_add_left j k), fun u hu => ?_⟩
        exact (hbefore u hu).mono (Nat.le_add_right k j)
      cases more with
      | true => exact (ih hmore).imp fun vs i hvs => by rwa [← Nat.add_assoc]
      | false => exact leads_pure fun u hu => hmore u (List.mem_reverse.mp hu)

/-- All items of a list are built as expressions. -/
theorem leads_items (close : Mark) :
    Leads K (items expression close) fun vs k => ∀ v ∈ vs, Built A n .sum k v :=
  passes_remaining.then fun bound =>
    (leads_itemsFrom (k := 0) h close (bound + 1) (List.forall_mem_nil _)).imp fun vs j hvs => by
      rwa [Nat.zero_add] at hvs

/-- An array is one level more than its items. -/
theorem leads_array : Leads K (array expression) fun v k => Built A (n + 1) .factor k v := by
  refine passes_here.then fun _ => passes_bump.then fun _ => (leads_items h _).bind fun vs j hvs => ?_
  exact (passes_expect _ _).then fun _ => leads_pure (.sequence _ _ hvs)

/-- **The values of fields are built as expressions.**  As with items, those that have been read stay built
    while the others are read. -/
theorem leads_fieldsFrom (bound : Nat) {before : Entries Value} (trailing : Bool)
    (hbefore : ∀ e ∈ before, Built A n .sum k e.2) :
    Leads K (fieldsFrom expression bound before trailing) fun r j =>
      ∀ e ∈ r.1, Built A n .sum (k + j) e.2 := by
  induction bound generalizing before trailing k with
  | zero => exact leads_pure hbefore
  | succ bound ih =>
    refine (passes_sees _).then fun closed => ?_
    cases closed with
    | true => exact leads_pure hbefore
    | false =>
      refine (passes_expectName _).then fun name => (passes_expect _ _).then fun _ => ?_
      refine h.bind fun v j hv => (passes_eat .comma).then fun more => ?_
      -- a field that is read again replaces the one before it, and either value is built
      have hmore : ∀ e ∈ before.insert name.1 v, Built A n .sum (k + j) e.2 := by
        intro e he
        rcases Entries.mem_insert he with he | rfl
        · exact (hbefore e he).mono (Nat.le_add_right k j)
        · exact hv.mono (Nat.le_add_left j k)
      cases more with
      | true =>
        refine (passes_sees _).then fun closed => (ih closed hmore).imp fun r i hr => ?_
        rwa [← Nat.add_assoc]
      | false => exact leads_pure hmore

/-- A map or a struct is one level more than the values of its fields. -/
theorem leads_record : Leads K (record expression) fun v k => Built A (n + 1) .factor k v := by
  refine passes_here.then fun _ => passes_bump.then fun _ => passes_remaining.then fun bound => ?_
  refine (leads_fieldsFrom (k := 0) h (bound + 1) false (List.forall_mem_nil _)).bind fun r j hr => ?_
  rw [Nat.zero_add] at hr
  exact (passes_expect _ _).then fun _ => leads_pure (.record _ _ hr)

/-- A set is one level more than its items, and so are parentheses. -/
theorem leads_groupOrSet :
    Leads K (groupOrSet expression) fun v k => Built A (n + 1) .factor k v := by
  refine passes_here.then fun _ => passes_bump.then fun _ => (passes_eat _).then fun empty => ?_
  cases empty with
  | true => exact leads_pure (.sequence _ _ (List.forall_mem_nil _))
  | false =>
    refine h.bind fun first j hfirst => (passes_eat _).then fun more => ?_
    cases more with
    | true =>
      refine (leads_items h _).bind fun vs i hvs => (passes_expect _ _).then fun _ => leads_pure ?_
      refine .sequence _ _ (List.forall_mem_cons.mpr ⟨hfirst.mono (Nat.le_add_right j _), ?_⟩)
      exact fun v hv => (hvs v hv).mono (Nat.le_add_left i j)
    | false => exact (passes_expect _ _).then fun _ => leads_pure (.group hfirst)

end Parts

/-- An atom that a constructor can make of its arguments. -/
def isMade : Atom → Bool
  | .color _ => true
  | .coord _ => true
  | .path _ => true
  | _ => false

/-- What a constructor makes is an atom of its own kind, or the sequence of its arguments. -/
theorem made_of_construct {name : String} {vs : List Value} {span : Span} (hv : construct name vs span = .ok v) :
    (∃ a : Atom, isMade a ∧ v = .atom a span) ∨ ∃ kind, v = .sequence kind vs span := by
  unfold construct at hv
  dsimp only at hv
  split at hv
  · -- a color
    split at hv
    · obtain ⟨as, -, hv⟩ := except_bind_eq_ok.mp hv
      split at hv <;> cases hv <;> exact .inl ⟨_, rfl, rfl⟩
    · cases hv
  split at hv
  · -- a point
    split at hv
    · obtain ⟨as, -, hv⟩ := except_bind_eq_ok.mp hv
      split at hv <;> cases hv <;> exact .inl ⟨_, rfl, rfl⟩
    · cases hv
  split at hv
  · -- a path
    split at hv
    · obtain ⟨as, -, hv⟩ := except_bind_eq_ok.mp hv
      split at hv <;> cases hv
      exact .inl ⟨_, rfl, rfl⟩
    · cases hv
  split at hv
  · cases hv; exact .inr ⟨_, rfl⟩
  split at hv
  · cases hv; exact .inr ⟨_, rfl⟩
  split at hv
  · cases hv; exact .inr ⟨_, rfl⟩
  · cases hv

/-! ## Nesting -/

/-- What is known of a deferred expression from reading its argument. -/
def Defers (K : Pace) (A : Atom → Span → Prop) : Prop :=
  ∀ n ≤ maxNesting, (Leads K (expressionOf (factor n)) fun v k => Built A n .sum k v) → ∀ span,
    Leads K (dyna (expressionOf (factor n)) span) fun v _ => ∃ a, v = .atom a span ∧ A a span

section Nesting

variable (hA : Plain A) (hdyna : Defers K A) (hn : n ≤ maxNesting)
  (h : Leads K (expressionOf (factor n)) fun v k => Built A n .sum k v)

include hA hdyna hn h

/-- What a constructor makes is an atom, or a sequence one level above its arguments. -/
theorem leads_constructor (name : String) (span : Span) :
    Leads K (constructor (expressionOf (factor n)) name span) fun v k => Built A (n + 1) .factor k v := by
  unfold constructor
  split
  · refine (hdyna n hn h span).imp ?_
    rintro v k ⟨a, rfl, ha⟩
    exact .atom ha
  · refine passes_bump.then fun _ => (leads_items h _).bind fun vs j hvs => (passes_expect _ _).then fun _ => ?_
    cases hv : construct name vs span with
    | error fault => exact leads_throw
    | ok v =>
      refine leads_pure ?_
      rcases made_of_construct hv with ⟨a, ha, rfl⟩ | ⟨kind, rfl⟩
      · refine .atom (hA a span ?_)
        rintro text rfl
        cases ha
      · exact .sequence kind span hvs

/-- What begins with a name is a constructor or an atom. -/
theorem leads_named (first : String) :
    Leads K (named (expressionOf (factor n)) first) fun v k => Built A (n + 1) .factor k v := by
  refine passes_here.then fun span => passes_bump.then fun _ => (passes_sees _).then fun called => ?_
  cases called with
  | true => exact leads_constructor hA hdyna hn h first span
  | false =>
    refine passes_remaining.then fun bound => (passes_nameParts bound first).then fun name => ?_
    refine (passes_sees _).then fun called => ?_
    cases called with
    | true => exact leads_fail_bind
    | false => exact leads_plain hA fun _ => Atom.noConfusion

/-- What begins a factor, but for a sign, is built one level above the expressions in it. -/
theorem leads_primary :
    Leads K (primary (expressionOf (factor n))) fun v k => Built A (n + 1) .factor k v := by
  rw [primary_eq]
  refine passes_peek.then fun t => ?_
  unfold primaryOf
  split
  · exact leads_number hA _
  · exact leads_literal hA fun _ => Atom.noConfusion
  · exact leads_literal hA fun _ => Atom.noConfusion
  · exact leads_array h
  · exact leads_record h
  · exact leads_groupOrSet h
  · exact leads_hexColor hA
  · exact leads_atReference hA
  · exact leads_environmentReference hA
  · exact leads_localizationReference hA
  · exact leads_named hA hdyna hn h _
  · exact leads_fail

end Nesting

section Whole

variable (hA : Plain A) (hdyna : Defers K A)

include hA hdyna

/-- **A factor is built with the levels that may be opened.**  The induction is on these: what stands inside
    a factor has one less. -/
theorem leads_factor (hn : n ≤ maxNesting) : Leads K (factor n) fun v k => Built A n .factor k v := by
  induction n with
  | zero => exact leads_fail
  | succ n ih =>
    have hn := Nat.le_of_succ_le hn
    have hneg (span : Span) :
        Leads K (do return .neg (← factor n) span) fun v k => Built A (n + 1) .factor k v :=
      (ih hn).bind fun _ _ hv => leads_pure (.neg span hv)
    refine (passes_sees _).then fun minus => ?_
    cases minus with
    | true =>
      refine passes_here.then fun span => passes_bump.then fun _ => passes_peek.then fun t => ?_
      cases t with
      | number digits =>
        -- the sign belongs to the digits of the least integer
        dsimp only
        split
        · exact passes_bump.then fun _ => leads_plain hA fun _ => Atom.noConfusion
        · exact hneg span
      | _ => exact hneg span
    | false => exact leads_primary hA hdyna hn (leads_expressionOf (ih hn))

/-- **What is read as an expression** is built with the levels that may be opened and the operators that
    are taken. -/
theorem leads_expression : Leads K expression fun v k => Built A maxNesting .sum k v :=
  leads_expressionOf (leads_factor hA hdyna (Nat.le_refl _))

end Whole

end Yini.Grammar
