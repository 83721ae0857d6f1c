import Yini.Proofs.Grammar.Run
import Yini.Proofs.Table
import Yini.Proofs.Value

/-!
Phrases: the words that an expression is made of, and the value that they stand for.

A phrase is known by what the grammar makes of it: words are a factor of a value (`IsFactor`) if, with
any gap before them and with anything behind them that does not continue a factor, a factor is read
off them and has that value, unless it is nested too deep.  How many levels are enough is the `Depth`
of the words, if that is known.  Terms and expressions are chains of factors.  For each form of a value
there is a lemma that makes a factor of its parts.

Values are compared without their places throughout.
-/

namespace Yini

/-- Whether an expression may begin with the token. -/
def Token.opensValue : Token → Bool
  | .ident _ => true
  | .string _ => true
  | .number _ => true
  | .bool _ => true
  | .mark m => m ∈ [.openBracket, .openBrace, .openParen, .hash, .atSign, .dollar, .percent, .minus]
  | .finish => false

/-- Whether the mark ends what another one has opened. -/
def Mark.closes : Mark → Bool
  | closeBracket => true
  | closeBrace => true
  | closeParen => true
  | _ => false

namespace Grammar

/-! ## Depth -/

/-- How many levels words take: that many at most, or any number. -/
abbrev Depth := Option Nat

namespace Depth

/-- The depth of words with one more level around them. -/
def deeper : Depth → Depth
  | none => none
  | some m => some (m + 1)

/-- Whether words of the depth may be too deep where `n` levels are left. -/
def Exceeds : Depth → Nat → Prop
  | none, _ => True
  | some m, n => n < m

/-- What is one level deeper is too deep where no level may be opened. -/
theorem exceeds_zero (d : Depth) : d.deeper.Exceeds 0 := by
  cases d with
  | none => trivial
  | some m => exact Nat.succ_pos m

/-- One level more is too much where one more may be opened, if the inside was too much. -/
theorem Exceeds.deeper {d : Depth} {n : Nat} (h : d.Exceeds n) : d.deeper.Exceeds (n + 1) := by
  cases d with
  | none => trivial
  | some m => exact Nat.succ_lt_succ h

end Depth

variable {k : Scene} {p q : Parser} {w : Word} {ws rest : List Word} {v : Value} {d : Depth}

/-! ## What may follow -/

/-- The text that a token adds to a color, or to a dotted name behind a point. -/
def piece? : Token → Option String
  | .number text => some text
  | .ident text => some text
  | _ => none

/-- The words do not continue a factor: no point and no parenthesis comes first, and no name or number
    without a gap. -/
structure Stops (rest : List Word) : Prop where
  point : front rest ≠ .mark .point
  paren : front rest ≠ .mark .openParen
  piece : ∀ w ws, rest = w :: ws → (piece? w.token).isSome → w.gap ≠ []

/-- The words do not continue a term. -/
structure EndsTerm (rest : List Word) : Prop extends Stops rest where
  factorOp : factorOp? (front rest) = none

/-- The words do not continue an expression. -/
structure EndsExpression (rest : List Word) : Prop extends EndsTerm rest where
  termOp : termOp? (front rest) = none

/-- Any mark but a point and a parenthesis stops a factor. -/
theorem stops_of_mark {m : Mark} (hw : w.token = .mark m) (hpoint : m ≠ .point) (hparen : m ≠ .openParen) :
    Stops (w :: rest) where
  point heq := hpoint (Token.mark.inj (hw.symm.trans heq))
  paren heq := hparen (Token.mark.inj (hw.symm.trans heq))
  piece w' ws heq hpiece := by
    cases heq
    rw [hw] at hpiece
    cases hpiece

theorem stops_of_factorOp {op : BinaryOp} (h : factorOp? w.token = some op) : Stops (w :: rest) := by
  unfold factorOp? at h
  split at h
  next hw => exact stops_of_mark hw (by decide) (by decide)
  next hw => exact stops_of_mark hw (by decide) (by decide)
  next hw => exact stops_of_mark hw (by decide) (by decide)
  next => cases h

theorem endsTerm_of_termOp {op : BinaryOp} (h : termOp? w.token = some op) : EndsTerm (w :: rest) := by
  unfold termOp? at h
  split at h
  next hw => exact ⟨stops_of_mark hw (by decide) (by decide), by rw [front_cons, hw]; rfl⟩
  next hw => exact ⟨stops_of_mark hw (by decide) (by decide), by rw [front_cons, hw]; rfl⟩
  next => cases h

/-- A mark that separates or closes ends an expression. -/
theorem ends_of_mark {m : Mark} (hw : w.token = .mark m)
    (hm : m ∉ [.point, .openParen, .plus, .minus, .star, .slash, .percent]) :
    EndsExpression (w :: rest) := by
  simp only [List.mem_cons, not_or] at hm
  obtain ⟨hpoint, hparen, hplus, hminus, hstar, hslash, hpercent, -⟩ := hm
  refine ⟨⟨stops_of_mark hw hpoint hparen, ?_⟩, ?_⟩
  · rw [front_cons, hw]
    cases m <;> first | rfl | contradiction
  · rw [front_cons, hw]
    cases m <;> first | rfl | contradiction

theorem ends_nil : EndsExpression [] :=
  ⟨⟨⟨Token.noConfusion, Token.noConfusion, fun _ _ h => by cases h⟩, rfl⟩, rfl⟩

/-! ## Factors, terms and expressions -/

/-- At any place the rule makes the value of the words, if what follows does not continue them. -/
def Yields (deep : Prop) (g : Grammar Value) (follow : List Word → Prop) (ws : List Word) (v : Value) :
    Prop :=
  ∀ {k p gap rest}, follow rest → p.Faces k (regap gap ws ++ rest) →
    Gives deep (fun u q => u.bare = v ∧ q.Faces k rest) (g p)

/-- **The words are a factor** of the value, with so many levels. -/
structure IsFactor (d : Depth) (ws : List Word) (v : Value) : Prop where
  opens : (front ws).opensValue
  yields : ∀ n, Yields (d.Exceeds n) (factor n) Stops ws v

/-- Phrases with operators between them, from the left. -/
inductive Chain (op? : Token → Option BinaryOp) (Operand : List Word → Value → Prop) :
    List Word → Value → Prop
  | one {ws : List Word} {v : Value} (h : Operand ws v) : Chain op? Operand ws v
  | more {ws ws' : List Word} {w : Word} {op : BinaryOp} {l r : Value} (hl : Chain op? Operand ws l)
      (hop : op? w.token = some op) (hr : Operand ws' r) :
      Chain op? Operand (ws ++ w :: ws') (.binary l op r .none)

/-- **The words are a term** of the value. -/
abbrev IsTerm (d : Depth) : List Word → Value → Prop := Chain factorOp? (IsFactor d)

/-- **The words are an expression** of the value. -/
abbrev IsExpression (d : Depth) : List Word → Value → Prop := Chain termOp? (IsTerm d)

theorem ne_nil_of_opens (h : (front ws).opensValue) : ws ≠ [] := by
  rintro rfl
  cases h

/-- What comes behind words does not change which one is in front. -/
theorem front_append (hne : ws ≠ []) (rest : List Word) : front (ws ++ rest) = front ws := by
  cases ws with
  | nil => exact absurd rfl hne
  | cons => rfl

/-- Only the gap of the first word is another one, whatever comes behind. -/
theorem regap_append (hne : ws ≠ []) (gap : List Char) (rest : List Word) :
    regap gap (ws ++ rest) = regap gap ws ++ rest := by
  cases ws with
  | nil => exact absurd rfl hne
  | cons => rfl

/-- A chain opens with its first operand. -/
theorem Chain.opens {op? : Token → Option BinaryOp} {Operand : List Word → Value → Prop}
    (h : Chain op? Operand ws v) (hopens : ∀ ws v, Operand ws v → (front ws).opensValue) :
    (front ws).opensValue := by
  induction h with
  | one h => exact hopens _ _ h
  | more _ _ _ ih => rwa [front_append (ne_nil_of_opens ih)]

theorem IsTerm.opens (h : IsTerm d ws v) : (front ws).opensValue :=
  Chain.opens h fun _ _ h => h.opens

theorem IsExpression.opens (h : IsExpression d ws v) : (front ws).opensValue :=
  Chain.opens h fun _ _ h => IsTerm.opens h

/-- Reading a chain comes to the end of the words, with their value on the left. -/
theorem Chain.gives {op? : Token → Option BinaryOp} {Operand : List Word → Value → Prop}
    {operand : Grammar Value} {follow : List Word → Prop} {deep : Prop} {Q : Value → Parser → Prop}
    (hopens : ∀ ws v, Operand ws v → (front ws).opensValue)
    (hoperand : ∀ ws v, Operand ws v → Yields deep operand follow ws v)
    (hop : ∀ w op rest, op? w.token = some op → follow (w :: rest)) (h : Chain op? Operand ws v)
    {gap : List Char} (hfollow : follow rest) (hp : p.Faces k (regap gap ws ++ rest))
    (hrest : ∀ left q m, left.bare = v → q.Faces k rest → rest.length ≤ m →
      Gives deep Q (chainFrom op? operand m left q)) : Gives deep Q (chain op? operand p) := by
  induction h generalizing rest with
  | one h =>
    refine (hoperand _ _ h hfollow hp).bind ?_
    rintro left q ⟨hleft, hq⟩
    rw [remaining_bind hq]
    exact hrest left q rest.length hleft hq (Nat.le_refl _)
  | @more ws ws' w op l r hl hsome hr ih =>
    have hne := ne_nil_of_opens (hl.opens hopens)
    -- the chain grows at its right end but is read from the left: what is left to read is handed to `ih`
    rw [regap_append hne, List.append_assoc, List.cons_append] at hp
    refine ih (hop w op _ hsome) hp fun left q m hleft hq hm => ?_
    obtain ⟨m, rfl⟩ := Nat.exists_eq_succ_of_ne_zero (n := m) (by
      rw [List.length_cons] at hm
      omega)
    obtain ⟨gap', hgap'⟩ := exists_regap ws'
    have hq' : q.advance.Faces k (regap gap' ws' ++ rest) := by
      rw [hgap']
      exact hq.advance
    rw [chainFrom, peek_bind hq, front_cons, hsome]
    refine (hoperand _ _ hr hfollow hq').bind ?_
    rintro right q' ⟨hright, hq'⟩
    refine hrest _ q' m (by rw [Value.bare, hleft, hright]) hq' ?_
    simp only [List.length_cons, List.length_append] at hm
    omega

/-- Where no operator follows, the chain is done. -/
theorem chainFrom_stop {op? : Token → Option BinaryOp} {operand : Grammar Value} (hp : p.Faces k rest)
    (hop : op? (front rest) = none) (m : Nat) (left : Value) :
    chainFrom op? operand m left p = .ok left p := by
  cases m with
  | zero => rfl
  | succ m => rw [chainFrom, peek_bind hp, hop]; rfl

/-- **A term is read to its value**, unless it is nested too deep. -/
theorem IsTerm.yields (h : IsTerm d ws v) (n : Nat) :
    Yields (d.Exceeds n) (chain factorOp? (factor n)) EndsTerm ws v := by
  intro k p gap rest hends hp
  refine Chain.gives (fun _ _ h => h.opens) (fun _ _ h => h.yields n)
    (fun w op rest hop => stops_of_factorOp hop) h hends.toStops hp fun left q m hleft hq _ => ?_
  rw [chainFrom_stop hq hends.factorOp]
  exact ⟨hleft, hq⟩

/-- **An expression is read to its value**, unless it is nested too deep. -/
theorem IsExpression.yields (h : IsExpression d ws v) (n : Nat) :
    Yields (d.Exceeds n) (expressionOf (factor n)) EndsExpression ws v := by
  intro k p gap rest hends hp
  refine Chain.gives (fun _ _ h => IsTerm.opens h) (fun _ _ h => IsTerm.yields h n)
    (fun w op rest hop => endsTerm_of_termOp hop) h hends.toEndsTerm hp fun left q m hleft hq _ => ?_
  rw [chainFrom_stop hq hends.termOp]
  exact ⟨hleft, hq⟩

/-- An expression is read at its own place. -/
theorem IsExpression.gives (h : IsExpression d ws v) (n : Nat) (hends : EndsExpression rest)
    (hp : p.Faces k (ws ++ rest)) :
    Gives (d.Exceeds n) (fun u q => u.bare = v ∧ q.Faces k rest) (expressionOf (factor n) p) := by
  obtain ⟨gap, hgap⟩ := exists_regap ws
  have hp' : p.Faces k (regap gap ws ++ rest) := by rwa [hgap]
  exact h.yields n hends hp'

theorem IsFactor.isTerm (h : IsFactor d ws v) : IsTerm d ws v := .one h

theorem IsTerm.isExpression (h : IsTerm d ws v) : IsExpression d ws v := .one h

theorem IsFactor.isExpression (h : IsFactor d ws v) : IsExpression d ws v := h.isTerm.isExpression

/-! ## More levels -/

/-- A chain stays one when its operands are of another kind as well. -/
theorem Chain.mono {op? : Token → Option BinaryOp} {Operand Operand' : List Word → Value → Prop}
    (h : Chain op? Operand ws v) (hoperand : ∀ ws v, Operand ws v → Operand' ws v) :
    Chain op? Operand' ws v := by
  induction h with
  | one h => exact .one (hoperand _ _ h)
  | more _ hop hr ih => exact .more ih hop (hoperand _ _ hr)

theorem IsFactor.mono {d' : Depth} (h : IsFactor d ws v) (hd : ∀ n, d.Exceeds n → d'.Exceeds n) :
    IsFactor d' ws v :=
  ⟨h.opens, fun n _ _ _ _ hstops hp => (h.yields n hstops hp).mono (hd n)⟩

theorem IsExpression.mono {d' : Depth} (h : IsExpression d ws v)
    (hd : ∀ n, d.Exceeds n → d'.Exceeds n) : IsExpression d' ws v :=
  Chain.mono h fun _ _ h => Chain.mono h fun _ _ h => h.mono hd

/-- An expression stays one when nothing is known of its nesting. -/
theorem IsExpression.any (h : IsExpression d ws v) : IsExpression none ws v :=
  h.mono fun _ _ => trivial

/-! ## Other gaps -/

theorem IsFactor.regap (h : IsFactor d ws v) (gap : List Char) : IsFactor d (regap gap ws) v where
  opens := by rw [front_regap]; exact h.opens
  yields n k p gap' rest hstops hp := h.yields n hstops (by rwa [regap_regap] at hp)

/-- A chain stays one behind another gap, if its first operand does. -/
theorem Chain.regap {op? : Token → Option BinaryOp} {Operand : List Word → Value → Prop}
    (hopens : ∀ ws v, Operand ws v → (front ws).opensValue)
    (hoperand : ∀ ws v, Operand ws v → Operand (regap gap ws) v) (h : Chain op? Operand ws v) :
    Chain op? Operand (Yini.regap gap ws) v := by
  induction h with
  | one h => exact .one (hoperand _ _ h)
  | more hl hop hr ih =>
    rw [regap_append (ne_nil_of_opens (hl.opens hopens))]
    exact .more ih hop hr

theorem IsTerm.regap (h : IsTerm d ws v) (gap : List Char) : IsTerm d (regap gap ws) v :=
  Chain.regap (fun _ _ h => h.opens) (fun _ _ h => h.regap gap) h

/-- An expression stays one behind another gap. -/
theorem IsExpression.regap (h : IsExpression d ws v) (gap : List Char) :
    IsExpression d (regap gap ws) v :=
  Chain.regap (fun _ _ h => IsTerm.opens h) (fun _ _ h => IsTerm.regap h gap) h

/-! ## Items and fields -/

/-- Expressions with commas between them; a comma may stand at the end. -/
inductive Items (d : Depth) : List Word → List Value → Prop
  | nil : Items d [] []
  | last {ws : List Word} {v : Value} (h : IsExpression d ws v) : Items d ws [v]
  | cons {ws ws' : List Word} {w : Word} {v : Value} {vs : List Value} (h : IsExpression d ws v)
      (hcomma : w.token = .mark .comma) (hrest : Items d ws' vs) : Items d (ws ++ w :: ws') (v :: vs)

/-- Fields with commas between them, with whether a comma stands before the first one and at the
    end. -/
inductive Fields (d : Depth) : Bool → List Word → Entries Value → Bool → Prop
  | nil (trailing : Bool) : Fields d trailing [] [] trailing
  | last {trailing : Bool} {name colon : Word} {key : String} {ws : List Word} {v : Value}
      (hname : name.token = .ident key) (hcolon : colon.token = .mark .colon)
      (h : IsExpression d ws v) : Fields d trailing (name :: colon :: ws) [(key, v)] trailing
  | cons {trailing trailing' : Bool} {name colon w : Word} {key : String} {ws ws' : List Word}
      {v : Value} {fields : Entries Value} (hname : name.token = .ident key)
      (hcolon : colon.token = .mark .colon) (h : IsExpression d ws v) (hcomma : w.token = .mark .comma)
      (hrest : Fields d ws'.isEmpty ws' fields trailing') :
      Fields d trailing (name :: colon :: (ws ++ w :: ws')) ((key, v) :: fields) trailing'

theorem front_ne_of_opens {m : Mark} (hclose : m.closes) (h : (front ws).opensValue) :
    front ws ≠ .mark m := by
  intro heq
  rw [heq] at h
  cases m <;> first | exact absurd hclose (by decide) | cases h

theorem ends_of_closes {m : Mark} (hclose : m.closes) (hw : w.token = .mark m) :
    EndsExpression (w :: rest) :=
  ends_of_mark hw (by cases m <;> first | exact absurd hclose (by decide) | decide)

theorem ends_of_comma (hw : w.token = .mark .comma) : EndsExpression (w :: rest) :=
  ends_of_mark hw (by decide)

theorem comma_ne_of_closes {m : Mark} (hclose : m.closes) : Token.mark m ≠ .mark .comma := by
  intro heq
  cases m <;> first | exact absurd hclose (by decide) | cases heq

/-- **The items of a list are read one after the other**, behind those that have been read, up to the
    closing mark.  The rounds are enough: each takes an item at least. -/
theorem Items.gives_from {vs : List Value} (h : Items d ws vs) {m : Mark} (hclose : m.closes)
    (hw : w.token = .mark m) (n : Nat) {bound : Nat} (hbound : ws.length < bound)
    (hp : p.Faces k (ws ++ w :: rest)) (before : List Value) :
    Gives (d.Exceeds n) (fun us q => us.map Value.bare = (before.reverse.map Value.bare) ++ vs ∧
      q.Faces k (w :: rest)) (itemsFrom (expressionOf (factor n)) m bound before p) := by
  induction h generalizing bound p before with
  | nil =>
    obtain ⟨bound, rfl⟩ := Nat.exists_eq_succ_of_ne_zero (Nat.ne_of_gt hbound)
    rw [List.nil_append] at hp
    rw [itemsFrom, sees_bind hp, front_cons, hw, if_pos (by simp)]
    exact ⟨(List.append_nil _).symm, hp⟩
  | @last ws v h =>
    obtain ⟨bound, rfl⟩ := Nat.exists_eq_succ_of_ne_zero (Nat.ne_zero_of_lt hbound)
    -- an item opens with something else than the closing mark, so another round begins
    have hfront : front (ws ++ w :: rest) ≠ .mark m := by
      rw [front_append (ne_nil_of_opens h.opens)]
      exact front_ne_of_opens hclose h.opens
    rw [itemsFrom, sees_bind hp, if_neg (by simpa using hfront)]
    refine (h.gives n (ends_of_closes hclose hw) hp).bind ?_
    rintro u q ⟨hu, hq⟩
    rw [eat_bind hq, front_cons, hw, if_neg (comma_ne_of_closes hclose)]
    exact ⟨by simp [hu], hq⟩
  | @cons ws ws' w' v vs h hcomma _ ih =>
    obtain ⟨bound, rfl⟩ := Nat.exists_eq_succ_of_ne_zero (Nat.ne_zero_of_lt hbound)
    have hne := ne_nil_of_opens h.opens
    have hfront : front (ws ++ w' :: ws' ++ w :: rest) ≠ .mark m := by
      rw [List.append_assoc, front_append hne]
      exact front_ne_of_opens hclose h.opens
    rw [itemsFrom, sees_bind hp, if_neg (by simpa using hfront)]
    rw [List.append_assoc, List.cons_append] at hp
    refine (h.gives n (ends_of_comma hcomma) hp).bind ?_
    rintro u q ⟨hu, hq⟩
    rw [eat_bind hq, front_cons, if_pos hcomma, if_pos rfl]
    have hbound' : ws'.length < bound := by
      simp only [List.length_append, List.length_cons] at hbound
      omega
    refine (ih hbound' hq.advance (u :: before)).imp ?_
    rintro us q' ⟨hus, hq'⟩
    refine ⟨?_, hq'⟩
    rw [hus, List.reverse_cons, List.map_append, List.append_assoc, List.map_singleton, hu]
    rfl

/-- **Items are read** up to the mark that closes them. -/
theorem Items.gives {vs : List Value} (h : Items d ws vs) {m : Mark} (hclose : m.closes)
    (hw : w.token = .mark m) (n : Nat) (hp : p.Faces k (ws ++ w :: rest)) :
    Gives (d.Exceeds n) (fun us q => us.map Value.bare = vs ∧ q.Faces k (w :: rest))
      (items (expressionOf (factor n)) m p) := by
  have hbound : ws.length < (ws ++ w :: rest).length + 1 := by
    rw [List.length_append]
    omega
  rw [items, remaining_bind hp]
  exact h.gives_from hclose hw n hbound hp []

theorem bareFields_insert (fields : Entries Value) (key : String) (v : Value) :
    Value.bareFields (fields.insert key v) = Entries.insert (Value.bareFields fields) key v.bare := by
  rw [Value.bareFields_eq_map, Value.bareFields_eq_map, Entries.map_insert]

/-- The brace that closes the fields comes next exactly if there are none. -/
theorem Fields.isEmpty_eq {trailing trailing' : Bool} {fields : Entries Value}
    (h : Fields d trailing ws fields trailing') (hend : ws = [] → front rest = .mark .closeBrace) :
    decide (front (ws ++ rest) = .mark .closeBrace) = ws.isEmpty := by
  cases h with
  | nil => exact decide_eq_true (hend rfl)
  | last hname => exact decide_eq_false (by rw [List.cons_append, front_cons, hname]; simp)
  | cons hname => exact decide_eq_false (by rw [List.cons_append, front_cons, hname]; simp)

/-- **Fields are read one after the other** into those that have been read, up to the brace.  The rounds are
    enough: each takes a key at least. -/
theorem Fields.gives_from {trailing trailing' : Bool} {fields : Entries Value}
    (h : Fields d trailing ws fields trailing') (hw : w.token = .mark .closeBrace) (n : Nat) {bound : Nat}
    (hbound : ws.length < bound) (hp : p.Faces k (ws ++ w :: rest)) (before : Entries Value) :
    Gives (d.Exceeds n) (fun r q => Value.bareFields r.1 = Entries.insertAll (Value.bareFields before) fields ∧
      r.2 = trailing' ∧ q.Faces k (w :: rest))
        (fieldsFrom (expressionOf (factor n)) bound before trailing p) := by
  induction h generalizing bound p before with
  | nil trailing =>
    obtain ⟨bound, rfl⟩ := Nat.exists_eq_succ_of_ne_zero (Nat.ne_of_gt hbound)
    rw [List.nil_append] at hp
    rw [fieldsFrom, sees_bind hp, front_cons, hw, if_pos (by simp)]
    exact ⟨rfl, rfl, hp⟩
  | @last trailing name colon key ws v hname hcolon h =>
    obtain ⟨bound, rfl⟩ := Nat.exists_eq_succ_of_ne_zero (Nat.ne_zero_of_lt hbound)
    rw [List.cons_append, List.cons_append] at hp
    rw [fieldsFrom, sees_bind hp, front_cons, hname, if_neg (by simp),
      expectName_bind hp (by rw [front_cons, hname])]
    dsimp only
    rw [expect_bind hp.advance, front_cons, if_pos hcolon]
    refine (h.gives n (ends_of_closes rfl hw) hp.advance.advance).bind ?_
    rintro u q ⟨hu, hq⟩
    rw [eat_bind hq, front_cons, hw, if_neg (by simp)]
    refine ⟨?_, rfl, hq⟩
    show Value.bareFields (before.insert key u) = Entries.insert (Value.bareFields before) key v
    rw [bareFields_insert, hu]
  | @cons trailing trailing' name colon w' key ws ws' v fields hname hcolon h hcomma hrest ih =>
    obtain ⟨bound, rfl⟩ := Nat.exists_eq_succ_of_ne_zero (Nat.ne_zero_of_lt hbound)
    rw [List.cons_append, List.cons_append, List.append_assoc, List.cons_append] at hp
    rw [fieldsFrom, sees_bind hp, front_cons, hname, if_neg (by simp),
      expectName_bind hp (by rw [front_cons, hname])]
    dsimp only
    rw [expect_bind hp.advance, front_cons, if_pos hcolon]
    refine (h.gives n (ends_of_comma hcomma) hp.advance.advance).bind ?_
    rintro u q ⟨hu, hq⟩
    rw [eat_bind hq, front_cons, if_pos hcomma, if_pos rfl, sees_bind hq.advance]
    have hbound' : ws'.length < bound := by
      simp only [List.length_append, List.length_cons] at hbound
      omega
    -- whether the comma is the last lexeme before the brace is what tells a map from a struct
    rw [hrest.isEmpty_eq fun _ => show front (w :: rest) = _ from hw]
    refine (ih hbound' hq.advance (before.insert key u)).imp ?_
    rintro r q' ⟨hr, ht, hq'⟩
    refine ⟨?_, ht, hq'⟩
    rw [hr, bareFields_insert, hu]
    rfl

/-- **Fields are read** up to the closing brace. -/
theorem Fields.gives {trailing : Bool} {fields : Entries Value} (h : Fields d false ws fields trailing)
    (hw : w.token = .mark .closeBrace) (n : Nat) (hp : p.Faces k (ws ++ w :: rest)) {bound : Nat}
    (hbound : bound = (ws ++ w :: rest).length + 1) :
    Gives (d.Exceeds n) (fun r q => Value.bareFields r.1 = Entries.ofList fields ∧ r.2 = trailing ∧
      q.Faces k (w :: rest)) (fieldsFrom (expressionOf (factor n)) bound [] false p) := by
  have hbound : ws.length < bound := by
    rw [hbound, List.length_append]
    omega
  exact h.gives_from hw n hbound hp []

end Grammar

end Yini
