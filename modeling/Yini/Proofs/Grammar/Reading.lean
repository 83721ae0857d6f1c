import Yini.Proofs.Grammar.Legible
import Yini.Proofs.Table

/-!
What the grammar reads.

Whatever a rule for values takes off the front of some words is a phrase of the value that it gives,
and the value is legible (`takes_expression`).  So words that were read once are read to the same
value at any other place.
-/

namespace Yini.Grammar

variable {k : Scene} {p q : Parser} {w : Word} {ws rest : List Word} {v : Value} {d : Depth}

/-- The words are a factor of a legible value, whatever its places are. -/
def ReadFactor (d : Depth) (ws : List Word) (v : Value) : Prop := IsFactor d ws v.bare ∧ v.Legible true

/-- The words are an expression of a legible value. -/
def ReadExpression (d : Depth) (ws : List Word) (v : Value) : Prop := IsExpression d ws v.bare ∧ v.Legible true

/-! ## Chains -/

section Chains

variable {op? : Token → Option BinaryOp} {Operand : List Word → Value → Prop} {operand : Grammar Value}

/-- **A chain is read as one.**  What has been read before is a chain, and each round makes it longer by an
    operator and an operand. -/
theorem takes_chainFrom (h : Takes operand fun ws v => Operand ws v.bare ∧ v.Legible true)
    (hop : op? .finish = none) {n : Nat} {left : Value} {before : List Word}
    (hleft : Chain op? Operand before left.bare) (hlegible : left.Legible true) :
    Takes (chainFrom op? operand n left) fun ws v =>
      Chain op? Operand (before ++ ws) v.bare ∧ v.Legible true := by
  induction n generalizing left before with
  | zero =>
    intro k p ws v q hp hrun
    cases hrun
    exact ⟨[], ws, rfl, hp, by rwa [List.append_nil], hlegible⟩
  | succ n ih =>
    intro k p ws v q hp hrun
    rw [chainFrom, peek_bind hp] at hrun
    cases hsome : op? (front ws) with
    | none =>
      rw [hsome] at hrun
      cases hrun
      exact ⟨[], ws, rfl, hp, by rwa [List.append_nil], hlegible⟩
    | some op =>
      rw [hsome] at hrun
      have hne : front ws ≠ .finish := fun heq => by
        rw [heq, hop] at hsome
        cases hsome
      obtain ⟨w, ws, rfl, hw⟩ := cons_of_front rfl hne
      dsimp only at hrun
      rw [bump_bind] at hrun
      obtain ⟨right, q₁, hright, hrun⟩ := bind_eq_ok.mp hrun
      obtain ⟨used, rest, rfl, hq₁, hoperand, hlegible'⟩ := h hp.advance hright
      -- what has been read and this operand are a chain, on which the other rounds build
      have hmore : Chain op? Operand (before ++ w :: used)
          (Value.bare (.binary left op right left.span)) := .more hleft hsome hoperand
      obtain ⟨used', rest', rfl, hq, hchain, hv⟩ := ih hmore (.binary hlegible hlegible') hq₁ hrun
      refine ⟨w :: (used ++ used'), rest', by simp, hq, ?_, hv⟩
      rwa [List.append_assoc, List.cons_append] at hchain

/-- What is read off the words is a chain of operands. -/
theorem takes_chain (h : Takes operand fun ws v => Operand ws v.bare ∧ v.Legible true)
    (hop : op? .finish = none) :
    Takes (chain op? operand) fun ws v => Chain op? Operand ws v.bare ∧ v.Legible true := by
  intro k p ws v q hp hrun
  obtain ⟨left, q₁, hleft, hrun⟩ := bind_eq_ok.mp hrun
  obtain ⟨used, rest, rfl, hq₁, hoperand, hlegible⟩ := h hp hleft
  rw [remaining_bind hq₁] at hrun
  obtain ⟨used', rest', rfl, hq, hchain, hv⟩ :=
    takes_chainFrom h hop (.one hoperand) hlegible hq₁ hrun
  exact ⟨used ++ used', rest', by rw [List.append_assoc], hq, hchain, hv⟩

end Chains

/-- What is read as an expression is a phrase of the value. -/
theorem takes_expressionOf {factor : Grammar Value} (h : Takes factor (ReadFactor d)) :
    Takes (expressionOf factor) (ReadExpression d) :=
  takes_chain (takes_chain h rfl) rfl

/-! ## Items and fields -/

/-- Places can be taken away before or after fields are inserted. -/
theorem bareFields_insertAll (es new : Entries Value) :
    Value.bareFields (es.insertAll new) = Entries.insertAll (Value.bareFields es) (Value.bareFields new) := by
  induction new generalizing es with
  | nil => rfl
  | cons e new ih =>
    show Value.bareFields (Entries.insertAll (es.insert e.1 e.2) new) = _
    rw [ih, bareFields_insert]
    rfl

section Parts

variable {expression : Grammar Value} (h : Takes expression (ReadExpression d))

include h

/-- **Items are read as items.**  The induction is on the rounds: each takes one item, which comes behind
    those that have been read, and the others are a list again. -/
theorem takes_itemsFrom {close : Mark} {bound : Nat} {before vs : List Value} (hp : p.Faces k ws)
    (hrun : itemsFrom expression close bound before p = .ok vs q) :
    ∃ used rest us, ws = used ++ rest ∧ q.Faces k rest ∧ vs = before.reverse ++ us ∧
      Items d used (us.map Value.bare) ∧ ∀ u ∈ us, u.Legible true := by
  have hnone : ∀ vs : List Value, vs = vs ++ [] ∧ ∀ u ∈ ([] : List Value), u.Legible true :=
    fun vs => ⟨(List.append_nil vs).symm, fun _ hu => absurd hu List.not_mem_nil⟩
  induction bound generalizing before p ws with
  | zero =>
    cases hrun
    exact ⟨[], ws, [], rfl, hp, (hnone _).1, .nil, (hnone []).2⟩
  | succ bound ih =>
    rw [itemsFrom, sees_bind hp] at hrun
    split at hrun
    next =>
      cases hrun
      exact ⟨[], ws, [], rfl, hp, (hnone _).1, .nil, (hnone []).2⟩
    next =>
      obtain ⟨v, q₁, hv, hrun⟩ := bind_eq_ok.mp hrun
      obtain ⟨used, rest, rfl, hq₁, hexpression, hlegible⟩ := h hp hv
      -- a comma leads to another round, in which the list may end at once; without one it ends here
      rcases eat_cases hq₁ hrun with ⟨w, rest, rfl, hw, hq₂, hrun⟩ | ⟨-, hrun⟩
      · obtain ⟨used', rest', us, rfl, hq, rfl, hitems, hus⟩ := ih hq₂ hrun
        refine ⟨used ++ w :: used', rest', v :: us, by simp, hq, by simp,
          .cons hexpression hw hitems, ?_⟩
        exact List.forall_mem_cons.mpr ⟨hlegible, hus⟩
      · cases hrun
        refine ⟨used, rest, [v], rfl, hq₁, by simp, .last hexpression, ?_⟩
        exact List.forall_mem_cons.mpr ⟨hlegible, (hnone []).2⟩

/-- What is read up to a closing mark are items. -/
theorem takes_items (close : Mark) : Takes (items expression close) fun ws vs =>
    Items d ws (vs.map Value.bare) ∧ ∀ v ∈ vs, v.Legible true := by
  intro k p ws vs q hp hrun
  rw [items, remaining_bind hp] at hrun
  obtain ⟨used, rest, us, rfl, hq, rfl, hitems, hus⟩ := takes_itemsFrom h hp hrun
  exact ⟨used, rest, rfl, hq, hitems, hus⟩

/-- **Fields are read as fields.**  The induction is on the rounds: each inserts one field into those that
    have been read, and the others are fields again, with or without a comma at the end. -/
theorem takes_fieldsFrom {bound : Nat} {before fields : Entries Value} {trailing trailing' : Bool}
    (hp : p.Faces k ws) (hbound : ws.length < bound)
    (hrun : fieldsFrom expression bound before trailing p = .ok (fields, trailing') q) :
    ∃ used rest new, ws = used ++ rest ∧ q.Faces k rest ∧ fields = Entries.insertAll before new ∧
      Fields d trailing used (Value.bareFields new) trailing' ∧
        (used = [] → front rest = .mark .closeBrace) ∧ ∀ e ∈ new, IsName e.1 ∧ e.2.Legible true := by
  have hnone : ∀ e ∈ ([] : Entries Value), IsName e.1 ∧ e.2.Legible true := List.forall_mem_nil _
  induction bound generalizing before p ws trailing with
  | zero => exact absurd hbound (Nat.not_lt_zero _)
  | succ bound ih =>
    rw [fieldsFrom, sees_bind hp] at hrun
    split at hrun
    next hclose =>
      cases hrun
      exact ⟨[], ws, [], rfl, hp, rfl, .nil _, fun _ => by simpa using hclose, hnone⟩
    next =>
      obtain ⟨name, ws, key, span, rfl, hname, hp₁, hrun⟩ := expectName_ok hp hrun
      obtain ⟨last, hcut⟩ : ∃ last, Cut (name :: ws) last := ⟨_, hp.cut⟩
      have hkey := isName_of_cut hcut hname
      dsimp only at hrun
      obtain ⟨colon, ws, rfl, hcolon, hp₂, hrun⟩ := expect_ok hp₁ hrun
      obtain ⟨v, q₁, hv, hrun⟩ := bind_eq_ok.mp hrun
      obtain ⟨used, rest, rfl, hq₁, hexpression, hlegible⟩ := h hp₂ hv
      rcases eat_cases hq₁ hrun with ⟨w, rest, rfl, hw, hq₂, hrun⟩ | ⟨-, hrun⟩
      · rw [if_pos rfl, sees_bind hq₂] at hrun
        have hbound' : rest.length < bound := by
          simp only [List.length_cons, List.length_append] at hbound
          omega
        obtain ⟨used', rest', new, rfl, hq, rfl, hfields, hend, hnew⟩ := ih hq₂ hbound' hrun
        -- the fields are at their end exactly if the closing brace has been seen
        rw [hfields.isEmpty_eq hend] at hfields
        refine ⟨name :: colon :: (used ++ w :: used'), rest', (key, v) :: new, by simp, hq, rfl,
          .cons hname hcolon hexpression hw hfields, fun h => absurd h (List.cons_ne_nil _ _), ?_⟩
        exact List.forall_mem_cons.mpr ⟨⟨hkey, hlegible⟩, hnew⟩
      · cases hrun
        refine ⟨name :: colon :: used, rest, [(key, v)], rfl, hq₁, rfl,
          .last hname hcolon hexpression, fun h => absurd h (List.cons_ne_nil _ _), ?_⟩
        exact List.forall_mem_cons.mpr ⟨⟨hkey, hlegible⟩, hnone⟩

end Parts

/-! ## Colors and dotted names -/

/-- What is read are pieces of a color, as long as they stand together. -/
theorem takes_hexDigits {n : Nat} {digits : String} : Takes (hexDigits n digits) (HexPieces n digits) := by
  intro k p ws all q hp hrun
  induction n generalizing digits p ws with
  | zero =>
    cases hrun
    exact ⟨[], ws, rfl, hp, .stop 0 _⟩
  | succ n ih =>
    rw [hexDigits_succ, hp.token] at hrun
    split at hrun
    next text hsome =>
      split at hsome
      next hmore =>
        have hne : front ws ≠ .finish := fun heq => by rw [heq] at hsome; cases hsome
        obtain ⟨w, ws, rfl, hw⟩ := cons_of_front rfl hne
        rw [hp.isAdjacent, Bool.and_eq_true, decide_eq_true_eq, List.isEmpty_iff] at hmore
        obtain ⟨used, rest, rfl, hq, hpieces⟩ := ih hp.advance hrun
        exact ⟨w :: used, rest, rfl, hq, .more hmore.1 hmore.2 hsome hpieces⟩
      next => cases hsome
    next =>
      cases hrun
      exact ⟨[], ws, rfl, hp, .stop (n + 1) _⟩

/-- What is read are parts of a key behind points, and a key with points in it stays one. -/
theorem takes_keyParts {bound : Nat} {key : String} :
    Takes (keyParts bound key) fun ws all => DottedParts name? key ws all ∧ (Dotted key → Dotted all) := by
  intro k p ws all q hp hrun
  induction bound generalizing key p ws with
  | zero =>
    cases hrun
    exact ⟨[], ws, rfl, hp, .nil _, id⟩
  | succ bound ih =>
    rw [keyParts] at hrun
    rcases eat_cases hp hrun with ⟨point, ws, rfl, hpoint, hp₁, hrun⟩ | ⟨-, hrun⟩
    · rw [if_pos rfl] at hrun
      obtain ⟨w, ws, part, span, rfl, hw, hp₂, hrun⟩ := expectName_ok hp₁ hrun
      obtain ⟨used, rest, rfl, hq, hparts, hdotted⟩ := ih hp₂ hrun
      refine ⟨point :: w :: used, rest, rfl, hq, .cons hpoint (by rw [hw]; rfl) hparts, fun hkey => ?_⟩
      exact hdotted (.more hkey (isName_of_cut hp₁.cut hw))
    · cases hrun
      exact ⟨[], ws, rfl, hp, .nil _, id⟩

/-- What is read are parts of a name behind points. -/
theorem takes_nameParts {bound : Nat} {name : String} :
    Takes (nameParts bound name) (DottedParts piece? name) := by
  intro k p ws all q hp hrun
  induction bound generalizing name p ws with
  | zero =>
    cases hrun
    exact ⟨[], ws, rfl, hp, .nil _⟩
  | succ bound ih =>
    rw [nameParts_succ hp] at hrun
    split at hrun
    next text hsome =>
      split at hsome
      next hpoint =>
        obtain ⟨point, ws, rfl, hpoint⟩ := cons_of_front hpoint Token.noConfusion
        rw [List.tail_cons] at hsome
        have hne : front ws ≠ .finish := fun heq => by rw [heq] at hsome; cases hsome
        obtain ⟨w, ws, rfl, hw⟩ := cons_of_front rfl hne
        obtain ⟨used, rest, rfl, hq, hparts⟩ := ih hp.advance.advance hrun
        exact ⟨point :: w :: used, rest, rfl, hq, .cons hpoint hsome hparts⟩
      next => cases hsome
    next =>
      cases hrun
      exact ⟨[], ws, rfl, hp, .nil _⟩

/-! ## References -/

/-- What is read behind `@` is a reference to a macro or to a property. -/
theorem takes_atReference (hw : w.token = .mark .atSign) (hp : p.Faces k (w :: ws))
    (hrun : atReference p = .ok v q) :
    ∃ used rest, w :: ws = used ++ rest ∧ q.Faces k rest ∧ ReadFactor d.deeper used v := by
  rw [atReference, here_bind, bump_bind] at hrun
  have hp₁ := hp.advance
  rcases eat_cases hp₁ hrun with ⟨brace, ws, rfl, hbrace, hp₂, hrun⟩ | ⟨-, hrun⟩
  · rw [if_pos rfl] at hrun
    obtain ⟨first, ws, name, _, rfl, hfirst, hp₃, hrun⟩ := expectName_ok hp₂ hrun
    obtain ⟨point, ws, rfl, hpoint, hp₄, hrun⟩ := expect_ok hp₃ hrun
    obtain ⟨second, ws, key, _, rfl, hsecond, hp₅, hrun⟩ := expectName_ok hp₄ hrun
    obtain ⟨close, ws, rfl, hclose, hp₆, hrun⟩ := expect_ok hp₅ hrun
    cases hrun
    refine ⟨[w, brace, first, point, second, close], ws, rfl, hp₆,
      isFactor_property hw hbrace hfirst hpoint hsecond hclose, .atom ?_⟩
    exact ⟨name, key, isName_of_cut hp₂.cut hfirst, isName_of_cut hp₄.cut hsecond, rfl⟩
  · rw [if_neg (by simp)] at hrun
    obtain ⟨name, ws, target, _, rfl, hname, hp₂, hrun⟩ := expectName_ok hp₁ hrun
    cases hrun
    exact ⟨[w, name], ws, rfl, hp₂, isFactor_macro hw hname, .atom (isName_of_cut hp₁.cut hname)⟩

/-- What is read behind `$` is a reference to the environment. -/
theorem takes_environmentReference (hw : w.token = .mark .dollar) (hp : p.Faces k (w :: ws))
    (hrun : environmentReference p = .ok v q) :
    ∃ used rest, w :: ws = used ++ rest ∧ q.Faces k rest ∧ ReadFactor d.deeper used v := by
  rw [environmentReference, here_bind, bump_bind] at hrun
  obtain ⟨brace, ws, rfl, hbrace, hp₁, hrun⟩ := expect_ok hp.advance hrun
  obtain ⟨name, ws, target, _, rfl, hname, hp₂, hrun⟩ := expectName_ok hp₁ hrun
  obtain ⟨close, ws, rfl, hclose, hp₃, hrun⟩ := expect_ok hp₂ hrun
  cases hrun
  exact ⟨[w, brace, name, close], ws, rfl, hp₃, isFactor_environment hw hbrace hname hclose,
    .atom (isName_of_cut hp₁.cut hname)⟩

/-- What is read behind `%` is a reference to a text that is translated. -/
theorem takes_localizationReference (hw : w.token = .mark .percent) (hp : p.Faces k (w :: ws))
    (hrun : localizationReference p = .ok v q) :
    ∃ used rest, w :: ws = used ++ rest ∧ q.Faces k rest ∧ ReadFactor d.deeper used v := by
  rw [localizationReference, here_bind, bump_bind] at hrun
  obtain ⟨brace, ws, rfl, hbrace, hp₁, hrun⟩ := expect_ok hp.advance hrun
  obtain ⟨first, ws, name, _, rfl, hfirst, hp₂, hrun⟩ := expectName_ok hp₁ hrun
  dsimp only at hrun
  rw [remaining_bind hp₂] at hrun
  obtain ⟨key, q₁, hkey, hend⟩ := bind_eq_ok.mp hrun
  obtain ⟨used, rest, rfl, hq₁, hparts, hdotted⟩ := takes_keyParts hp₂ hkey
  obtain ⟨close, rest, rfl, hclose, hq₂, hend⟩ := expect_ok hq₁ hend
  cases hend
  refine ⟨w :: brace :: first :: (used ++ [close]), rest, by simp, hq₂,
    isFactor_localization hw hbrace hfirst hparts hclose, .atom ?_⟩
  exact hdotted (.one (isName_of_cut hp₁.cut hfirst))

theorem takes_hexColor (hw : w.token = .mark .hash) (hp : p.Faces k (w :: ws))
    (hrun : hexColor p = .ok v q) :
    ∃ used rest, w :: ws = used ++ rest ∧ q.Faces k rest ∧ ReadFactor d.deeper used v := by
  rw [hexColor, here_bind, bump_bind] at hrun
  obtain ⟨digits, q₁, hdigits, hrun⟩ := bind_eq_ok.mp hrun
  obtain ⟨used, rest, rfl, hq₁, hpieces⟩ := takes_hexDigits hp.advance hdigits
  cases hc : colorOf? digits with
  | none =>
    rw [hc] at hrun
    cases hrun
  | some c =>
    rw [hc] at hrun
    cases hrun
    exact ⟨w :: used, rest, rfl, hq₁, isFactor_hexColor hw hpieces hc, .atom trivial⟩

/-! ## Numbers and constructors -/

/-- A quotient without a sign is rounded to a float without a sign. -/
theorem unsigned_ofRatio (num den : Nat) : (Binary32.ofRatio false num den).Unsigned := by
  have hbound : ∀ n, n < Nat.pow 2 31 → (⟨UInt32.ofNat n⟩ : Binary32).Unsigned := by
    intro n hn
    rw [Binary32.Unsigned, UInt32.toNat_ofNat']
    exact Nat.lt_of_le_of_lt (Nat.mod_le n _) hn
  unfold Binary32.ofRatio
  split
  · exact hbound 0 (by decide)
  · dsimp only
    split
    · exact hbound 0x7F800000 (by decide)
    next hpattern =>
      rw [if_neg Bool.false_ne_true, Nat.add_zero]
      exact hbound _ (Nat.lt_trans (Nat.lt_of_not_le hpattern) (by decide))

theorem legible_of_numberOf? {digits : String} {a : Atom} (h : numberOf? digits = some a) :
    a.Legible true := by
  unfold numberOf? at h
  dsimp only at h
  split at h
  · cases h
    exact fun _ => unsigned_ofRatio _ _
  split at h
  next hmax =>
    cases h
    refine fun _ => .inl ?_
    rw [Int32.toInt_ofNat_of_lt (Nat.lt_succ_of_le hmax)]
    omega
  · cases h

theorem takes_number {digits : String} (hw : w.token = .number digits) (hp : p.Faces k (w :: ws))
    (hrun : number digits p = .ok v q) :
    ∃ used rest, w :: ws = used ++ rest ∧ q.Faces k rest ∧ ReadFactor d.deeper used v := by
  unfold number at hrun
  cases ha : numberOf? digits with
  | none =>
    rw [ha] at hrun
    cases hrun
  | some a =>
    rw [ha] at hrun
    cases hrun
    exact ⟨[w], ws, rfl, hp.advance, isFactor_number hw ha, .atom (legible_of_numberOf? ha)⟩

/-- **What a constructor makes of legible arguments is legible.** -/
theorem legible_of_construct {name : String} {vs : List Value} {span : Span}
    (hvs : ∀ v ∈ vs, v.Legible true) (hv : construct name vs span = .ok v) : v.Legible true := by
  unfold construct at hv
  dsimp only at hv
  split at hv
  · -- a color
    split at hv
    · obtain ⟨as, -, hv⟩ := except_bind_eq_ok.mp hv
      split at hv
      · cases hv; exact .atom trivial
      · cases hv; exact .atom trivial
      · cases hv
    · cases hv
  split at hv
  · -- a point
    split at hv
    · obtain ⟨as, -, hv⟩ := except_bind_eq_ok.mp hv
      split at hv
      · cases hv; exact .atom fun _ => rfl
      · cases hv; exact .atom fun h => by cases h
      · cases hv
    · cases hv
  split at hv
  · -- a path
    split at hv
    · obtain ⟨as, -, hv⟩ := except_bind_eq_ok.mp hv
      split at hv
      · cases hv; exact .atom trivial
      · cases hv
    · cases hv
  split at hv
  · cases hv; exact .sequence hvs
  split at hv
  · cases hv; exact .sequence hvs
  split at hv
  · cases hv; exact .sequence hvs
  · cases hv

/-! ## Values in parts -/

section Values

variable {expression : Grammar Value} (h : Takes expression (ReadExpression d))

include h

/-- What is read between brackets is an array. -/
theorem takes_array (hw : w.token = .mark .openBracket) (hp : p.Faces k (w :: ws))
    (hrun : array expression p = .ok v q) :
    ∃ used rest, w :: ws = used ++ rest ∧ q.Faces k rest ∧ ReadFactor d.deeper used v := by
  rw [array, here_bind, bump_bind] at hrun
  obtain ⟨vs, q₁, hvs, hrun⟩ := bind_eq_ok.mp hrun
  obtain ⟨used, rest, rfl, hq₁, hitems, hlegible⟩ := takes_items h _ hp.advance hvs
  obtain ⟨close, rest, rfl, hclose, hq₂, hrun⟩ := expect_ok hq₁ hrun
  cases hrun
  refine ⟨w :: (used ++ [close]), rest, by simp, hq₂, ?_, .sequence hlegible⟩
  rw [Value.bare, Value.bareItems_eq_map]
  exact isFactor_array hw hitems hclose

/-- What is read between braces is a map or a struct. -/
theorem takes_record (hw : w.token = .mark .openBrace) (hp : p.Faces k (w :: ws))
    (hrun : record expression p = .ok v q) :
    ∃ used rest, w :: ws = used ++ rest ∧ q.Faces k rest ∧ ReadFactor d.deeper used v := by
  rw [record, here_bind, bump_bind, remaining_bind hp.advance] at hrun
  obtain ⟨⟨fields, trailing⟩, q₁, hfields, hend⟩ := bind_eq_ok.mp hrun
  obtain ⟨used, rest, new, rfl, hq₁, rfl, hphrase, -, hnew⟩ :=
    takes_fieldsFrom h hp.advance (Nat.lt_succ_self _) hfields
  dsimp only at hend
  obtain ⟨close, rest, rfl, hclose, hq₂, hend⟩ := expect_ok hq₁ hend
  cases hend
  have hbare : Value.bareFields (Entries.insertAll [] new) = Entries.ofList (Value.bareFields new) :=
    bareFields_insertAll [] new
  refine ⟨w :: (used ++ [close]), rest, by simp, hq₂, ?_, ?_⟩
  · have hfactor := isFactor_record hw hphrase hclose
    have hempty : (Entries.ofList (Value.bareFields new)).isEmpty = (Entries.insertAll [] new).isEmpty := by
      rw [← hbare, Value.bareFields_eq_map, List.isEmpty_map]
    rw [recordKind, hempty] at hfactor
    rwa [Value.bare, hbare]
  · have hall : ∀ e ∈ Entries.insertAll [] new, IsName e.1 ∧ e.2.Legible true :=
      Entries.forall_mem_insertAll hnew fun _ he => absurd he List.not_mem_nil
    have hnil : Entries.keys ([] : Entries Value) |>.Nodup := List.nodup_nil
    have hnodup := Entries.nodup_keys_insertAll hnil new
    refine .record hnodup (fun e he => (hall e he).1) ?_ fun e he => (hall e he).2
    intro hkind hnil
    rw [hnil] at hkind
    simp at hkind

/-- What is read between parentheses is an expression or a set. -/
theorem takes_groupOrSet (hw : w.token = .mark .openParen) (hp : p.Faces k (w :: ws))
    (hrun : groupOrSet expression p = .ok v q) :
    ∃ used rest, w :: ws = used ++ rest ∧ q.Faces k rest ∧ ReadFactor d.deeper used v := by
  rw [groupOrSet, here_bind, bump_bind] at hrun
  rcases eat_cases hp.advance hrun with ⟨close, ws, rfl, hclose, hp₁, hrun⟩ | ⟨-, hrun⟩
  · cases hrun
    exact ⟨[w, close], ws, rfl, hp₁, isFactor_emptySet hw hclose,
      .sequence fun _ hv => absurd hv List.not_mem_nil⟩
  · rw [if_neg (by simp)] at hrun
    obtain ⟨first, q₁, hfirst, hrun⟩ := bind_eq_ok.mp hrun
    obtain ⟨used, rest, rfl, hq₁, hexpression, hlegible⟩ := h hp.advance hfirst
    rcases eat_cases hq₁ hrun with ⟨comma, rest, rfl, hcomma, hq₂, hrun⟩ | ⟨-, hrun⟩
    · obtain ⟨more, q₃, hmore, hrun⟩ := bind_eq_ok.mp hrun
      obtain ⟨used', rest', rfl, hq₃, hitems, hlegible'⟩ := takes_items h _ hq₂ hmore
      obtain ⟨close, rest', rfl, hclose, hq₄, hrun⟩ := expect_ok hq₃ hrun
      cases hrun
      refine ⟨w :: (used ++ comma :: (used' ++ [close])), rest', by simp, hq₄, ?_,
        .sequence (List.forall_mem_cons.mpr ⟨hlegible, hlegible'⟩)⟩
      rw [Value.bare, Value.bareItems, Value.bareItems_eq_map]
      exact isFactor_set hw hexpression hcomma hitems hclose
    · rw [if_neg (by simp)] at hrun
      obtain ⟨close, rest, rfl, hclose, hq₂, hrun⟩ := expect_ok hq₁ hrun
      cases hrun
      exact ⟨w :: (used ++ [close]), rest, by simp, hq₂, isFactor_group hw hexpression hclose, hlegible⟩

/-- A deferred expression holds the text of its argument, which has been read. -/
theorem dyna_cases {span : Span} (hp : p.advance.Faces k ws)
    (hrun : dyna expression span p = .ok v q) :
    ∃ w used close rest u q₁, ws = w :: used ++ close :: rest ∧ q.Faces k rest ∧
      close.token = .mark .closeParen ∧ expression p.advance = .ok u q₁ ∧
      IsExpression d (w :: used) u.bare ∧ Cut ({ w with gap := [] } :: used) (written (close :: rest) ++ k.last) ∧
      v = .atom (.dyna (String.ofList (Text.trim (w.text ++ written used)))) span := by
  rw [dyna, bump_bind, sees_bind hp] at hrun
  split at hrun
  next => exact absurd hrun fail_ne_ok
  next =>
    dsimp only at hrun
    rw [get_bind] at hrun
    obtain ⟨u, q₁, hu, hrun⟩ := bind_eq_ok.mp hrun
    obtain ⟨used, rest, rfl, hq₁, hexpression, -⟩ := h hp hu
    rw [get_bind] at hrun
    obtain ⟨close, rest, rfl, hclose, hq₂, hrun⟩ := expect_ok hq₁ hrun
    obtain ⟨w, used, rfl⟩ := List.exists_cons_of_ne_nil (ne_nil_of_opens hexpression.opens)
    have hslice := hp.slice hq₁
    have hsource : q₁.advance.source = p.advance.source := hq₂.source.trans hp.source.symm
    rw [get_bind, hsource, hslice] at hrun
    cases hrun
    exact ⟨w, used, close, rest, u, q₁, rfl, hq₂, hclose, hu, hexpression,
      (cut_append.mp hp.cut).1.regap .done, rfl⟩

/-- **A deferred expression keeps the text of an expression**: that of the words between its parentheses. -/
theorem takes_dyna {opening : Word} {span : Span} (hw : w.token = .ident "Dyna")
    (hopening : opening.token = .mark .openParen) (hd : ∀ n, d.Exceeds n → n < maxNesting)
    (hp : p.Faces k (opening :: ws)) (hrun : dyna expression span p = .ok v q) :
    ∃ used rest, w :: opening :: ws = used ++ rest ∧ q.Faces k rest ∧ ReadFactor d.deeper used v := by
  obtain ⟨w', used, close, rest, u, -, rfl, hq, hclose, -, hexpression, hcut, rfl⟩ :=
    dyna_cases h hp.advance hrun
  refine ⟨w :: opening :: (w' :: used ++ [close]), rest, by simp, hq,
    isFactor_dyna hw hopening hexpression hclose, .atom ⟨w', used, _, _, ?_, hexpression.mono hd, hcut⟩⟩
  rw [String.toList_ofList]
  exact hcut.trim_eq

/-- What is read behind a name is a constructor or a text without quotation marks. -/
theorem takes_named {first : String} (hd : ∀ n, d.Exceeds n → n < maxNesting)
    (hw : w.token = .ident first) (hp : p.Faces k (w :: ws)) (hrun : named expression first p = .ok v q) :
    ∃ used rest, w :: ws = used ++ rest ∧ q.Faces k rest ∧ ReadFactor d.deeper used v := by
  rw [named, here_bind, bump_bind, sees_bind hp.advance] at hrun
  split at hrun
  next hparen =>
    obtain ⟨opening, ws, rfl, hopening⟩ := cons_of_front (by simpa using hparen) Token.noConfusion
    rw [constructor] at hrun
    split at hrun
    next hname =>
      rw [hname] at hw
      exact takes_dyna h hw hopening hd hp.advance hrun
    next hname =>
      rw [bump_bind] at hrun
      obtain ⟨vs, q₁, hvs, hrun⟩ := bind_eq_ok.mp hrun
      obtain ⟨used, rest, rfl, hq₁, hitems, hlegible⟩ := takes_items h _ hp.advance.advance hvs
      obtain ⟨close, rest, rfl, hclose, hq₂, hrun⟩ := expect_ok hq₁ hrun
      cases hu : construct first vs (p.current.span p.file) with
      | error fault => rw [hu] at hrun; cases hrun
      | ok u =>
        rw [hu] at hrun
        cases hrun
        exact ⟨w :: opening :: (used ++ [close]), rest, by simp, hq₂,
          isFactor_constructor hw hname hopening hitems hclose rfl hu, legible_of_construct hlegible hu⟩
  next =>
    -- without a parenthesis it is a dotted name, and no assignment may follow
    rw [remaining_bind hp.advance] at hrun
    obtain ⟨name, q₁, hname, hend⟩ := bind_eq_ok.mp hrun
    obtain ⟨used, rest, rfl, hq₁, hparts⟩ := takes_nameParts hp.advance hname
    rw [sees_bind hq₁] at hend
    split at hend
    next => exact absurd hend fail_ne_ok
    next =>
      cases hend
      exact ⟨w :: used, rest, rfl, hq₁, isFactor_name hw hparts, .atom trivial⟩

/-- **What is read as a factor without a sign is a factor.** -/
theorem takes_primary (hd : ∀ n, d.Exceeds n → n < maxNesting) (hp : p.Faces k ws) (hrun : primary expression p = .ok v q) :
    ∃ used rest, ws = used ++ rest ∧ q.Faces k rest ∧ ReadFactor d.deeper used v := by
  rw [primary_eq, peek_bind hp] at hrun
  -- the first word says which factor it is; it is the end of the source in no case that succeeds
  generalize ht : front ws = t at hrun
  unfold primaryOf at hrun
  split at hrun
  next digits =>
    obtain ⟨w, ws, rfl, hw⟩ := cons_of_front ht Token.noConfusion
    exact takes_number hw hp hrun
  next text =>
    obtain ⟨w, ws, rfl, hw⟩ := cons_of_front ht Token.noConfusion
    cases hrun
    exact ⟨[w], ws, rfl, hp.advance, isFactor_string hw, .atom trivial⟩
  next b =>
    obtain ⟨w, ws, rfl, hw⟩ := cons_of_front ht Token.noConfusion
    cases hrun
    exact ⟨[w], ws, rfl, hp.advance, isFactor_bool hw, .atom trivial⟩
  next =>
    obtain ⟨w, ws, rfl, hw⟩ := cons_of_front ht Token.noConfusion
    exact takes_array h hw hp hrun
  next =>
    obtain ⟨w, ws, rfl, hw⟩ := cons_of_front ht Token.noConfusion
    exact takes_record h hw hp hrun
  next =>
    obtain ⟨w, ws, rfl, hw⟩ := cons_of_front ht Token.noConfusion
    exact takes_groupOrSet h hw hp hrun
  next =>
    obtain ⟨w, ws, rfl, hw⟩ := cons_of_front ht Token.noConfusion
    exact takes_hexColor hw hp hrun
  next =>
    obtain ⟨w, ws, rfl, hw⟩ := cons_of_front ht Token.noConfusion
    exact takes_atReference hw hp hrun
  next =>
    obtain ⟨w, ws, rfl, hw⟩ := cons_of_front ht Token.noConfusion
    exact takes_environmentReference hw hp hrun
  next =>
    obtain ⟨w, ws, rfl, hw⟩ := cons_of_front ht Token.noConfusion
    exact takes_localizationReference hw hp hrun
  next =>
    obtain ⟨w, ws, rfl, hw⟩ := cons_of_front ht Token.noConfusion
    exact takes_named h hd hw hp hrun
  next => cases hrun

end Values

/-! ## Factors and expressions -/

/-- **What is read as a factor** is a factor. -/
theorem takes_factor {n : Nat} (hn : n ≤ maxNesting) : Takes (factor n) (ReadFactor (some n)) := by
  induction n with
  | zero =>
    intro k p ws v q _ hrun
    cases hrun
  | succ n ih =>
    have ih : Takes (factor n) (ReadFactor (some n)) := ih (Nat.le_of_succ_le hn)
    intro k p ws v q hp hrun
    rw [factor, sees_bind hp] at hrun
    split at hrun
    next hminus =>
      obtain ⟨w, ws, rfl, hw⟩ := cons_of_front (by simpa using hminus) Token.noConfusion
      rw [here_bind, bump_bind, peek_bind hp.advance] at hrun
      have hneg : isLeastNumeral (front ws) = false →
          (do return .neg (← factor n) (p.current.span p.file) : Grammar Value) p.advance = .ok v q →
          ∃ used rest, w :: ws = used ++ rest ∧ q.Faces k rest ∧ ReadFactor (some (n + 1)) used v := by
        intro hleast hneg
        obtain ⟨u, q₁, hu, hend⟩ := bind_eq_ok.mp hneg
        obtain ⟨used, rest, rfl, hq₁, hfactor, hlegible⟩ := ih hp.advance hu
        cases hend
        rw [front_append (ne_nil_of_opens hfactor.opens)] at hleast
        exact ⟨w :: used, rest, rfl, hq₁, isFactor_neg (d := some n) hw hfactor hleast, .neg hlegible⟩
      cases hfront : front ws with
      | number digits =>
        rw [hfront] at hrun hneg
        dsimp only at hrun
        -- the least integer has no positive counterpart, so its digits are read with the sign or
        -- not at all
        by_cases hleast : isLeastNegated digits = true
        · rw [if_pos hleast] at hrun
          obtain ⟨w', ws, rfl, hw'⟩ := cons_of_front hfront Token.noConfusion
          cases hrun
          exact ⟨[w, w'], ws, rfl, hp.advance.advance, isFactor_least (d := some n) hw (by rw [hw']; exact hleast),
            .atom fun _ => .inr rfl⟩
        · rw [if_neg hleast] at hrun
          exact hneg (by rw [isLeastNumeral]; simpa using hleast) hrun
      | _ =>
        rw [hfront] at hrun hneg
        exact hneg rfl hrun
    next => exact takes_primary (takes_expressionOf ih) (fun m hm => Nat.lt_of_lt_of_le hm (Nat.le_of_succ_le hn)) hp hrun

/-- **What is read as an expression** is an expression of the value. -/
theorem takes_expression : Takes expression (ReadExpression (some maxNesting)) := takes_expressionOf (takes_factor (Nat.le_refl _))

end Yini.Grammar

namespace Yini

open Grammar in
/-- **An expression that stands alone** is legible. -/
theorem Value.legible_of_ofSource {source : String} {v : Value} (h : ofSource source = .ok v) :
    v.Legible true := by
  unfold ofSource at h
  split at h
  next => cases h
  next p hp =>
    split at h
    next v' q hrun =>
      cases h
      obtain ⟨ws, last, hfaces⟩ := Parser.faces_ofSource hp
      obtain ⟨u, q', hu, hrun⟩ := bind_eq_ok.mp hrun
      obtain ⟨used, rest, -, hq', hread⟩ := takes_expression hfaces hu
      rw [peek_bind hq'] at hrun
      generalize front rest = t at hrun
      split at hrun
      · cases hrun
        exact hread.2
      · cases hrun
    next => cases h

end Yini
