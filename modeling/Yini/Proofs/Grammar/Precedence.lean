import Yini.Proofs.Grammar.Reading
import Yini.Proofs.Token.Printing

/-!
Operator chains bind as usual.

`Operands.tree` says what that is, on the chain as it stands: cut it before every `+` and `-`, fold each
piece from the left over its `*`, `/` and `%`, and fold the pieces from the left over the `+` and `-`
between them.  The grammar has two loops, one inside the other, and knows nothing of the whole chain.

1. *Crux* (`Loops`, `loops_of_follows`).  Behind a factor, the inner loop takes what belongs to the piece
   and no more, whatever has been read of the term so far; and from where it stops, the outer loop takes
   the pieces that follow.  One induction along the chain, in which both halves are carried: an operator
   between factors leaves the outer loop waiting, and `+` or `-` ends the inner loop at once and starts
   another one.
2. *Converse* (`exists_piece`, `exists_pieces`).  Whatever the loops read is such a chain.
3. *Words.*  What is accepted as one factor at some place is accepted in front of every operator, so factors
   that were read one by one may be joined by operators (`FactorWords.readsChain`).
-/

namespace Yini

/-! ## Chains as they stand -/

/-- Operands with operators between them, as they stand. -/
structure Operands (α : Type) where
  first : α
  /-- The further operands, each with the operator in front of it. -/
  more : List (BinaryOp × α)

namespace Operands

variable {α β : Type}

/-- Changes every operand. -/
def map (f : α → β) (c : Operands α) : Operands β := ⟨f c.first, c.more.map fun e => (e.1, f e.2)⟩

/-- The further operands of a chain, cut before every `+` and `-`: those up to the first cut, and the
    pieces behind it. -/
def cut : List (BinaryOp × α) → List (BinaryOp × α) × List (BinaryOp × Operands α)
  | [] => ([], [])
  | (op, a) :: more =>
    let (piece, pieces) := cut more
    if op = .add ∨ op = .sub then ([], (op, ⟨a, piece⟩) :: pieces) else ((op, a) :: piece, pieces)

/-- The chain cut before every `+` and `-`. -/
def pieces (c : Operands α) : Operands (Operands α) := ⟨⟨c.first, (cut c.more).1⟩, (cut c.more).2⟩

/-- Operations from the left, each at the place of its left operand. -/
def foldFrom (left : Value) (more : List (BinaryOp × Value)) : Value :=
  more.foldl (fun l e => .binary l e.1 e.2 l.span) left

/-- The chain folded from the left. -/
def fold (c : Operands Value) : Value := foldFrom c.first c.more

/-- **The tree of a chain**: its pieces folded, and then the results. -/
def tree (c : Operands Value) : Value := (c.pieces.map fold).fold

/-- The chain is cut before every `+` and `-`. -/
theorem cut_sum {op : BinaryOp} (h : op = .add ∨ op = .sub) (a : α) (more : List (BinaryOp × α)) :
    cut ((op, a) :: more) = ([], (op, ⟨a, (cut more).1⟩) :: (cut more).2) := by
  rw [cut]
  dsimp only
  rw [if_pos h]

/-- The chain is not cut before other operators. -/
theorem cut_product {op : BinaryOp} (h : ¬(op = .add ∨ op = .sub)) (a : α)
    (more : List (BinaryOp × α)) : cut ((op, a) :: more) = ((op, a) :: (cut more).1, (cut more).2) := by
  rw [cut]
  dsimp only
  rw [if_neg h]

/-- There are no more pieces than operators. -/
theorem length_cut_le (more : List (BinaryOp × α)) : (cut more).2.length ≤ more.length := by
  induction more with
  | nil => exact Nat.le_refl _
  | cons e more ih =>
    obtain ⟨op, a⟩ := e
    by_cases h : op = .add ∨ op = .sub
    · rw [cut_sum h, List.length_cons, List.length_cons]
      omega
    · rw [cut_product h, List.length_cons]
      exact Nat.le_succ_of_le ih

/-- The values of pieces. -/
def folded (pieces : List (BinaryOp × Operands Value)) : List (BinaryOp × Value) :=
  pieces.map fun e => (e.1, e.2.fold)

/-- `1 - 2 * 3 + 4` in its pieces. -/
example : (⟨1, [(.sub, 2), (.mul, 3), (.add, 4)]⟩ : Operands Nat).pieces =
    ⟨⟨1, []⟩, [(.sub, ⟨2, [(.mul, 3)]⟩), (.add, ⟨4, []⟩)]⟩ := rfl

/-- The tree of a chain is that of its pieces. -/
theorem tree_eq (c : Operands Value) :
    c.tree = foldFrom (foldFrom c.first (cut c.more).1) (folded (cut c.more).2) := rfl

end Operands

/-- The operator that a token is. -/
def operator? : Token → Option BinaryOp
  | .mark .plus => some .add
  | .mark .minus => some .sub
  | .mark .star => some .mul
  | .mark .slash => some .div
  | .mark .percent => some .mod
  | _ => none

namespace Grammar

open Operands

variable {k : Scene} {p q r : Parser} {w : Word} {ws rest : List Word} {v : Value} {n m : Nat}
  {t : Token} {op : BinaryOp} {more : List (BinaryOp × Value)} {g : Grammar Value}

/-! ## Operators -/

/-- Which of the two loops an operator belongs to. -/
theorem operator?_cases (t : Token) :
    (∃ op, operator? t = some op ∧ (op = .add ∨ op = .sub) ∧ termOp? t = some op ∧ factorOp? t = none) ∨
      (∃ op, operator? t = some op ∧ ¬(op = .add ∨ op = .sub) ∧ termOp? t = none ∧
        factorOp? t = some op) ∨
      (operator? t = none ∧ termOp? t = none ∧ factorOp? t = none) := by
  cases t with
  | mark m =>
    cases m with
    | plus => exact .inl ⟨.add, rfl, .inl rfl, rfl, rfl⟩
    | minus => exact .inl ⟨.sub, rfl, .inr rfl, rfl, rfl⟩
    | star => exact .inr (.inl ⟨.mul, rfl, by decide, rfl, rfl⟩)
    | slash => exact .inr (.inl ⟨.div, rfl, by decide, rfl, rfl⟩)
    | percent => exact .inr (.inl ⟨.mod, rfl, by decide, rfl, rfl⟩)
    | _ => exact .inr (.inr ⟨rfl, rfl, rfl⟩)
  | _ => exact .inr (.inr ⟨rfl, rfl, rfl⟩)

/-- The operators of sums are operators, and the chain is cut before them. -/
theorem operator?_of_termOp (h : termOp? t = some op) : operator? t = some op ∧ (op = .add ∨ op = .sub) := by
  rcases operator?_cases t with ⟨op', hop, hsum, h', -⟩ | ⟨op', -, -, h', -⟩ | ⟨-, h', -⟩
  · cases h'.symm.trans h
    exact ⟨hop, hsum⟩
  · cases h'.symm.trans h
  · cases h'.symm.trans h

/-- The operators of terms are operators, and the chain is not cut before them. -/
theorem operator?_of_factorOp (h : factorOp? t = some op) :
    operator? t = some op ∧ ¬(op = .add ∨ op = .sub) := by
  rcases operator?_cases t with ⟨op', -, -, -, h'⟩ | ⟨op', hop, hproduct, -, h'⟩ | ⟨-, -, h'⟩
  · cases h'.symm.trans h
  · cases h'.symm.trans h
    exact ⟨hop, hproduct⟩
  · cases h'.symm.trans h

/-- Before a cut stands an operator of sums, and none of terms. -/
theorem ops_of_sum (h : operator? t = some op) (hop : op = .add ∨ op = .sub) :
    termOp? t = some op ∧ factorOp? t = none := by
  rcases operator?_cases t with ⟨op', h', -, hops⟩ | ⟨op', h', hop', -⟩ | ⟨h', -⟩
  · cases h'.symm.trans h
    exact hops
  · cases h'.symm.trans h
    exact absurd hop hop'
  · cases h'.symm.trans h

/-- An operator at which the chain is not cut is one of terms. -/
theorem factorOp?_of_product (h : operator? t = some op) (hop : ¬(op = .add ∨ op = .sub)) :
    factorOp? t = some op := by
  rcases operator?_cases t with ⟨op', h', hop', -⟩ | ⟨op', h', -, -, hfactor⟩ | ⟨h', -⟩
  · cases h'.symm.trans h
    exact absurd hop' hop
  · cases h'.symm.trans h
    exact hfactor
  · cases h'.symm.trans h

/-- What is no operator of sums or terms is none. -/
theorem operator?_eq_none : operator? t = none ↔ termOp? t = none ∧ factorOp? t = none := by
  rcases operator?_cases t with ⟨op, h, -, hterm, -⟩ | ⟨op, h, -, -, hfactor⟩ | ⟨h, hops⟩
  · rw [h, hterm]
    exact ⟨nofun, nofun⟩
  · rw [h, hfactor]
    exact ⟨nofun, nofun⟩
  · exact iff_of_true h hops

/-- Every operator ends a factor. -/
theorem stops_of_operator (h : operator? w.token = some op) : Stops (w :: rest) := by
  rcases operator?_cases w.token with ⟨op', -, -, hterm, -⟩ | ⟨op', -, -, -, hfactor⟩ | ⟨h', -⟩
  · exact (endsTerm_of_termOp hterm).toStops
  · exact stops_of_factorOp hfactor
  · cases h'.symm.trans h

/-- An operator is a word, and the next one is behind it. -/
theorem exists_cons_of_operator (hp : p.Faces k ws) (h : operator? p.current.token = some op) :
    ∃ w ws', ws = w :: ws' ∧ operator? w.token = some op ∧ p.advance.Faces k ws' := by
  rw [hp.token] at h
  obtain ⟨w, ws', rfl, -⟩ := cons_of_front (t := front ws) rfl fun hfinish => by
    rw [hfinish] at h
    cases h
  exact ⟨w, ws', rfl, h, hp.advance⟩

/-! ## Reading a chain -/

/-- **Behind an operand come operators, each with one operand**, up to a token that is no operator. -/
inductive Follows (g : Grammar Value) : Parser → List (BinaryOp × Value) → Parser → Prop
  | stop {p : Parser} (hstop : operator? p.current.token = none) : Follows g p [] p
  | more {p q r : Parser} {op : BinaryOp} {v : Value} {more : List (BinaryOp × Value)}
      (hop : operator? p.current.token = some op) (h : g p.advance = .ok v q)
      (hmore : Follows g q more r) : Follows g p ((op, v) :: more) r

/-- **What comes next is a chain** of operands that the rule accepts one after the other, each where it
    stands, and behind it a token that is no operator. -/
def ReadsChain (g : Grammar Value) (p : Parser) (c : Operands Value) (r : Parser) : Prop :=
  ∃ q, g p = .ok c.first q ∧ Follows g q c.more r

/-- What both loops come to behind an operand: the inner one takes the rest of the piece, whatever the term
    is so far, and from where it stops the outer one takes the other pieces, whatever the sum is. -/
def Loops (g : Grammar Value) (q : Parser) (more : List (BinaryOp × Value)) (r : Parser) : Prop :=
  ∀ term m, more.length ≤ m → ∃ q',
    chainFrom factorOp? g m term q = .ok (foldFrom term (cut more).1) q' ∧
      (cut more).2.length ≤ q'.left ∧ ∀ sum m', (cut more).2.length ≤ m' →
        chainFrom termOp? (chain factorOp? g) m' sum q' = .ok (foldFrom sum (folded (cut more).2)) r

section Loops

variable {op? : Token → Option BinaryOp}

/-- A loop ends where there is no operator of its own. -/
theorem chainFrom_of_none (h : op? p.current.token = none) (m : Nat) (left : Value) :
    chainFrom op? g m left p = .ok left p := by
  cases m with
  | zero => rfl
  | succ m => rw [chainFrom, peek_eq, h]; rfl

/-- A loop takes an operator of its own and the operand behind it, and goes on. -/
theorem chainFrom_of_some (h : op? p.current.token = some op) (m : Nat) (left : Value) :
    chainFrom op? g (m + 1) left p =
      (g >>= fun right => chainFrom op? g m (.binary left op right left.span)) p.advance := by
  rw [chainFrom, peek_eq, h]
  rfl

/-- A chain begins with an operand, and goes on with its loop. -/
theorem chain_of_ok (h : g p = .ok v q) : chain op? g p = chainFrom op? g q.left v q := by
  rw [chain, bind_of_ok h]
  rfl

end Loops

/-- Both loops end where there is no operator. -/
theorem loops_stop (h : operator? p.current.token = none) : Loops g p [] p := by
  obtain ⟨hterm, hfactor⟩ := operator?_eq_none.mp h
  intro term m _
  exact ⟨p, chainFrom_of_none hfactor m term, Nat.zero_le _,
    fun sum m' _ => chainFrom_of_none hterm m' sum⟩

/-- `*`, `/` and `%` keep the inner loop going. -/
theorem loops_product (hop : operator? p.current.token = some op) (hproduct : ¬(op = .add ∨ op = .sub))
    (h : g p.advance = .ok v q) (hmore : Loops g q more r) : Loops g p ((op, v) :: more) r := by
  have hfactor := factorOp?_of_product hop hproduct
  intro term m hm
  rw [List.length_cons] at hm
  obtain ⟨m, rfl⟩ := Nat.exists_eq_succ_of_ne_zero (n := m) (by omega)
  obtain ⟨q', hinner, hrest⟩ := hmore (.binary term op v term.span) m (by omega)
  rw [cut_product hproduct]
  refine ⟨q', ?_, hrest⟩
  rw [chainFrom_of_some hfactor, bind_of_ok h, hinner]
  rfl

/-- `+` and `-` end the inner loop, and another one begins behind them. -/
theorem loops_sum (hop : operator? p.current.token = some op) (hsum : op = .add ∨ op = .sub)
    (h : g p.advance = .ok v q) (hlength : more.length ≤ q.left) (hleft : q.left < p.left)
    (hmore : Loops g q more r) : Loops g p ((op, v) :: more) r := by
  obtain ⟨hterm, hfactor⟩ := ops_of_sum hop hsum
  obtain ⟨q', hinner, -, houter⟩ := hmore v q.left hlength
  have hpiece : chain factorOp? g p.advance = .ok (fold ⟨v, (cut more).1⟩) q' :=
    (chain_of_ok h).trans hinner
  have hcut := length_cut_le more
  intro term m _
  rw [cut_sum hsum, List.length_cons]
  refine ⟨p, chainFrom_of_none hfactor m term, by omega, fun sum m' hm' => ?_⟩
  obtain ⟨m', rfl⟩ := Nat.exists_eq_succ_of_ne_zero (n := m') (by omega)
  rw [chainFrom_of_some hterm, bind_of_ok hpiece, houter _ m' (by omega)]
  rfl

/-- **Both loops read what follows an operand**, if that is a chain. -/
theorem loops_of_follows (hn : n ≤ maxNesting) (h : Follows (factor n) q more r) (hq : q.Faces k ws) :
    more.length ≤ q.left ∧ Loops (factor n) q more r := by
  induction h generalizing ws with
  | stop hstop => exact ⟨Nat.zero_le _, loops_stop hstop⟩
  | @more p q r op v more hop h _ ih =>
    obtain ⟨w, ws, rfl, -, hp⟩ := exists_cons_of_operator hq hop
    obtain ⟨used, rest, rfl, hrest, -⟩ := takes_factor hn hp h
    obtain ⟨hlength, hloops⟩ := ih hrest
    have hleft : q.left < p.left := by
      rw [hrest.left, hq.left, List.length_cons, List.length_append]
      omega
    refine ⟨Nat.lt_of_le_of_lt hlength hleft, ?_⟩
    by_cases hsum : op = .add ∨ op = .sub
    · exact loops_sum hop hsum h hlength hleft hloops
    · exact loops_product hop hsum h hloops

/-- A chain is read to its tree. -/
theorem ReadsChain.expression {c : Operands Value} (hn : n ≤ maxNesting) (h : ReadsChain (factor n) p c r)
    (hp : p.Faces k ws) : expressionOf (factor n) p = .ok c.tree r := by
  obtain ⟨q, hfirst, hfollows⟩ := h
  obtain ⟨used, rest, rfl, hq, -⟩ := takes_factor hn hp hfirst
  obtain ⟨hlength, hloops⟩ := loops_of_follows hn hfollows hq
  obtain ⟨q', hinner, hleft, houter⟩ := hloops c.first q.left hlength
  have hterm : chain factorOp? (factor n) p = .ok (foldFrom c.first (cut c.more).1) q' :=
    (chain_of_ok hfirst).trans hinner
  rw [expressionOf, chain_of_ok hterm, tree_eq]
  exact houter _ q'.left hleft

/-! ## Whatever is read is a chain -/

/-- **What stands between two places belongs to one piece**, and the piece ends there. -/
structure Piece (g : Grammar Value) (p : Parser) (piece : List (BinaryOp × Value)) (q : Parser) : Prop where
  ends : factorOp? q.current.token = none
  follows : ∀ more r, Follows g q more r → Follows g p (piece ++ more) r
  cut : ∀ more, cut (piece ++ more) = (piece ++ (cut more).1, (cut more).2)

/-- A piece ends where there is no operator of terms. -/
theorem piece_nil (h : factorOp? p.current.token = none) : Piece g p [] p :=
  ⟨h, fun _ _ hmore => hmore, fun _ => rfl⟩

/-- A piece goes on with an operator of terms and a factor. -/
theorem Piece.cons {piece : List (BinaryOp × Value)} (hop : factorOp? p.current.token = some op)
    (h : g p.advance = .ok v q) (hpiece : Piece g q piece r) : Piece g p ((op, v) :: piece) r := by
  obtain ⟨hop, hproduct⟩ := operator?_of_factorOp hop
  refine ⟨hpiece.ends, fun more r hmore => .more hop h (hpiece.follows more r hmore), fun more => ?_⟩
  rw [List.cons_append, cut_product hproduct, hpiece.cut]
  rfl

/-- What the inner loop takes is one piece. -/
theorem exists_piece {left : Value} (hn : n ≤ maxNesting) (hp : p.Faces k ws) (hm : ws.length ≤ m)
    (h : chainFrom factorOp? (factor n) m left p = .ok v q) :
    ∃ piece ws', v = foldFrom left piece ∧ Piece (factor n) p piece q ∧ q.Faces k ws' ∧
      ws'.length ≤ ws.length := by
  induction m generalizing p ws left with
  | zero =>
    obtain rfl := List.length_eq_zero_iff.mp (Nat.le_zero.mp hm)
    cases h
    exact ⟨[], [], rfl, piece_nil (by rw [hp.token]; rfl), hp, Nat.le_refl _⟩
  | succ m ih =>
    cases hop : factorOp? p.current.token with
    | none =>
      rw [chainFrom_of_none hop] at h
      cases h
      exact ⟨[], ws, rfl, piece_nil hop, hp, Nat.le_refl _⟩
    | some op =>
      rw [chainFrom_of_some hop] at h
      obtain ⟨u, q₁, hu, h⟩ := bind_eq_ok.mp h
      obtain ⟨w, ws, rfl, -, hadvance⟩ := exists_cons_of_operator hp (operator?_of_factorOp hop).1
      obtain ⟨used, rest, rfl, hq₁, -⟩ := takes_factor hn hadvance hu
      rw [List.length_cons, List.length_append] at hm ⊢
      -- the rest of the loop is a piece with the same state at its end, and this operand comes before it
      obtain ⟨piece, ws', hv, hpiece, hq, hlength⟩ := ih hq₁ (by omega) h
      exact ⟨(op, u) :: piece, ws', hv, hpiece.cons hop hu, hq, by omega⟩

/-- What the outer loop takes are pieces. -/
theorem exists_pieces {left : Value} (hn : n ≤ maxNesting) (hp : p.Faces k ws) (hm : ws.length ≤ m)
    (hends : factorOp? p.current.token = none)
    (h : chainFrom termOp? (chain factorOp? (factor n)) m left p = .ok v q) :
    ∃ more, Follows (factor n) p more q ∧ (cut more).1 = [] ∧ v = foldFrom left (folded (cut more).2) := by
  induction m generalizing p ws left with
  | zero =>
    obtain rfl := List.length_eq_zero_iff.mp (Nat.le_zero.mp hm)
    cases h
    exact ⟨[], .stop (by rw [hp.token]; rfl), rfl, rfl⟩
  | succ m ih =>
    cases hop : termOp? p.current.token with
    | none =>
      rw [chainFrom_of_none hop] at h
      cases h
      exact ⟨[], .stop (operator?_eq_none.mpr ⟨hop, hends⟩), rfl, rfl⟩
    | some op =>
      rw [chainFrom_of_some hop] at h
      obtain ⟨hop, hsum⟩ := operator?_of_termOp hop
      obtain ⟨u, q₁, hu, h⟩ := bind_eq_ok.mp h
      obtain ⟨w, ws, rfl, -, hadvance⟩ := exists_cons_of_operator hp hop
      obtain ⟨a, q₂, ha, hu⟩ := bind_eq_ok.mp hu
      obtain ⟨used, rest, rfl, hq₂, -⟩ := takes_factor hn hadvance ha
      rw [remaining_bind hq₂] at hu
      obtain ⟨piece, ws', rfl, hpiece, hq₁, hlength⟩ := exists_piece hn hq₂ (Nat.le_refl _) hu
      rw [List.length_cons, List.length_append] at hm
      obtain ⟨more, hmore, hnone, rfl⟩ := ih hq₁ (by omega) hpiece.ends h
      -- the factor behind `+` or `-` begins a piece, with all the operators of terms that follow it
      refine ⟨(op, a) :: (piece ++ more), .more hop ha (hpiece.follows more q hmore), ?_, ?_⟩
      · rw [cut_sum hsum]
      · rw [cut_sum hsum, hpiece.cut, hnone, List.append_nil]
        rfl

/-- What is read as an expression is the tree of a chain. -/
theorem exists_readsChain (hn : n ≤ maxNesting) (hp : p.Faces k ws)
    (h : expressionOf (factor n) p = .ok v r) : ∃ c, ReadsChain (factor n) p c r ∧ v = c.tree := by
  obtain ⟨u, q₁, hu, h⟩ := bind_eq_ok.mp h
  obtain ⟨a, q₂, ha, hu⟩ := bind_eq_ok.mp hu
  obtain ⟨used, rest, rfl, hq₂, -⟩ := takes_factor hn hp ha
  rw [remaining_bind hq₂] at hu
  obtain ⟨piece, ws', rfl, hpiece, hq₁, -⟩ := exists_piece hn hq₂ (Nat.le_refl _) hu
  rw [remaining_bind hq₁] at h
  obtain ⟨more, hmore, hnone, rfl⟩ := exists_pieces hn hq₁ (Nat.le_refl _) hpiece.ends h
  refine ⟨⟨a, piece ++ more⟩, ⟨q₂, ha, hpiece.follows more r hmore⟩, ?_⟩
  rw [tree_eq, hpiece.cut, hnone, List.append_nil]

/-! ## Operands that were read one by one -/

/-- **The words are accepted as one factor** of the value, at some place. -/
def AcceptedFactor (n : Nat) (ws : List Word) (v : Value) : Prop :=
  ∃ k p rest u q, p.Faces k (ws ++ rest) ∧ factor n p = .ok u q ∧ q.Faces k rest ∧ u.bare = v

/-- **Words that are accepted as one factor each**, with operators between them. -/
inductive FactorWords (n : Nat) : List Word → Operands Value → Prop
  | one {ws : List Word} {v : Value} (h : AcceptedFactor n ws v) : FactorWords n ws ⟨v, []⟩
  | more {ws ws' : List Word} {w : Word} {v : Value} {op : BinaryOp} {c : Operands Value}
      (h : AcceptedFactor n ws v) (hop : operator? w.token = some op) (hmore : FactorWords n ws' c) :
      FactorWords n (ws ++ w :: ws') ⟨v, (op, c.first) :: c.more⟩

/-- What was accepted as one factor is accepted in front of anything that does not continue it. -/
theorem AcceptedFactor.reads (hn : n ≤ maxNesting) (h : AcceptedFactor n ws v) (hstops : Stops rest)
    (hp : p.Faces k (ws ++ rest)) : ∃ u q, factor n p = .ok u q ∧ q.Faces k rest ∧ u.bare = v := by
  obtain ⟨k', p', rest', u', q', hp', hu', hq', rfl⟩ := h
  obtain ⟨used, after, hused, hafter, hfactor, -⟩ := takes_factor hn hp' hu'
  obtain ⟨rfl, rfl⟩ := List.append_inj' hused (hq'.left.symm.trans hafter.left)
  obtain ⟨gap, hgap⟩ := exists_regap ws
  rw [← hgap] at hp
  obtain ⟨u, q, hu, hbare, hq⟩ := (hfactor.yields n hstops hp).exists_ok (Nat.lt_irrefl n)
  exact ⟨u, q, hu, hq, hbare⟩

/-- Words that are a factor are accepted as one where they stand alone. -/
theorem IsFactor.accepted {text : List Char} {m : Nat} (h : IsFactor (some m) ws v) (hm : m ≤ n)
    (hshown : Shown text ws) : AcceptedFactor n ws v := by
  obtain ⟨p, -, hp⟩ := hshown.ofSource none
  obtain ⟨gap, hgap⟩ := exists_regap ws
  have hp' : p.Faces ⟨text, [], false⟩ (Yini.regap gap ws ++ []) := by rwa [hgap, List.append_nil]
  obtain ⟨u, q, hu, hbare, hq⟩ := (h.yields n ends_nil.toStops hp').exists_ok (Nat.not_lt_of_le hm)
  exact ⟨_, p, [], u, q, by rwa [List.append_nil], hu, hq, hbare⟩

/-- Factors that were read one by one are a chain, if there are operators between them. -/
theorem FactorWords.readsChain {c : Operands Value} (hn : n ≤ maxNesting) (h : FactorWords n ws c)
    (hstops : Stops rest) (hrest : operator? (front rest) = none) (hp : p.Faces k (ws ++ rest)) :
    ∃ d q, ReadsChain (factor n) p d q ∧ q.Faces k rest ∧ d.map Value.bare = c := by
  induction h generalizing p with
  | one h =>
    obtain ⟨u, q, hu, hq, rfl⟩ := h.reads hn hstops hp
    exact ⟨⟨u, []⟩, q, ⟨q, hu, .stop (by rwa [hq.token])⟩, hq, rfl⟩
  | more h hop _ ih =>
    rw [List.append_assoc, List.cons_append] at hp
    obtain ⟨u, q, hu, hq, rfl⟩ := h.reads hn (stops_of_operator hop) hp
    obtain ⟨d, r, ⟨q', hfirst, hfollows⟩, hr, rfl⟩ := ih hq.advance
    refine ⟨⟨u, (_, d.first) :: d.more⟩, r, ⟨q, hu, .more ?_ hfirst hfollows⟩, hr, rfl⟩
    rwa [hq.token]

/-- **Operator chains bind as usual.**  An expression is read exactly where a chain of factors comes next,
    up to a token that is no operator, and its value is the tree of the chain.  Words that were accepted as
    one factor each, with operators between them, are such a chain wherever they stand, in front of
    everything that neither is an operator nor continues the last factor. -/
theorem expressionOf_eq_tree (hn : n ≤ maxNesting) :
    (∀ k p ws v r, p.Faces k ws →
      (expressionOf (factor n) p = .ok v r ↔ ∃ c, ReadsChain (factor n) p c r ∧ v = c.tree)) ∧
    ∀ k p ws rest c, FactorWords n ws c → Stops rest → operator? (front rest) = none →
      p.Faces k (ws ++ rest) → ∃ d q, d.map Value.bare = c ∧ ReadsChain (factor n) p d q ∧
        expressionOf (factor n) p = .ok d.tree q ∧ q.Faces k rest := by
  refine ⟨fun k p ws v r hp => ⟨exists_readsChain hn hp, ?_⟩, fun k p ws rest c h hstops hrest hp => ?_⟩
  · rintro ⟨c, hchain, rfl⟩
    exact hchain.expression hn hp
  · obtain ⟨d, q, hchain, hq, hd⟩ := h.readsChain hn hstops hrest hp
    exact ⟨d, q, hd, hchain, hchain.expression hn hp, hq⟩

/-- A difference and a remainder in front of a comma, first from their words and then as they are read. -/
theorem expressionOf_eq_tree_difference : ∃ p v q, Parser.ofSource none "8-2%3," = .ok p ∧
    expression p = .ok v q ∧ q.current.token = .mark .comma ∧
      (∃ c, ReadsChain (factor maxNesting) p c q ∧ v = c.tree ∧ c.map Value.bare =
        ⟨.atom (.int 8) .none, [(.sub, .atom (.int 2) .none), (.mod, .atom (.int 3) .none)]⟩) := by
  obtain ⟨hiff, hwords⟩ := expressionOf_eq_tree (Nat.le_refl maxNesting)
  have hdigit : ∀ d : Char, d.isDigit → Shown [d] [⟨[], .number (String.ofList [d]), [d]⟩] :=
    fun d hd => shown_digits (List.cons_ne_nil _ _) fun c hc => by rwa [List.mem_singleton.mp hc]
  have haccepted : ∀ (d : Char) (a : Atom), d.isDigit → numberOf? (String.ofList [d]) = some a →
      AcceptedFactor maxNesting [⟨[], .number (String.ofList [d]), [d]⟩] (.atom a .none) :=
    fun d a hd ha => (isFactor_number (d := some 0) rfl ha).accepted (by decide) (hdigit d hd)
  have hminus : operator? Mark.minus.word.token = some .sub := rfl
  have hpercent : operator? Mark.percent.word.token = some .mod := rfl
  have hchain : FactorWords maxNesting _ _ :=
    .more (haccepted '8' _ rfl rfl) hminus
      (.more (haccepted '2' _ rfl rfl) hpercent (.one (haccepted '3' _ rfl rfl)))
  have hshown := (hdigit '8' rfl).append
    (((hdigit '2' rfl).append
      (((hdigit '3' rfl).before_mark (m := .comma) (by decide)).behind_mark (m := .percent) (by decide))
        (quiet_cons (by decide) (by decide) _)).behind_mark (m := .minus) (by decide))
    (quiet_cons (by decide) (by decide) _)
  have hwritten : "8-2%3,".toList = written _ := hshown.written.symm
  obtain ⟨p, hp, hfaces⟩ := Parser.ofSource_of_words none hwritten (hshown.cut quiet_nil)
  obtain ⟨c, q, hc, hchain, hrun, hq⟩ := hwords _ p _ [Mark.comma.word] _ hchain
    (stops_of_mark rfl (by decide) (by decide)) rfl hfaces
  have hread := (hiff _ p _ _ q hfaces).mpr ⟨c, hchain, rfl⟩
  exact ⟨p, c.tree, q, hp, hread, hq.token, c, hchain, rfl, hc⟩

end Grammar

end Yini
