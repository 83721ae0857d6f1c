import Yini.Proofs.Grammar.Origin

/-!
What a text without names and references is read to.

A token asks a context for something if it begins a reference, or if it is a name that neither a parenthesis
nor a colon follows (`Token.asks`); the digits of a color do not count, whatever tokens they were cut into
(`outsideColors`).  If no token of a text asks, then no part of what is read off it does, but for its quoted
texts (`Value.asksOnly_of_nameless`).

The parser is followed from lexeme to lexeme.  It is *outside* colors where what it has still to read is
nameless; and it is *behind* a value where this holds once the digits of a color are passed, which may go on
there.  Every rule leads from the outside to behind its result, and a mark leads to the outside again.  A name
in front of a colon may have been taken for a value.  So nothing is said of a result that a colon follows
(`Parser.After`), until another mark is seen there.
-/

namespace Yini

/-! ## Tokens that ask for something -/

/-- Whether a token asks for the value of a name or of a reference, if another one comes next. -/
def Token.asks (t next : Token) : Bool :=
  match t with
  | .ident _ => next ≠ .mark .openParen && next ≠ .mark .colon
  | .mark .atSign => true
  | .mark .dollar => true
  | .mark .percent => next = .mark .openBrace
  | _ => false

/-- The tokens of lexemes, but for the digits of colors: names and numbers that follow a `#` without a gap.
    If digits may go on at the front, it is known where the last of them ended. -/
def outsideColors : Option Nat → List Lexeme → List Token
  | _, [] => []
  | stop, l :: ls =>
    if stop = some l.start ∧ (Grammar.piece? l.token).isSome then outsideColors (some l.stop) ls
    else l.token :: outsideColors (if l.token = .mark .hash then some l.stop else none) ls

/-- **No token asks for anything.** -/
def noneAsks : List Token → Bool
  | [] => true
  | t :: ts => !t.asks (ts.headD .finish) && noneAsks ts

/-- No token asks for anything, and the quoted texts are of a certain kind. -/
structure Plain (S : String → Prop) (ts : List Token) : Prop where
  asks : noneAsks ts = true
  texts : ∀ s, .string s ∈ ts → S s

section Tokens

variable {S : String → Prop} {t : Token} {ts : List Token} {l : Lexeme} {ls : List Lexeme} {stop : Option Nat}

/-- Tokens are plain if the first does not ask, being followed by the second, and the others are plain. -/
theorem plain_cons_iff : Plain S (t :: ts) ↔
    (t.asks (ts.headD .finish) = false ∧ ∀ s, t = .string s → S s) ∧ Plain S ts := by
  constructor
  · rintro ⟨hnameless, htexts⟩
    rw [noneAsks, Bool.and_eq_true, Bool.not_eq_true'] at hnameless
    exact ⟨⟨hnameless.1, fun s hs => htexts s (hs ▸ List.mem_cons_self)⟩, hnameless.2,
      fun s hs => htexts s (List.mem_cons_of_mem _ hs)⟩
  · rintro ⟨⟨hasks, htext⟩, hnameless, htexts⟩
    refine ⟨?_, fun s hs => ?_⟩
    · rw [noneAsks, hasks, hnameless]
      rfl
    · rcases List.mem_cons.mp hs with hs | hs
      · exact htext s hs.symm
      · exact htexts s hs

/-- Outside of a color the first token counts; behind a hash the next ones may be digits of one. -/
theorem outsideColors_none : outsideColors none (l :: ls) =
    l.token :: outsideColors (if l.token = .mark .hash then some l.stop else none) ls :=
  if_neg fun h => nomatch h.1

theorem outsideColors_of_not_piece (h : (Grammar.piece? l.token).isSome = false) :
    outsideColors stop (l :: ls) = outsideColors none (l :: ls) := by
  rw [outsideColors_none, outsideColors, if_neg (by rw [h]; simp)]

/-- A piece of a color does not begin another one. -/
theorem ne_hash_of_piece (h : (Grammar.piece? t).isSome = true) : t ≠ .mark .hash := by
  rintro rfl
  cases h

/-- What is plain from its beginning on is so too behind digits. -/
theorem Plain.behind (h : Plain S (outsideColors none ls)) : Plain S (outsideColors stop ls) := by
  induction ls generalizing stop with
  | nil => exact h
  | cons l ls ih =>
    rw [outsideColors]
    split
    next hpiece =>
      rw [outsideColors_none, if_neg (ne_hash_of_piece hpiece.2)] at h
      exact ih (plain_cons_iff.mp h).2
    next => rwa [outsideColors_none] at h

end Tokens

/-! ## States of the parser -/

namespace Parser

variable {S : String → Prop} {X : Prop} {p : Parser} {m : Mark}

/-- **What the parser has still to read is plain.** -/
structure Outside (S : String → Prop) (p : Parser) : Prop where
  finish : p.finish.token = .finish
  plain : Plain S (outsideColors none p.rest)

/-- What the parser has still to read is plain, once it has passed digits that follow without a gap. -/
structure Behind (S : String → Prop) (p : Parser) : Prop where
  finish : p.finish.token = .finish
  plain : Plain S (outsideColors (some p.lastStop) p.rest)

/-- **Behind something of which `X` is true**, unless a colon follows. -/
structure After (S : String → Prop) (X : Prop) (p : Parser) : Prop extends p.Behind S where
  holds : p.current.token ≠ .mark .colon → X

/-- What is outside colors is behind a value as well. -/
theorem Outside.behind (h : p.Outside S) : p.Behind S := ⟨h.finish, h.plain.behind⟩

/-- Outside colors a result may be told of, whatever follows. -/
theorem Outside.after (h : p.Outside S) (hX : X) : p.After S X := ⟨h.behind, fun _ => hX⟩

theorem After.imp {Y : Prop} (h : p.After S X) (hXY : X → Y) : p.After S Y :=
  ⟨h.toBehind, fun hcolon => hXY (h.holds hcolon)⟩

/-- The current lexeme is the first of those that are left. -/
theorem current_of_rest {l : Lexeme} {ls : List Lexeme} (h : p.rest = l :: ls) : p.current = l := by
  rw [current, h]

/-- Digits do not go on with a mark. -/
theorem Behind.outside (h : p.Behind S) (hm : p.current.token = .mark m) : p.Outside S := by
  refine ⟨h.finish, ?_⟩
  have hplain := h.plain
  cases hrest : p.rest with
  | nil => exact ⟨rfl, nofun⟩
  | cons l ls =>
    rw [current_of_rest hrest] at hm
    rwa [hrest, outsideColors_of_not_piece (by rw [hm]; rfl)] at hplain

/-- A mark that is no colon leads to the outside, and the result before it may be told of. -/
theorem After.mark (h : p.After S X) (hm : p.current.token = .mark m) (hcolon : m ≠ .colon) :
    p.Outside S ∧ X :=
  ⟨h.outside hm, h.holds fun h => hcolon (Token.mark.inj (hm.symm.trans h))⟩

/-- The token behind the next one. -/
theorem Outside.second (h : p.Outside S) {l : Lexeme} {ls : List Lexeme} (hrest : p.rest = l :: ls) :
    (outsideColors none ls).headD .finish = p.advance.current.token := by
  obtain ⟨hrest', -, -, hfinish', -, -⟩ := advance_of_rest hrest
  rw [current, hrest', hfinish']
  cases ls with
  | nil => exact h.finish.symm
  | cons l' ls => rw [outsideColors_none]; rfl

/-- **One lexeme further.**  It asks for nothing; behind `#` there may be digits, and every other token leads
    to the outside again. -/
theorem Outside.step (h : p.Outside S) : p.current.token.asks p.advance.current.token = false ∧
    (∀ s, p.current.token = .string s → S s) ∧
    (p.current.token ≠ .mark .hash → p.advance.Outside S) ∧
    (p.current.token = .mark .hash → p.advance.Behind S) := by
  cases hrest : p.rest with
  | nil =>
    have hcurrent : p.current.token = .finish := by rw [current, hrest, h.finish]
    rw [advance_of_nil hrest, hcurrent]
    exact ⟨rfl, fun _ => Token.noConfusion, fun _ => h, Token.noConfusion⟩
  | cons l ls =>
    obtain ⟨hrest', hstop', -, hfinish', -, -⟩ := advance_of_rest hrest
    have hfinish : p.advance.finish.token = .finish := by rw [hfinish', h.finish]
    have hplain := h.plain
    rw [hrest, outsideColors_none, plain_cons_iff] at hplain
    obtain ⟨⟨hasks, htext⟩, hmore⟩ := hplain
    rw [current_of_rest hrest]
    by_cases hhash : l.token = .mark .hash
    · rw [if_pos hhash] at hmore
      rw [hhash]
      exact ⟨rfl, fun _ => Token.noConfusion, fun hne => absurd rfl hne,
        fun _ => ⟨hfinish, by rwa [hrest', hstop']⟩⟩
    · rw [if_neg hhash] at hmore hasks
      rw [h.second hrest] at hasks
      exact ⟨hasks, htext, fun _ => ⟨hfinish, by rwa [hrest']⟩, fun heq => absurd heq hhash⟩

/-- Outside colors the current token does not ask. -/
theorem Outside.asks (h : p.Outside S) : p.current.token.asks p.advance.current.token = false := h.step.1

/-- A quoted text outside colors is one of those that count. -/
theorem Outside.text (h : p.Outside S) {s : String} (hs : p.current.token = .string s) : S s :=
  h.step.2.1 s hs

/-- Behind a token that is no hash one is still outside colors. -/
theorem Outside.advance (h : p.Outside S) (hhash : p.current.token ≠ .mark .hash) : p.advance.Outside S :=
  h.step.2.2.1 hhash

theorem Outside.advance_hash (h : p.Outside S) (hhash : p.current.token = .mark .hash) :
    p.advance.Behind S :=
  h.step.2.2.2 hhash

/-- Digits may be followed by more of them. -/
theorem Behind.advance (h : p.Behind S) (hadjacent : p.isAdjacent = true)
    (hpiece : (Grammar.piece? p.current.token).isSome = true) : p.advance.Behind S := by
  cases hrest : p.rest with
  | nil => rwa [advance_of_nil hrest]
  | cons l ls =>
    obtain ⟨hrest', hstop', -, hfinish', -, -⟩ := advance_of_rest hrest
    have hplain := h.plain
    rw [isAdjacent, current_of_rest hrest, beq_iff_eq] at hadjacent
    rw [current_of_rest hrest] at hpiece
    rw [hrest, outsideColors, if_pos ⟨congrArg some hadjacent.symm, hpiece⟩] at hplain
    exact ⟨hfinish'.symm ▸ h.finish, hrest'.symm ▸ hstop'.symm ▸ hplain⟩

end Parser

/-! ## Values that ask for something -/

/-- The atom asks a context for texts of a certain kind only. -/
def Atom.AsksOnly (S : String → Prop) : Atom → Prop
  | .string s => S s
  | .reference _ => False
  | _ => True

/-- **The value asks a context for texts of a certain kind only**, and for no reference. -/
def Value.AsksOnly (S : String → Prop) (v : Value) : Prop := ∀ e ∈ v.atoms, e.1.AsksOnly S

namespace Value.AsksOnly

variable {S : String → Prop} {span : Span}

/-- An atom asks for what it is about, if for anything. -/
theorem of_atom {a : Atom} (h : a.AsksOnly S) : AsksOnly S (.atom a span) :=
  List.forall_mem_singleton.mpr h

/-- A sequence asks for what its items ask for. -/
theorem of_sequence {kind : SequenceKind} {vs : List Value} (h : ∀ v ∈ vs, v.AsksOnly S) :
    AsksOnly S (.sequence kind vs span) := by
  intro e he
  obtain ⟨v, hv, he⟩ := mem_itemAtoms.mp he
  exact h v hv e he

/-- A record asks for what the values of its fields ask for. -/
theorem of_record {kind : RecordKind} {fields : Entries Value} (h : ∀ e ∈ fields, e.2.AsksOnly S) :
    AsksOnly S (.record kind fields span) := by
  intro e he
  obtain ⟨f, hf, he⟩ := mem_fieldAtoms.mp he
  exact h f hf e he

/-- An operation asks for what its operands ask for. -/
theorem of_binary {l r : Value} {op : BinaryOp} (hl : l.AsksOnly S) (hr : r.AsksOnly S) :
    AsksOnly S (.binary l op r span) :=
  List.forall_mem_append.mpr ⟨hl, hr⟩

end Value.AsksOnly

namespace Grammar

variable {α β : Type} {S : String → Prop} {X : Prop} {P : Parser → Prop} {Q : α → Parser → Prop}
  {R : β → Parser → Prop} {x : Grammar α} {f : α → Grammar β} {m : Mark}

/-! ## Outside of colors -/

/-- The result is settled, and what comes next is outside of colors. -/
theorem ensures_result {a : α} {X : α → Prop} (h : X a) :
    Ensures (Parser.Outside S) (pure a) fun a => Parser.After S (X a) :=
  ensures_pure fun _ hp => hp.after h

/-- Taking a mark that may be there stays outside colors. -/
theorem ensures_eat (hm : m ≠ .hash) : Ensures (Parser.Outside S) (eat m) fun _ => Parser.Outside S := by
  intro p b q hp hrun
  rw [← bind_pure (eat m), eat_eq] at hrun
  split at hrun
  next htoken =>
    cases hrun
    exact hp.advance fun h => hm (Token.mark.inj (htoken.symm.trans h))
  next =>
    cases hrun
    exact hp

/-- Taking a mark that must be there stays outside colors. -/
theorem ensures_expect (hm : m ≠ .hash) (w : Wanted) :
    Ensures (Parser.Outside S) (expect m w) fun _ => Parser.Outside S := by
  refine (ensures_eat hm).bind fun eaten => ?_
  cases eaten with
  | true => exact ensures_pure fun _ hp => hp
  | false => exact ensures_fail

/-- Taking a name that must be there stays outside colors. -/
theorem ensures_expectName (w : Wanted) :
    Ensures (Parser.Outside S) (expectName w) fun _ => Parser.Outside S := by
  refine ensures_peek.bind fun t => ?_
  cases t with
  | ident name =>
    refine ensures_here.bind fun span => ?_
    refine (ensures_bump fun p hp => ?_).bind fun _ => ensures_pure fun _ hp => hp
    exact hp.1.advance (by rw [hp.2]; exact Token.noConfusion)
  | _ => exact ensures_fail

/-! ## Behind a value -/

/-- A mark that may come behind a value, if it does not. -/
theorem ensures_eat_after {f : Bool → Grammar β} (hm : m ≠ .hash) (hcolon : m ≠ .colon)
    (hyes : X → Ensures (Parser.Outside S) (f true) R) (hno : Ensures (Parser.After S X) (f false) R) :
    Ensures (Parser.After S X) (eat m >>= f) R := by
  intro p b q hp hrun
  rw [eat_eq] at hrun
  split at hrun
  next htoken =>
    obtain ⟨houtside, hX⟩ := hp.mark htoken hcolon
    have hhash : p.current.token ≠ .mark .hash := fun h => hm (Token.mark.inj (htoken.symm.trans h))
    exact hyes hX _ b q (houtside.advance hhash) hrun
  next => exact hno p b q hp hrun

/-- **A mark that has to come behind a value** settles it. -/
theorem ensures_expect_after {f : Unit → Grammar β} (hm : m ≠ .hash) (hcolon : m ≠ .colon) (w : Wanted)
    (h : X → Ensures (Parser.Outside S) (f ()) R) : Ensures (Parser.After S X) (expect m w >>= f) R := by
  rw [expect, bind_assoc]
  refine ensures_eat_after hm hcolon (fun hX => ?_) ?_
  · exact (ensures_pure fun _ hp => hp).bind fun _ => h hX
  · exact ensures_fail_bind

/-! ## Atoms -/

/-- Before a token, outside of colors. -/
def Before (S : String → Prop) (t : Token) (p : Parser) : Prop := p.Outside S ∧ p.current.token = t

/-- **A rule for values** leads from the outside to behind a value that asks for texts only. -/
def Asks (S : String → Prop) (P : Parser → Prop) (x : Grammar Value) : Prop :=
  Ensures P x fun v => Parser.After S (v.AsksOnly S)

variable {t : Token}

/-- Taking a token that is no hash stays outside colors. -/
theorem ensures_take (ht : t ≠ .mark .hash) : Ensures (Before S t) bump fun _ => Parser.Outside S :=
  ensures_bump fun _ hp => hp.1.advance fun h => ht (hp.2.symm.trans h)

/-- An atom that is made on the way asks for what it is about. -/
theorem asks_atom {a : Atom} (h : a.AsksOnly S) (span : Span) :
    Asks S (Parser.Outside S) (pure (.atom a span)) :=
  ensures_result (X := Value.AsksOnly S) (.of_atom h)

/-- A quoted text and a truth value ask for nothing else than the text. -/
theorem asks_literal {a : Atom} (h : a.AsksOnly S) (ht : t ≠ .mark .hash) :
    Asks S (Before S t) (literal a) :=
  ensures_here.bind fun span => (ensures_take ht).bind fun _ => asks_atom h span

theorem asks_number (digits : String) : Asks S (Before S (.number digits)) (number digits) := by
  unfold number
  cases ha : numberOf? digits with
  | none => exact ensures_fail
  | some a =>
    refine asks_literal ?_ Token.noConfusion
    unfold numberOf? at ha
    dsimp only at ha
    split at ha
    · cases ha
      trivial
    split at ha <;> cases ha
    trivial

/-- The digits of a color end behind it. -/
theorem ensures_hexDigits (n : Nat) (digits : String) :
    Ensures (Parser.Behind S) (hexDigits n digits) fun _ => Parser.Behind S := by
  induction n generalizing digits with
  | zero => exact ensures_pure fun _ hp => hp
  | succ n ih =>
    refine ensures_get.bind fun p => ?_
    dsimp only
    split
    next text hpiece =>
      refine (ensures_bump fun q hq => ?_).bind fun _ => ih _
      obtain ⟨hq, rfl⟩ := hq
      split at hpiece
      next hcond =>
        refine hq.advance (Bool.and_eq_true_iff.mp hcond).2 ?_
        split at hpiece
        next htoken => rw [htoken]; rfl
        next htoken => rw [htoken]; rfl
        next => cases hpiece
      next => cases hpiece
    next => exact ensures_pure fun _ hp => hp.1

/-- A color asks for nothing, and its digits are passed. -/
theorem asks_hexColor : Asks S (Before S (.mark .hash)) hexColor := by
  refine ensures_here.bind fun span => ?_
  refine (ensures_bump fun p hp => hp.1.advance_hash hp.2).bind fun _ => ?_
  refine (ensures_hexDigits 6 "").bind fun digits => ?_
  cases colorOf? digits with
  | some c => exact ensures_pure fun _ hp => ⟨hp, fun _ => .of_atom trivial⟩
  | none => exact ensures_peek.bind fun _ => ensures_throw

/-- In front of a token that asks for something there is no state of the kind. -/
theorem ensures_of_asks {Q : α → Parser → Prop} (h : ∀ next, t.asks next = true) :
    Ensures (Before S t) x Q := by
  rintro p a q ⟨houtside, rfl⟩ _
  exact absurd houtside.asks (by rw [h]; exact Bool.noConfusion)

/-- A `%` that no brace follows begins no reference. -/
theorem asks_localizationReference : Asks S (Before S (.mark .percent)) localizationReference := by
  refine ensures_here.bind fun span => ?_
  have hbump : Ensures (Before S (.mark .percent)) bump fun _ q => q.current.token ≠ .mark .openBrace :=
    ensures_bump fun p hp hbrace => by
      have hasks := hp.1.asks
      rw [hp.2, hbrace] at hasks
      exact absurd hasks (by decide)
  -- the brace that the rule wants is not there
  refine hbump.bind fun _ p a q hp hrun => ?_
  rw [expect, bind_assoc, eat_eq, if_neg hp] at hrun
  exact absurd hrun fail_ne_ok

/-! ## Values with parts -/

section Parts

variable {expression : Grammar Value} (h : Asks S (Parser.Outside S) expression)

include h

/-- **The items of a list ask for nothing but quoted texts.**  Those that have been read are told of with
    the others, if no colon follows. -/
theorem ensures_itemsFrom (close : Mark) (n : Nat) {before : List Value}
    (hbefore : ∀ v ∈ before, v.AsksOnly S) :
    Ensures (Parser.Outside S) (itemsFrom expression close n before) fun vs =>
      Parser.After S (∀ v ∈ vs, v.AsksOnly S) := by
  have hreverse : ∀ {vs : List Value}, (∀ v ∈ vs, v.AsksOnly S) → ∀ v ∈ vs.reverse, v.AsksOnly S :=
    fun hvs v hv => hvs v (List.mem_reverse.mp hv)
  induction n generalizing before with
  | zero => exact ensures_pure fun _ hp => hp.after (hreverse hbefore)
  | succ n ih =>
    refine (ensures_sees close).bind fun closed => ?_
    cases closed with
    | true => exact ensures_pure fun _ hp => hp.1.after (hreverse hbefore)
    | false =>
      refine (h.of_state fun _ hp => hp.1).bind fun v => ?_
      have hmore (hv : v.AsksOnly S) : ∀ u ∈ v :: before, u.AsksOnly S :=
        List.forall_mem_cons.mpr ⟨hv, hbefore⟩
      -- a comma settles the value; without one that is left to the mark that closes the list
      refine ensures_eat_after (by decide) (by decide) (fun hv => ih (hmore hv)) ?_
      exact ensures_pure fun _ hp => hp.imp fun hv => hreverse (hmore hv)

/-- All items of a list ask for nothing but quoted texts, if no colon follows. -/
theorem ensures_items (close : Mark) :
    Ensures (Parser.Outside S) (items expression close) fun vs =>
      Parser.After S (∀ v ∈ vs, v.AsksOnly S) :=
  ensures_remaining.bind fun n => ensures_itemsFrom h close (n + 1) (List.forall_mem_nil _)

theorem asks_array : Asks S (Before S (.mark .openBracket)) (array expression) := by
  refine ensures_here.bind fun span => (ensures_take (by decide)).bind fun _ => ?_
  refine (ensures_items h _).bind fun vs => ensures_expect_after (by decide) (by decide) _ fun hvs => ?_
  exact ensures_pure fun _ hp => hp.after (.of_sequence hvs)

/-- **The values of fields ask for nothing but quoted texts**, those that have been read with the others. -/
theorem ensures_fieldsFrom (n : Nat) {before : Entries Value} (trailing : Bool)
    (hbefore : ∀ e ∈ before, e.2.AsksOnly S) :
    Ensures (Parser.Outside S) (fieldsFrom expression n before trailing) fun r =>
      Parser.After S (∀ e ∈ r.1, e.2.AsksOnly S) := by
  induction n generalizing before trailing with
  | zero => exact ensures_pure fun _ hp => hp.after hbefore
  | succ n ih =>
    refine (ensures_sees .closeBrace).bind fun closed => ?_
    cases closed with
    | true => exact ensures_pure fun _ hp => hp.1.after hbefore
    | false =>
      refine ((ensures_expectName _).of_state fun _ hp => hp.1).bind fun name => ?_
      refine (ensures_expect (by decide) _).bind fun _ => h.bind fun v => ?_
      have hmore (hv : v.AsksOnly S) : ∀ e ∈ before.insert name.1 v, e.2.AsksOnly S := by
        intro e he
        rcases Entries.mem_insert he with he | rfl
        · exact hbefore e he
        · exact hv
      refine ensures_eat_after (by decide) (by decide) (fun hv => ?_) ?_
      · exact (ensures_sees _).bind fun closed => (ih closed (hmore hv)).of_state fun _ hp => hp.1
      · exact ensures_pure fun _ hp => hp.imp hmore

/-- A map or a struct asks for what its values ask for. -/
theorem asks_record : Asks S (Before S (.mark .openBrace)) (record expression) := by
  refine ensures_here.bind fun span => (ensures_take (by decide)).bind fun _ => ?_
  refine ensures_remaining.bind fun n => ?_
  refine (ensures_fieldsFrom h (n + 1) false (List.forall_mem_nil _)).bind fun r => ?_
  refine ensures_expect_after (by decide) (by decide) _ fun hr => ?_
  exact ensures_pure fun _ hp => hp.after (.of_record hr)

/-- Parentheses and sets ask for what stands in them. -/
theorem asks_groupOrSet : Asks S (Before S (.mark .openParen)) (groupOrSet expression) := by
  refine ensures_here.bind fun span => (ensures_take (by decide)).bind fun _ => ?_
  refine (ensures_eat (by decide)).bind fun empty => ?_
  cases empty with
  | true => exact ensures_pure fun _ hp => hp.after (.of_sequence (List.forall_mem_nil _))
  | false =>
    refine h.bind fun first => ensures_eat_after (by decide) (by decide) (fun hfirst => ?_) ?_
    · refine (ensures_items h _).bind fun vs => ensures_expect_after (by decide) (by decide) _ fun hvs => ?_
      exact ensures_pure fun _ hp => hp.after (.of_sequence (List.forall_mem_cons.mpr ⟨hfirst, hvs⟩))
    · exact ensures_expect_after (by decide) (by decide) _ fun hfirst => ensures_result hfirst

/-! ## Names and constructors -/

/-- A deferred expression asks for nothing before it is evaluated. -/
theorem asks_dyna (span : Span) : Asks S (Before S (.mark .openParen)) (dyna expression span) := by
  refine (ensures_take (by decide)).bind fun _ => (ensures_sees _).bind fun empty => ?_
  cases empty with
  | true => exact ensures_fail_bind
  | false =>
    refine (ensures_get.of_state fun _ hp => hp.1).bind fun start => ?_
    refine (h.of_state fun _ hp => hp.1).bind fun v => ensures_get.bind fun stop => ?_
    refine Ensures.of_state (ensures_expect_after (by decide) (by decide) _ fun _ => ?_) fun _ hp => hp.1
    exact ensures_get.bind fun _ => (asks_atom (a := .dyna _) trivial span).of_state fun _ hp => hp.1

/-- A constructor asks for what its arguments ask for. -/
theorem asks_constructor (name : String) (span : Span) :
    Asks S (Before S (.mark .openParen)) (constructor expression name span) := by
  unfold constructor
  split
  · exact asks_dyna h span
  · refine (ensures_take (by decide)).bind fun _ => (ensures_items h _).bind fun vs => ?_
    refine ensures_expect_after (by decide) (by decide) _ fun hvs => ?_
    cases hv : construct name vs span with
    | error fault => exact ensures_throw
    | ok v =>
      rcases made_of_construct hv with ⟨a, ha, rfl⟩ | ⟨kind, rfl⟩
      · exact asks_atom (by cases a <;> trivial) span
      · exact ensures_pure fun _ hp => hp.after (.of_sequence hvs)

omit h in
/-- Behind a name that a colon follows there are no further parts of it. -/
theorem ensures_nameParts (n : Nat) (name : String) :
    Ensures (Before S (.mark .colon)) (nameParts n name) fun _ => Before S (.mark .colon) := by
  intro p key q hp hrun
  cases n with
  | zero =>
    cases hrun
    exact hp
  | succ n =>
    have hpoint : p.current.token ≠ .mark .point := by
      rw [hp.2]
      decide
    rw [nameParts, get_bind, if_neg hpoint] at hrun
    cases hrun
    exact hp

/-- **A name begins a constructor**, or a colon follows it. -/
theorem asks_named (first : String) : Asks S (Before S (.ident first)) (named expression first) := by
  have hbump : Ensures (Before S (.ident first)) bump fun _ p =>
      p.Outside S ∧ (p.current.token = .mark .openParen ∨ p.current.token = .mark .colon) :=
    ensures_bump fun p hp => by
      have hasks := hp.1.asks
      rw [hp.2] at hasks
      refine ⟨hp.1.advance (by rw [hp.2]; exact Token.noConfusion), ?_⟩
      simpa [Token.asks, or_iff_not_imp_left] using hasks
  refine ensures_here.bind fun span => hbump.bind fun _ => (ensures_sees _).bind fun called => ?_
  cases called with
  | true =>
    exact (asks_constructor h first span).of_state fun p hp => ⟨hp.1.1, of_decide_eq_true hp.2.symm⟩
  | false =>
    have hcolon : ∀ p : Parser, (p.Outside S ∧ (p.current.token = .mark .openParen ∨
        p.current.token = .mark .colon)) ∧ false = decide (p.current.token = .mark .openParen) →
        Before S (.mark .colon) p :=
      fun p hp => ⟨hp.1.1, hp.1.2.resolve_left (of_decide_eq_false hp.2.symm)⟩
    refine (ensures_remaining.of_state hcolon).bind fun n => (ensures_nameParts n first).bind fun name => ?_
    refine (ensures_sees _).bind fun called => ?_
    cases called with
    | true => exact ensures_fail_bind
    -- the colon is still there, so nothing is said of the name that was taken for a text
    | false => exact ensures_pure fun p hp => ⟨hp.1.1.behind, fun hne => absurd hp.1.2 hne⟩

/-! ## Nesting -/

/-- What begins a factor asks for nothing but quoted texts. -/
theorem asks_primary : Asks S (Parser.Outside S) (primary expression) := by
  rw [primary_eq]
  refine ensures_peek.bind fun t => ?_
  show Asks S (Before S t) (primaryOf expression t)
  unfold primaryOf
  split
  · exact asks_number _
  · intro p v q hp hrun
    exact asks_literal (a := .string _) (hp.1.text hp.2) Token.noConfusion p v q hp hrun
  · exact asks_literal trivial Token.noConfusion
  · exact asks_array h
  · exact asks_record h
  · exact asks_groupOrSet h
  · exact asks_hexColor
  · exact ensures_of_asks fun _ => rfl
  · exact ensures_of_asks fun _ => rfl
  · exact asks_localizationReference
  · exact asks_named h _
  · exact ensures_fail

end Parts

/-- The operators of a chain are marks that may come behind a value. -/
def JoinsBy (op? : Token → Option BinaryOp) : Prop :=
  ∀ t op, op? t = some op → ∃ m, t = .mark m ∧ m ≠ .hash ∧ m ≠ .colon

/-- **A chain asks for nothing but quoted texts**: in each round an operator leads to the outside again, and
    the operands so far may be told of. -/
theorem asks_chainFrom {op? : Token → Option BinaryOp} {operand : Grammar Value} (hop : JoinsBy op?)
    (h : Asks S (Parser.Outside S) operand) (n : Nat) (left : Value) :
    Asks S (Parser.After S (left.AsksOnly S)) (chainFrom op? operand n left) := by
  induction n generalizing left with
  | zero => exact ensures_pure fun _ hp => hp
  | succ n ih =>
    refine ensures_peek.bind fun t => ?_
    cases ht : op? t with
    | none => exact ensures_pure fun _ hp => hp.1
    | some op =>
      obtain ⟨m, rfl, hhash, hcolon⟩ := hop t op ht
      have hbump : Ensures (fun p => p.After S (left.AsksOnly S) ∧ p.current.token = .mark m) bump
          fun _ p => p.Outside S ∧ left.AsksOnly S :=
        ensures_bump fun p hp => by
          obtain ⟨houtside, hleft⟩ := hp.1.mark hp.2 hcolon
          exact ⟨houtside.advance fun heq => hhash (Token.mark.inj (hp.2.symm.trans heq)), hleft⟩
      refine hbump.bind fun _ => .of_known fun hleft => h.bind fun right => ?_
      exact (ih _).of_state fun p hp => hp.imp fun hright => .of_binary hleft hright

/-- A chain asks for what its operands ask for. -/
theorem asks_chain {op? : Token → Option BinaryOp} {operand : Grammar Value} (hop : JoinsBy op?)
    (h : Asks S (Parser.Outside S) operand) : Asks S (Parser.Outside S) (chain op? operand) :=
  h.bind fun left => ensures_remaining.bind fun n => asks_chainFrom hop h n left

theorem joinsBy_factorOp : JoinsBy factorOp? := by
  intro t op h
  unfold factorOp? at h
  split at h
  · exact ⟨.star, rfl, by decide, by decide⟩
  · exact ⟨.slash, rfl, by decide, by decide⟩
  · exact ⟨.percent, rfl, by decide, by decide⟩
  · cases h

theorem joinsBy_termOp : JoinsBy termOp? := by
  intro t op h
  unfold termOp? at h
  split at h
  · exact ⟨.plus, rfl, by decide, by decide⟩
  · exact ⟨.minus, rfl, by decide, by decide⟩
  · cases h

/-- **A factor asks for nothing but quoted texts.**  The induction is on the levels that may be opened. -/
theorem asks_factor (n : Nat) : Asks S (Parser.Outside S) (factor n) := by
  induction n with
  | zero => exact ensures_fail
  | succ n ih =>
    -- the levels are counted before the sign is read, so both ways use the same induction hypothesis
    have hneg (t : Token) (span : Span) :
        Asks S (Before S t) (do return .neg (← factor n) span) :=
      (ih.of_state fun _ hp => hp.1).bind fun v => ensures_pure fun _ hp => hp
    refine (ensures_sees _).bind fun minus => ?_
    cases minus with
    | true =>
      refine ensures_here.bind fun span => ?_
      have hminus : ∀ p : Parser, p.Outside S ∧ true = decide (p.current.token = .mark .minus) →
          Before S (.mark .minus) p := fun p hp => ⟨hp.1, of_decide_eq_true hp.2.symm⟩
      refine ((ensures_take (by decide)).of_state hminus).bind fun _ => ensures_peek.bind fun t => ?_
      cases t with
      | number digits =>
        dsimp only
        split
        · exact (ensures_take Token.noConfusion).bind fun _ => asks_atom (a := .int _) trivial span
        · exact hneg _ span
      | _ => exact hneg _ span
    | false =>
      have hchain := asks_chain joinsBy_termOp (asks_chain joinsBy_factorOp ih)
      exact (asks_primary hchain).of_state fun _ hp => hp.1

/-- **What is read outside of colors** asks for quoted texts only. -/
theorem asks_expression : Asks S (Parser.Outside S) expression :=
  asks_chain joinsBy_termOp (asks_chain joinsBy_factorOp (asks_factor maxNesting))

/-- A text that is one expression asks for nothing but its quoted texts. -/
theorem ensures_loneExpression : Ensures (Parser.Outside S) loneExpression fun v _ => v.AsksOnly S := by
  refine asks_expression.bind fun v => ensures_peek.bind fun t => ?_
  split
  · exact ensures_pure fun p hp => hp.1.holds (by rw [hp.2]; exact Token.noConfusion)
  · exact ensures_fail

end Grammar

/-! ## Whole texts -/

/-- The tokens of a text, but for the digits of colors. -/
def tokensOutsideColors (text : String) : List Token :=
  match Lexeme.read none text with
  | .ok (lexemes, _) => outsideColors none lexemes
  | .error _ => []

/-- **No token of the text asks for anything.** -/
def Nameless (text : String) : Prop := noneAsks (tokensOutsideColors text) = true

instance (text : String) : Decidable (Nameless text) := inferInstanceAs (Decidable (_ = true))

/-- The texts in quotes in a text. -/
def quotedTexts (text : String) : List String :=
  (tokensOutsideColors text).filterMap fun
    | .string s => some s
    | _ => none

/-- **What a nameless text is read to** asks for its quoted texts only. -/
theorem Value.asksOnly_of_nameless {text : String} {v : Value} (htext : Nameless text)
    (h : ofSource text = .ok v) : v.AsksOnly (· ∈ quotedTexts text) := by
  unfold ofSource at h
  split at h
  next => cases h
  next p hp =>
    obtain ⟨lexemes, finish, hread, rfl⟩ := Parser.ofSource_eq_ok hp
    have htokens : tokensOutsideColors text = outsideColors none lexemes := by
      rw [tokensOutsideColors, hread]
    have houtside : (Parser.start none text.toList lexemes finish).Outside (· ∈ quotedTexts text) := by
      obtain ⟨ws, last, hfaces⟩ := Parser.faces_ofSource hp
      refine ⟨hfaces.finish, htokens ▸ htext, fun s hs => ?_⟩
      exact List.mem_filterMap.mpr ⟨_, htokens ▸ hs, rfl⟩
    split at h
    next w q hrun =>
      cases h
      exact Grammar.ensures_loneExpression _ v q houtside hrun
    next => cases h

end Yini
