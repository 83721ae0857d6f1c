import Yini.Proofs.Grammar.Factor
import Yini.Proofs.Grammar.Tape

/-!
Each rule for expressions on a tape follows the rule of the grammar of the same name.

A rule that reads a value takes a lexeme at least, so a loop takes one in each round and has rounds
enough (`Roll.follows_loop`).  A factor counts its levels where the rule of the grammar counts down
those that may still be opened (`Roll.follows_factor`).
-/

namespace Yini.Roll

variable {α : Type} {k : Roll} {d lo hi : Nat} {t : Tape} {p : Parser} {c : Checked Value}
  {g : Grammar Value}

/-- No place is behind the end. -/
theorem follows_beyond {c : Checked α} {g : Grammar α} (h : k.body.length < lo) : k.Follows d lo hi c g :=
  fun _ _ hp => absurd (Nat.le_trans hp.reached hp.inside) (Nat.not_le_of_lt h)

section Loops

variable {σ β : Type} (loop : Nat → σ → Checked β) (loop' : Nat → σ → Grammar β)

/-- **A loop that takes a lexeme in each round has rounds enough.**  `loop` counts the rounds down to a
    crash, and `loop'` to a result: that may lack one round if the loop stops there anyway.  In a round,
    what follows may be used where it begins further on. -/
theorem follows_loop_of_stop (e : Nat)
    (stop : ∀ n lo s, k.body.length < lo + e → k.Follows d lo lo (loop (n + 1) s) (loop' 0 s))
    (step : ∀ n m lo s, (∀ lo' s', lo < lo' → k.Follows d lo' lo (loop n s') (loop' m s')) →
      k.Follows d lo lo (loop (n + 1) s) (loop' (m + 1) s)) (n : Nat) :
    ∀ m lo s, k.body.length < lo + n → k.body.length < lo + m + e →
      k.Follows d lo lo (loop n s) (loop' m s) := by
  induction n with
  | zero => exact fun m lo s hn _ => follows_beyond hn
  | succ n ih =>
    intro m lo s hn hm
    cases m with
    | zero => exact stop n lo s hm
    | succ m =>
      refine step n m lo s fun lo' s' hlo => ?_
      exact (ih m lo' s' (by omega) (by omega)).mono (Nat.le_refl _) (Nat.le_of_lt hlo)

/-- The same where no round is lacking. -/
theorem follows_loop
    (step : ∀ n m lo s, (∀ lo' s', lo < lo' → k.Follows d lo' lo (loop n s') (loop' m s')) →
      k.Follows d lo lo (loop (n + 1) s) (loop' (m + 1) s)) (n m lo : Nat) (s : σ)
    (hn : k.body.length < lo + n) (hm : k.body.length < lo + m) :
    k.Follows d lo lo (loop n s) (loop' m s) :=
  follows_loop_of_stop loop loop' 0 (fun _ _ _ h => follows_beyond h) step n m lo s hn hm

end Loops

/-- What may continue a color is read without a crash. -/
theorem At.piece_run (h : k.At d lo t p) (ht : 0 < t.position) :
    Checked.piece? t = .ok (if p.isAdjacent then Grammar.piece? p.current.token else none) t := by
  rw [Checked.piece?, h.peek_bind]
  cases p.current.token with
  | number text => exact (bind_of_ok (h.isAdjacent_run ht)).trans rfl
  | ident text => exact (bind_of_ok (h.isAdjacent_run ht)).trans rfl
  | _ => cases p.isAdjacent <;> rfl

/-! ## Colors in digits -/

/-- A hexadecimal digit is one byte. -/
theorem utf8Size_of_hexDigit? {ch : Char} {x : UInt8} (h : Grammar.hexDigit? ch = some x) :
    ch.utf8Size = 1 := by
  have hsmall : ch.val ≤ 0x7f := by
    unfold Grammar.hexDigit? at h
    split at h
    next hdigit => simp only [Char.isDigit] at hdigit; grind
    next =>
      split at h
      next hlower => exact Nat.le_trans hlower.2 (by decide)
      next =>
        split at h
        next hupper => exact Nat.le_trans hupper.2 (by decide)
        next => cases h
  rw [Char.utf8Size]
  exact if_pos hsmall

/-- Hexadecimal digits have one byte each. -/
theorem bytes_of_hexDigits {cs : List Char} (h : ∀ c ∈ cs, ∃ x, Grammar.hexDigit? c = some x) :
    bytes cs = cs.length := by
  induction cs with
  | nil => rfl
  | cons c cs ih =>
    obtain ⟨⟨x, hx⟩, hcs⟩ := List.forall_mem_cons.mp h
    rw [bytes_cons, utf8Size_of_hexDigit? hx, ih hcs, List.length_cons, Nat.add_comm]

/-- The size of a text is the bytes of its characters. -/
theorem utf8ByteSize_eq_bytes (s : String) : s.utf8ByteSize = bytes s.toList := by
  have hofList : ∀ cs : List Char, (String.ofList cs).utf8ByteSize = bytes cs := fun cs => by
    induction cs with
    | nil => rfl
    | cons c cs ih =>
      rw [String.ofList_cons, String.utf8ByteSize_append, String.utf8ByteSize_singleton, ih, bytes_cons]
  rw [← hofList, String.ofList_toList]

/-- A text of hexadecimal digits is cut between any two of them. -/
theorem cut_digits (before text behind : List Char)
    (h : ∀ c ∈ before ++ (text ++ behind), ∃ x, Grammar.hexDigit? c = some x) :
    Checked.cut before.length (before.length + text.length) (before ++ (text ++ behind)) t = .ok text t := by
  simp only [List.forall_mem_append] at h
  have hbefore := bytes_of_hexDigits h.1
  have htext := bytes_of_hexDigits h.2.1
  refine cut_run ?_
  rw [← htext, ← hbefore, ← bytes_append]
  exact slice?_append before text behind

theorem channel_pair {a b : Char} {x y : UInt8} (ha : Grammar.hexDigit? a = some x)
    (hb : Grammar.hexDigit? b = some y) : Checked.channel [a, b] = 16 * x + y := by
  simp [Checked.channel, ha, hb]

/-- Three characters can be taken off the front of a longer text. -/
theorem exists_front_three {cs : List Char} {n : Nat} (h : cs.length = n + 3) :
    ∃ a b c rest, cs = a :: b :: c :: rest ∧ rest.length = n := by
  rcases cs with _ | ⟨a, _ | ⟨b, _ | ⟨c, rest⟩⟩⟩
  · cases h
  · cases h
  · cases h
  · exact ⟨a, b, c, rest, rfl, Nat.succ.inj (Nat.succ.inj (Nat.succ.inj h))⟩

/-- A text of three characters has a first, a second and a third one. -/
theorem exists_three {cs : List Char} (h : cs.length = 3) : ∃ a b c, cs = [a, b, c] := by
  obtain ⟨a, b, c, rest, rfl, hrest⟩ := exists_front_three (n := 0) h
  exact ⟨a, b, c, by rw [List.eq_nil_of_length_eq_zero hrest]⟩

/-- Three or six digits are in range wherever the channels look for them, and give the color. -/
theorem channels_run {digits : String} (h : Checked.isHex digits.toList) :
    ∃ color, Grammar.colorOf? digits = some color ∧ ∀ t, Checked.channels digits t = .ok color t := by
  simp only [Checked.isHex, Bool.and_eq_true, Bool.or_eq_true, beq_iff_eq, List.all_eq_true,
    Option.isSome_iff_exists] at h
  obtain ⟨hlength, hdigits⟩ := h
  have hsize : digits.utf8ByteSize = digits.toList.length :=
    (utf8ByteSize_eq_bytes digits).trans (bytes_of_hexDigits hdigits)
  rcases hlength with hlength | hlength
  · obtain ⟨a, b, c, hcs⟩ := exists_three hlength
    rw [hcs] at hdigits
    obtain ⟨x, hx⟩ := hdigits a (by simp)
    obtain ⟨y, hy⟩ := hdigits b (by simp)
    obtain ⟨z, hz⟩ := hdigits c (by simp)
    -- a single digit stands for itself twice, which is seventeen times its value
    have hdouble : ∀ v : UInt8, 16 * v + v = 17 * v := fun v => by grind
    refine ⟨⟨17 * x, 17 * y, 17 * z, 255⟩, by simp [Grammar.colorOf?, hcs, hx, hy, hz], fun t => ?_⟩
    rw [Checked.channels, if_pos (hsize.trans hlength), hcs, ← hdouble x, ← hdouble y, ← hdouble z,
      ← channel_pair hx hx, ← channel_pair hy hy, ← channel_pair hz hz]
    rfl
  · obtain ⟨a, a', b, rest, hcs, hrest⟩ := exists_front_three hlength
    obtain ⟨b', c, c', rfl⟩ := exists_three hrest
    rw [hcs] at hdigits
    obtain ⟨x, hx⟩ := hdigits a (by simp)
    obtain ⟨x', hx'⟩ := hdigits a' (by simp)
    obtain ⟨y, hy⟩ := hdigits b (by simp)
    obtain ⟨y', hy'⟩ := hdigits b' (by simp)
    obtain ⟨z, hz⟩ := hdigits c (by simp)
    obtain ⟨z', hz'⟩ := hdigits c' (by simp)
    refine ⟨⟨16 * x + x', 16 * y + y', 16 * z + z', 255⟩,
      by simp [Grammar.colorOf?, hcs, hx, hx', hy, hy', hz, hz'], fun t => ?_⟩
    -- the three cuts of two digits stay within the six
    have hred : Checked.cut 0 2 [a, a', b, b', c, c'] t = .ok [a, a'] t :=
      cut_digits [] [a, a'] [b, b', c, c'] hdigits
    have hgreen : Checked.cut 2 4 [a, a', b, b', c, c'] t = .ok [b, b'] t :=
      cut_digits [a, a'] [b, b'] [c, c'] hdigits
    have hblue : Checked.cut 4 6 [a, a', b, b', c, c'] t = .ok [c, c'] t :=
      cut_digits [a, a', b, b'] [c, c'] [] hdigits
    rw [Checked.channels, if_neg (by omega), hcs, bind_of_ok hred, bind_of_ok hgreen, bind_of_ok hblue,
      channel_pair hx hx', channel_pair hy hy', channel_pair hz hz']
    rfl

/-- If all characters have a value as digits, all of them are digits. -/
theorem digits_of_mapM {cs : List Char} {xs : List UInt8} (h : cs.mapM Grammar.hexDigit? = some xs) :
    cs.length = xs.length ∧ cs.all fun c => (Grammar.hexDigit? c).isSome := by
  induction cs generalizing xs with
  | nil => cases h; exact ⟨rfl, rfl⟩
  | cons c cs ih =>
    simp only [List.mapM_cons, Option.bind_eq_bind, Option.bind_eq_some_iff, Option.pure_def,
      Option.some.injEq] at h
    obtain ⟨x, hx, xs', hxs, rfl⟩ := h
    obtain ⟨hlength, hall⟩ := ih hxs
    exact ⟨by rw [List.length_cons, hlength, List.length_cons], by rw [List.all_cons, hx, hall]; rfl⟩

/-- Nothing else is a color. -/
theorem colorOf?_eq_none {digits : String} (h : Checked.isHex digits.toList = false) :
    Grammar.colorOf? digits = none := by
  have hne : ∀ xs, digits.toList.mapM Grammar.hexDigit? = some xs → xs.length ≠ 3 ∧ xs.length ≠ 6 := by
    intro xs hxs
    obtain ⟨hlength, hall⟩ := digits_of_mapM hxs
    rw [Checked.isHex, hall, Bool.and_true, hlength] at h
    simpa using h
  unfold Grammar.colorOf?
  split
  next hxs => exact absurd rfl (hne _ hxs).1
  next hxs => exact absurd rfl (hne _ hxs).2
  next => rfl

/-! ## Faults of constructors -/

/-- Arguments are refused by faults of parsing only. -/
theorem arguments_error {name allowed : String} {read? : Value → Option α} {vs : List Value} {fault : Fault}
    (h : Grammar.arguments name allowed read? vs = .error fault) :
    ∃ cause found place, fault = .parse cause found place := by
  induction vs with
  | nil => cases h
  | cons v vs ih =>
    rw [Grammar.arguments] at h
    split at h
    next =>
      cases hvs : Grammar.arguments name allowed read? vs with
      | ok as => rw [hvs] at h; cases h
      | error f => rw [hvs] at h; cases h; exact ih hvs
    next => cases h; exact ⟨_, _, _, rfl⟩

/-- Constructors are refused by faults of parsing only. -/
theorem construct_error {name : String} {vs : List Value} {span : Span} {fault : Fault}
    (h : Grammar.construct name vs span = .error fault) :
    ∃ cause found place, fault = .parse cause found place := by
  -- one constructor after the other: the number of arguments, their kinds, and the name may be wrong
  unfold Grammar.construct at h
  split at h
  next =>
    split at h
    next =>
      rcases except_bind_eq_error.mp h with h | ⟨channels, -, h⟩
      · exact arguments_error h
      · split at h <;> cases h
        exact ⟨_, _, _, rfl⟩
    next => cases h; exact ⟨_, _, _, rfl⟩
  next =>
    split at h
    next =>
      split at h
      next =>
        rcases except_bind_eq_error.mp h with h | ⟨axes, -, h⟩
        · exact arguments_error h
        · split at h <;> cases h
          exact ⟨_, _, _, rfl⟩
      next => cases h; exact ⟨_, _, _, rfl⟩
    next =>
      split at h
      next =>
        split at h
        next =>
          rcases except_bind_eq_error.mp h with h | ⟨texts, -, h⟩
          · exact arguments_error h
          · split at h <;> cases h
            exact ⟨_, _, _, rfl⟩
        next => cases h; exact ⟨_, _, _, rfl⟩
      next =>
        split at h
        next => cases h
        next =>
          split at h
          next => cases h
          next =>
            split at h <;> cases h
            exact ⟨_, _, _, rfl⟩

/-- The second token is the one behind the current. -/
theorem At.second_eq (h : k.At d lo t p) (ht : t.position < k.body.length) :
    p.second = p.advance.current.token := by
  have hrest := h.rest_cons ht
  obtain ⟨hadvance, -, -, hfinish, -⟩ := Parser.advance_of_rest hrest
  rw [Parser.second, Parser.current, hrest, hadvance, hfinish]
  cases k.body.drop (t.position + 1) <;> rfl

/-- Whether a part of a dotted name follows is seen without a crash. -/
theorem At.seesPart_run (h : k.At d lo t p) : Checked.seesPart t
    = .ok (if p.current.token = .mark .point then Grammar.piece? p.second else none).isSome t := by
  rw [Checked.seesPart, h.sees_bind]
  by_cases hpoint : p.current.token = .mark .point
  · rw [decide_eq_true hpoint, if_pos hpoint, if_pos rfl, bind_of_ok h.second_run]
    cases p.second <;> rfl
  · rw [decide_eq_false hpoint, if_neg hpoint]
    rfl

section Rules

variable (hk : k.Lies)
include hk

/-! ## Operator chains -/

/-- A chain follows its rule round by round: each takes an operator and an operand, so there are rounds
    enough. -/
theorem follows_chainFrom {op? : Token → Option BinaryOp} (hop : op? .finish = none)
    (h : ∀ lo, k.Follows d lo (lo + 1) c g) : ∀ n m lo left, k.body.length < lo + n →
      k.body.length < lo + m + 1 →
      k.Follows d lo lo (Checked.chainFrom op? c n left) (Grammar.chainFrom op? g m left) := by
  refine follows_loop_of_stop (Checked.chainFrom op? c) (Grammar.chainFrom op? g) 1 ?_ ?_
  · intro n lo left hlo t p hp
    rw [Checked.chainFrom, hp.peek_bind, hp.token_eq_finish hk (Nat.le_of_lt_succ hlo), hop]
    exact follows_pure left t p hp
  · intro n m lo left more
    refine .peek_bind fun s => ?_
    cases hs : op? s with
    | none => exact (follows_pure left).on
    | some op =>
      have hfinish : s ≠ .finish := fun he => by rw [he, hop] at hs; cases hs
      exact .bump_bind hk hfinish fun _ _ => (h _).bind fun right => more _ _ (by omega)

/-- A chain follows its rule, if the operands do. -/
theorem follows_chain {op? : Token → Option BinaryOp} (hop : op? .finish = none)
    (h : ∀ lo, k.Follows d lo (lo + 1) c g) (lo : Nat) :
    k.Follows d lo (lo + 1) (Checked.chain op? c) (Grammar.chain op? g) :=
  (h lo).bind fun left => .rounds_bind fun _ n m hlo hn hm =>
    (follows_chainFrom hk hop h n m _ left hn (by omega)).mono (Nat.le_refl _) hlo

/-- An expression follows its rule, if the factors in it do. -/
theorem follows_expressionOf (h : ∀ lo, k.Follows d lo (lo + 1) c g) (lo : Nat) :
    k.Follows d lo (lo + 1) (Checked.expressionOf c) (Grammar.expressionOf g) :=
  follows_chain hk rfl (follows_chain hk rfl h) lo

/-! ## Literals -/

theorem follows_number {digits : String} :
    k.FollowsOn (.number digits) d lo (lo + 1) Checked.number (Grammar.number digits) := by
  intro t p hp hs
  rw [Checked.number, hp.here_bind, hp.peek_bind, hs, Grammar.number]
  dsimp only
  cases Grammar.numberOf? digits with
  | some a =>
    have hne : p.current.token ≠ .finish := hs ▸ Token.noConfusion
    dsimp only
    rw [hp.bump_bind hne]
    exact .ok (hp.advance_on hk hne) (Nat.le_succ _)
  | none => exact follows_fail _ t p hp

/-- The token of an atom is taken, and its place is that of the atom. -/
theorem literal_end (hp : k.At d lo t p) (hne : p.current.token ≠ .finish) (a : Atom) :
    k.Ends d (lo + 1) t (.ok (.atom a (p.current.span t.file)) t.advance)
      (Grammar.literal a p) := by
  have hfile : p.current.span t.file = p.current.span p.file := by rw [hp.tapeFile, hp.file]
  rw [hfile]
  exact .ok (hp.advance_on hk hne) (Nat.le_succ _)

theorem follows_quoted {text : String} :
    k.FollowsOn (.string text) d lo (lo + 1) Checked.quoted (Grammar.literal (.string text)) := by
  intro t p hp hs
  have hne : p.current.token ≠ .finish := hs ▸ Token.noConfusion
  rw [Checked.quoted, hp.bump_bind hne, hs]
  exact literal_end hk hp hne _

theorem follows_truth {b : Bool} :
    k.FollowsOn (.bool b) d lo (lo + 1) Checked.truth (Grammar.literal (.bool b)) := by
  intro t p hp hs
  have hne : p.current.token ≠ .finish := hs ▸ Token.noConfusion
  rw [Checked.truth, hp.bump_bind hne, hs]
  exact literal_end hk hp hne _

/-! ## Sequences and records -/

/-- The items of a list follow their rule round by round: each takes an item, so there are rounds enough. -/
theorem follows_itemsFrom (close : Mark) (h : ∀ lo, k.Follows d lo (lo + 1) c g) :
    ∀ n m lo before, k.body.length < lo + n → k.body.length < lo + m →
      k.Follows d lo lo (Checked.itemsFrom c close n before) (Grammar.itemsFrom g close m before) := by
  refine follows_loop (Checked.itemsFrom c close) (Grammar.itemsFrom g close) fun n m lo before more => ?_
  refine .sees_bind (follows_pure _).on ((h lo).bind fun v => .eat_bind hk ?_ ?_)
  · exact more _ _ (by omega)
  · exact follows_return (Nat.le_succ _) _

/-- A list of items follows its rule, if the items do. -/
theorem follows_items (close : Mark) (h : ∀ lo, k.Follows d lo (lo + 1) c g) (lo : Nat) :
    k.Follows d lo lo (Checked.items c close) (Grammar.items g close) :=
  .rounds_bind fun _ n m hlo hn hm =>
    (follows_itemsFrom hk close h n (m + 1) _ [] hn (by omega)).mono (Nat.le_refl _) hlo

/-- An array follows its rule, if the items do. -/
theorem follows_array (h : ∀ lo, k.Follows d lo (lo + 1) c g) :
    k.FollowsOn (.mark .openBracket) d lo (lo + 1) (Checked.array c) (Grammar.array g) := by
  refine .here_bind fun span => .bump_bind hk Token.noConfusion fun _ _ => ?_
  refine (follows_items hk _ h _).bind fun vs => (follows_expect hk _ _).bind fun _ => ?_
  exact follows_return (Nat.le_succ _) _

theorem follows_fieldsFrom (h : ∀ lo, k.Follows d lo (lo + 1) c g) :
    ∀ n m lo (s : Entries Value × Bool), k.body.length < lo + n → k.body.length < lo + m →
      k.Follows d lo lo (Checked.fieldsFrom c n s.1 s.2) (Grammar.fieldsFrom g m s.1 s.2) := by
  refine follows_loop (fun n (s : Entries Value × Bool) => Checked.fieldsFrom c n s.1 s.2)
    (fun m s => Grammar.fieldsFrom g m s.1 s.2) fun n m lo s more => ?_
  refine .sees_bind (follows_pure _).on ((follows_expectName hk _).bind fun name => ?_)
  refine (follows_expect hk _ _).bind fun _ => (h _).bind fun v => .eat_bind hk ?_ ?_
  · have hmore := fun trailing => more (lo + 1 + 1 + 1 + 1) (s.1.insert name.1 v, trailing) (by omega)
    exact .sees_bind (hmore true).on (hmore false)
  · exact follows_return (by omega) _

/-- A map or a struct follows its rule, if the values do. -/
theorem follows_record (h : ∀ lo, k.Follows d lo (lo + 1) c g) :
    k.FollowsOn (.mark .openBrace) d lo (lo + 1) (Checked.record c) (Grammar.record g) := by
  refine .here_bind fun span => .bump_bind hk Token.noConfusion fun _ _ => ?_
  refine .rounds_bind fun lo' n m hlo hn hm => ?_
  refine (follows_fieldsFrom hk h n (m + 1) _ ([], false) hn (by omega)).bind fun fields => ?_
  exact (follows_expect hk _ _).bind fun _ => follows_return (by omega) _

/-- Parentheses follow their rule, if what stands in them does. -/
theorem follows_groupOrSet (h : ∀ lo, k.Follows d lo (lo + 1) c g) :
    k.FollowsOn (.mark .openParen) d lo (lo + 1) (Checked.groupOrSet c) (Grammar.groupOrSet g) := by
  refine .here_bind fun span => .bump_bind hk Token.noConfusion fun _ _ => .eat_bind hk ?_ ?_
  · exact follows_return (by omega) _
  refine (h _).bind fun first => .eat_bind hk ?_ ?_
  · refine (follows_items hk _ h _).bind fun more => (follows_expect hk _ _).bind fun _ => ?_
    exact follows_return (by omega) _
  · exact (follows_expect hk _ _).bind fun _ => follows_return (by omega) _

/-! ## Colors -/

/-- What may continue a color is not the end, and has characters. -/
theorem piece_ne_empty (h : k.At d lo t p) {text : String}
    (hs : Grammar.piece? p.current.token = some text) : p.current.token ≠ .finish ∧ text ≠ "" := by
  have hne : p.current.token ≠ .finish := fun he => by rw [he] at hs; cases hs
  refine ⟨hne, hk.text _ (List.mem_of_getElem? (h.lexeme_body (h.lt hk hne))) text ?_⟩
  cases htoken : p.current.token with
  | number digits => rw [htoken] at hs; exact .inl (congrArg Token.number (Option.some.inj hs))
  | ident name => rw [htoken] at hs; exact .inr (congrArg Token.ident (Option.some.inj hs))
  | _ => rw [htoken] at hs; cases hs

/-- The pieces of a color follow their rule: both loops stop at six digits, and a piece has at least one. -/
theorem follows_hexDigits (n : Nat) : ∀ m lo digits, 0 < lo → k.body.length < lo + n →
    6 ≤ digits.utf8ByteSize + m →
      k.Follows d lo lo (Checked.hexDigits n digits) (Grammar.hexDigits m digits) := by
  induction n with
  | zero => exact fun m lo digits _ hn _ => follows_beyond hn
  | succ n ih =>
    intro m lo digits hlo hn hm
    by_cases hsize : digits.utf8ByteSize < 6
    · obtain ⟨m, rfl⟩ := Nat.exists_eq_succ_of_ne_zero (n := m) (by omega)
      intro t p hp
      have ht : 0 < t.position := Nat.lt_of_lt_of_le hlo hp.reached
      rw [Checked.hexDigits, if_pos hsize, bind_of_ok (hp.piece_run ht), Grammar.hexDigits_succ,
        decide_eq_true hsize, Bool.true_and]
      cases hpiece : (if p.isAdjacent then Grammar.piece? p.current.token else none : Option String) with
      | none => exact follows_pure digits t p hp
      | some text =>
        have hpiece' : Grammar.piece? p.current.token = some text := by
          split at hpiece
          · exact hpiece
          · cases hpiece
        obtain ⟨hne, htext⟩ := piece_ne_empty hk hp hpiece'
        show k.Ends d lo t ((Checked.bump >>= fun _ => Checked.hexDigits n (digits ++ text)) t)
          (Grammar.hexDigits m (digits ++ text) p.advance)
        rw [hp.bump_bind hne]
        -- a piece has a byte at least, so that the rounds that are left
        -- suffice for the digits that are not
        have hmore : 6 ≤ (digits ++ text).utf8ByteSize + m := by
          have hpos : 0 < text.utf8ByteSize :=
            Nat.pos_of_ne_zero fun h => htext (String.utf8ByteSize_eq_zero_iff.mp h)
          rw [String.utf8ByteSize_append]
          omega
        exact ((ih m (lo + 1) _ (Nat.succ_pos _) (by omega) hmore _ _ (hp.advance_on hk hne)).mono
          (Nat.le_succ _)).since (Nat.le_succ _)
    · intro t p hp
      have hrule : Grammar.hexDigits m digits p = .ok digits p := by
        cases m with
        | zero => rfl
        | succ m => rw [Grammar.hexDigits_succ, decide_eq_false hsize]; rfl
      rw [Checked.hexDigits, if_neg hsize, hrule]
      exact .ok hp (Nat.le_refl _)

theorem follows_hexColor : k.FollowsOn (.mark .hash) d lo (lo + 1) Checked.hexColor Grammar.hexColor := by
  refine .here_bind fun span => .bump_bind hk Token.noConfusion fun _ _ => ?_
  refine .rounds_left fun lo' n hlo hn => ?_
  have hmore : 6 ≤ "".utf8ByteSize + 6 := Nat.le_add_left _ _
  refine (follows_hexDigits hk n 6 lo' "" (by omega) hn hmore).bind fun digits => ?_
  by_cases hhex : Checked.isHex digits.toList
  · obtain ⟨color, hcolor, hrun⟩ := channels_run hhex
    rw [if_pos hhex, hcolor]
    intro t p hp
    rw [bind_of_ok (hrun t)]
    exact .ok (hp.mono hlo) (Nat.le_refl _)
  · rw [if_neg hhex, colorOf?_eq_none (Bool.eq_false_iff.mpr hhex)]
    exact .peek_bind fun s => (follows_throw _ _ _).on

/-! ## References -/

/-- A reference to a macro or to a property follows its rule. -/
theorem follows_atReference :
    k.FollowsOn (.mark .atSign) d lo (lo + 1) Checked.atReference Grammar.atReference := by
  refine .here_bind fun span => .bump_bind hk Token.noConfusion fun _ _ => .eat_bind hk ?_ ?_
  · refine (follows_expectName hk _).bind fun sectionName => (follows_expect hk _ _).bind fun _ => ?_
    refine (follows_expectName hk _).bind fun key => (follows_expect hk _ _).bind fun _ => ?_
    exact follows_return (by omega) _
  · refine (follows_expectName hk _).bind fun name => ?_
    exact follows_return (by omega) _

/-- A reference to the environment follows its rule. -/
theorem follows_environmentReference :
    k.FollowsOn (.mark .dollar) d lo (lo + 1) Checked.environmentReference
      Grammar.environmentReference := by
  refine .here_bind fun span => .bump_bind hk Token.noConfusion fun _ _ => ?_
  refine (follows_expect hk _ _).bind fun _ => (follows_expectName hk _).bind fun name => ?_
  exact (follows_expect hk _ _).bind fun _ => follows_return (by omega) _

/-- The parts of a key follow their rule round by round: each takes a point and a name. -/
theorem follows_keyParts : ∀ n m lo key, k.body.length < lo + n → k.body.length < lo + m + 1 →
    k.Follows d lo lo (Checked.keyParts n key) (Grammar.keyParts m key) := by
  refine follows_loop_of_stop Checked.keyParts Grammar.keyParts 1 ?_ ?_
  · intro n lo key hlo t p hp
    have hnone : ¬p.current.token = .mark .point := by
      rw [hp.token_eq_finish hk (Nat.le_of_lt_succ hlo)]
      simp
    rw [Checked.keyParts, Checked.eat, bind_assoc, hp.sees_bind, decide_eq_false hnone]
    exact follows_pure key t p hp
  · intro n m lo key more
    refine .eat_bind hk ?_ (follows_pure _)
    exact (follows_expectName hk _).bind fun part => more _ _ (by omega)

/-- A reference to a text that is translated follows its rule. -/
theorem follows_localizationReference :
    k.FollowsOn (.mark .percent) d lo (lo + 1) Checked.localizationReference
      Grammar.localizationReference := by
  refine .here_bind fun span => .bump_bind hk Token.noConfusion fun _ _ => ?_
  refine (follows_expect hk _ _).bind fun _ => (follows_expectName hk _).bind fun first => ?_
  refine .rounds_bind fun lo' n m hlo hn hm => ?_
  refine (follows_keyParts hk n m lo' _ hn (by omega)).bind fun key => ?_
  exact (follows_expect hk _ _).bind fun _ => follows_return (by omega) _

/-! ## Names and constructors -/

/-- The text of a deferred expression is cut out of the source where its expression stands, which is a
    lexeme at least. -/
theorem follows_dyna (h : ∀ lo, k.Follows d lo (lo + 1) c g) (span : Span) :
    k.FollowsOn (.mark .openParen) d lo (lo + 1) (Checked.dyna c span) (Grammar.dyna g span) := by
  refine .bump_bind hk Token.noConfusion fun _ _ => .sees_bind (follows_fail_bind _).on ?_
  intro t p hp
  show k.Ends d (lo + 1) t
    ((Checked.current >>= fun l => c >>= fun _ => Checked.lastStop >>= fun stop =>
      Checked.expect .closeParen .dynaClose >>= fun _ => get >>= fun v =>
        Checked.cut l.start stop v.source >>= fun text =>
          pure (Value.atom (.dyna (String.ofList (Text.trim text))) span)) t)
    ((g >>= fun _ => get >>= fun q => Grammar.expect .closeParen .dynaClose >>= fun _ => get >>= fun r =>
      pure (Value.atom (.dyna (String.ofList (Text.trim
        (takeBytes (q.lastStop - p.current.start) (dropBytes p.current.start r.source))))) span)) p)
  rw [bind_of_ok hp.current_run]
  refine .bind (h t.position t p hp.self) fun _ u q hu _ => ?_
  rw [bind_of_ok (hu.lastStop_run (Nat.lt_of_lt_of_le (Nat.succ_pos _) hu.reached))]
  refine .bind (follows_expect hk _ _ u q hu) fun _ v r hv _ => ?_
  have hslice := hp.slice hk hu hu.reached
  rw [get_bind, hv.tapeSource, bind_of_ok (cut_run hslice), get_bind, hv.source]
  have := hp.reached
  exact .ok (hv.mono (by omega)) (Nat.le_refl _)

/-- A constructor follows its rule, if the arguments do. -/
theorem follows_constructor (h : ∀ lo, k.Follows d lo (lo + 1) c g) (name : String) (span : Span) :
    k.FollowsOn (.mark .openParen) d lo (lo + 1) (Checked.constructor c name span)
      (Grammar.constructor g name span) := by
  by_cases hname : name = "Dyna"
  · rw [Checked.constructor, Grammar.constructor, if_pos hname, if_pos hname]
    exact follows_dyna hk h span
  rw [Checked.constructor, Grammar.constructor, if_neg hname, if_neg hname]
  refine .bump_bind hk Token.noConfusion fun _ _ => (follows_items hk _ h _).bind fun vs => ?_
  refine (follows_expect hk _ _).bind fun _ => ?_
  cases hmade : Grammar.construct name vs span with
  | ok v => exact follows_return (by omega) _
  | error fault =>
    obtain ⟨cause, found, place, rfl⟩ := construct_error hmade
    exact follows_throw _ _ _

/-- The parts of a name follow their rule round by round: each takes a point and a piece. -/
theorem follows_nameParts : ∀ n m lo name, k.body.length < lo + n → k.body.length < lo + m + 1 →
    k.Follows d lo lo (Checked.nameParts n name) (Grammar.nameParts m name) := by
  refine follows_loop_of_stop Checked.nameParts Grammar.nameParts 1 ?_ ?_
  · intro n lo name hlo t p hp
    rw [Checked.nameParts, bind_of_ok hp.seesPart_run, hp.token_eq_finish hk (Nat.le_of_lt_succ hlo),
      if_neg (by simp)]
    exact follows_pure name t p hp
  · intro n m lo name more t p hp
    rw [Checked.nameParts, bind_of_ok hp.seesPart_run, Grammar.nameParts_eq, get_bind]
    by_cases hpoint : p.current.token = .mark .point
    · rw [if_pos hpoint]
      cases hpart : Grammar.piece? p.second with
      | none => exact follows_pure name t p hp
      | some text =>
        -- the token behind the point is the one that has been seen, so its arm is taken
        have hne : p.current.token ≠ .finish := hpoint ▸ Token.noConfusion
        have hsecond := hp.second_eq (hp.lt hk hne)
        have hu := hp.advance_on hk hne
        obtain ⟨hne', -⟩ := piece_ne_empty hk hu (hsecond ▸ hpart)
        have hv := hu.advance_on hk hne'
        have hmore := (more _ (name ++ "." ++ text) (by omega) _ _ hv).since (t := t)
          (Nat.le_add_right t.position 2)
        rw [if_pos Option.isSome_some, hp.bump_bind hne, hu.bump_bind hne', ← hsecond]
        cases hpiece : p.second with
        | ident part => rw [hpiece] at hpart; cases hpart; exact hmore
        | number part => rw [hpiece] at hpart; cases hpart; exact hmore
        | _ => rw [hpiece] at hpart; cases hpart
    · rw [if_neg hpoint]
      exact follows_pure name t p hp

/-- What begins with a name follows its rule, if the expressions in it do. -/
theorem follows_named (h : ∀ lo, k.Follows d lo (lo + 1) c g) (first : String) :
    k.FollowsOn (.ident first) d lo (lo + 1) (Checked.named c) (Grammar.named g first) := by
  refine .takeName_bind hk fun span => ?_
  refine .sees_bind (fun t p hp hs => (follows_constructor hk h first span t p hp hs).mono (by omega)) ?_
  refine .rounds_bind fun lo' n m hlo hn hm => ?_
  refine (follows_nameParts hk n m lo' _ hn (by omega)).bind fun name => ?_
  exact .sees_bind (follows_fail_bind _).on (follows_return hlo _)

/-! ## Nesting -/

/-- What begins a factor, but for a sign, follows its rule, if the expressions in it do. -/
theorem follows_primary (h : ∀ lo, k.Follows d lo (lo + 1) c g) (lo : Nat) :
    k.Follows d lo (lo + 1) (Checked.primary c) (Grammar.primary g) := by
  refine .peek_bind fun s => ?_
  cases s with
  | number digits => exact follows_number hk
  | string text => exact follows_quoted hk
  | bool b => exact follows_truth hk
  | ident name => exact follows_named hk h name
  | finish => exact (follows_fail _).on
  | mark m =>
    cases m with
    | openBracket => exact follows_array hk h
    | openBrace => exact follows_record hk h
    | openParen => exact follows_groupOrSet hk h
    | hash => exact follows_hexColor hk
    | atSign => exact follows_atReference hk
    | dollar => exact follows_environmentReference hk
    | percent => exact follows_localizationReference hk
    | _ => exact (follows_fail _).on

/-- **A factor follows at every depth**: what the rule counts down are the levels that may be opened. -/
theorem follows_factor (m : Nat) : ∀ n d lo, d + m = maxNesting → m < n →
    k.Follows d lo (lo + 1) (Checked.factor n) (Grammar.factor m) := by
  induction m with
  | zero =>
    intro n d lo hd hn
    obtain ⟨n, rfl⟩ := Nat.exists_eq_succ_of_ne_zero (Nat.ne_zero_of_lt hn)
    exact follows_nested_full (Nat.le_of_eq hd.symm)
  | succ m ih =>
    intro n d lo hd hn
    obtain ⟨n, rfl⟩ := Nat.exists_eq_succ_of_ne_zero (Nat.ne_zero_of_lt hn)
    have hfactor : ∀ lo, k.Follows (d + 1) lo (lo + 1) (Checked.factor n) (Grammar.factor m) := fun lo =>
      ih n (d + 1) lo (by omega) (by omega)
    refine follows_nested (by omega) ?_
    refine .sees_bind (.here_bind fun span => .bump_bind hk Token.noConfusion fun _ _ => ?_) ?_
    · rw [Checked.leastInteger?, bind_assoc]
      refine .peek_bind fun s => ?_
      -- a minus before the least integer is a part of the number, and before anything else a sign
      have hneg : k.Follows (d + 1) (lo + 1) (lo + 1)
          (Checked.factor n >>= fun v => pure (Value.neg v span))
          (Grammar.factor m >>= fun v => pure (Value.neg v span)) :=
        (hfactor _).bind fun v => follows_return (Nat.le_succ _) _
      cases s with
      | number digits =>
        by_cases hleast : Grammar.isLeastNegated digits
        · simp only [if_pos hleast, bind_assoc]
          refine .bump_bind hk Token.noConfusion fun _ _ => ?_
          exact follows_return (Nat.le_succ _) _
        · simp only [if_neg hleast]
          exact hneg.on
      | _ => exact hneg.on
    · exact follows_primary hk (follows_expressionOf hk hfactor) lo

/-- **Expressions follow the rules of the grammar.** -/
theorem follows_expression (lo : Nat) :
    k.Follows 0 lo (lo + 1) Checked.expression Grammar.expression := by
  refine follows_expressionOf hk (fun lo => ?_) lo
  exact follows_factor hk maxNesting _ 0 lo (Nat.zero_add _) (Nat.lt_succ_self _)

end Rules

end Yini.Roll
