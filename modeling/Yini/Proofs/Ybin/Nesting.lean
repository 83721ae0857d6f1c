import Yini.Proofs.Outcome
import Yini.Ybin.Nesting

/-!
A reader stays inside its bytes, whatever they are and however often it is called.

`Follows` compares a read with the one that counts: they end alike, the count of open containers comes
back to what it was, also by a fault, bytes are only ever taken from the front, and there is a byte for
everything that a number in the data made the reader begin.  It is closed under reads one after the other
(`Follows.bind`) and under opening a container (`follows_nested`), and holds of each function of the
reader.  What it says of one call (`ReadCall.follows`) goes on from call to call
(`reader_calls_stay_inside`).
-/

namespace Yini.Ybin

/-- The bytes that have been taken and those that are left. -/
def Reader.total (r : Reader) : Nat := r.position + r.rest.length

/-- What happens between two tallies: `k` of the bytes that are taken stand for no round, or `slack`
    rounds at most are ahead of the bytes. -/
structure Tally.Advances (k slack : Nat) (s t : Tally) : Prop where
  total : t.reader.total = s.reader.total
  depth : t.depth = s.depth
  deepest : t.deepest ≤ max s.deepest (maxNesting + 1)
  position : s.reader.position ≤ t.reader.position
  grows : s.rounds ≤ t.rounds
  rounds : t.rounds + s.reader.position + k ≤ s.rounds + t.reader.position + slack

/-- Nothing has been taken where nothing was read. -/
theorem Tally.advances_refl (s : Tally) (e : Nat) : s.Advances 0 e s :=
  ⟨rfl, rfl, Nat.le_max_left _ _, Nat.le_refl _, Nat.le_refl _, Nat.le_add_right _ _⟩

namespace Counting

open Tally

variable {α β : Type} {c : Counting α} {r : Read α} {d lo k k' m n e j : Nat}

/-- **The read that counts follows the read**, where `d` containers are open and at least `lo` bytes have
    been taken: both give the same, having taken `k` bytes at least, or stop with the same fault of the
    format, whose offset has been reached. -/
def Follows (d lo k e : Nat) (c : Counting α) (r : Read α) : Prop :=
  ∀ s : Tally, s.depth = d → lo ≤ s.reader.position →
    (∃ a t, c s = .ok a t ∧ r s.reader = .ok a t.reader ∧ s.Advances k 0 t) ∨
      ∃ cause offset t, c s = .error (.format cause offset) t ∧
        r s.reader = .error (.format cause offset) t.reader ∧ offset ≤ t.reader.position ∧
          s.Advances 0 e t

theorem Follows.pure (a : α) : Follows d lo 0 0 (pure a) (pure a) := fun s _ _ =>
  .inl ⟨a, s, rfl, rfl, s.advances_refl 0⟩

theorem Follows.mono (h : Follows d lo k e c r) (hk : k' ≤ k) (he : e ≤ j) :
    Follows d lo k' j c r := by
  intro s hd hs
  rcases h s hd hs with ⟨a, t, hc, hr, h⟩ | ⟨cause, offset, t, hc, hr, hoffset, h⟩
  · exact .inl ⟨a, t, hc, hr, { h with rounds := by have := h.rounds; omega }⟩
  · exact .inr ⟨cause, offset, t, hc, hr, hoffset, { h with rounds := by have := h.rounds; omega }⟩

/-- A read after a read.  Rounds that are ahead in the second one can be made up for in the first. -/
theorem Follows.bind {f : α → Counting β} {g : α → Read β} (h : Follows d lo k e c r)
    (hn : n ≤ k + m) (he : j ≤ e + k) (hf : ∀ a, Follows d (lo + k) m j (f a) (g a)) :
    Follows d lo n e (c >>= f) (r >>= g) := by
  intro s hd hs
  rcases h s hd hs with ⟨a, t, hc, hr, hst⟩ | ⟨cause, offset, t, hc, hr, hoffset, hst⟩
  · obtain ⟨htotal, hdepth, hdeepest, hposition, hgrows, hrounds⟩ := hst
    rcases hf a t (hdepth.trans hd) (by omega) with
      ⟨b, u, hc', hr', htu⟩ | ⟨cause, offset, u, hc', hr', hoffset, htu⟩
    all_goals obtain ⟨htotal', hdepth', hdeepest', hposition', hgrows', hrounds'⟩ := htu
    · exact .inl ⟨b, u, bind_eq_ok.mpr ⟨a, t, hc, hc'⟩, bind_eq_ok.mpr ⟨a, _, hr, hr'⟩,
        htotal'.trans htotal, hdepth'.trans hdepth, by omega, by omega, by omega, by omega⟩
    · exact .inr ⟨cause, offset, u, bind_eq_error.mpr (.inr ⟨a, t, hc, hc'⟩),
        bind_eq_error.mpr (.inr ⟨a, _, hr, hr'⟩), hoffset,
        htotal'.trans htotal, hdepth'.trans hdepth, by omega, by omega, by omega, by omega⟩
  · exact .inr ⟨cause, offset, t, bind_eq_error.mpr (.inl hc), bind_eq_error.mpr (.inl hr), hoffset, hst⟩

/-! ## Reads that open no container -/

/-- Reads that do not count can be put together before or after counting. -/
theorem lift_bind (r : Read α) (f : α → Read β) :
    lift (r >>= f) = lift r >>= fun a => lift (f a) := by
  funext s
  simp only [lift, bind, EStateM.bind]
  cases r s.reader <;> rfl

/-- A read that is followed where nothing is counted. -/
abbrev Careful (d lo k : Nat) (r : Read α) : Prop := Follows d lo k 0 (lift r) r

/-- **One careful read after the other is careful**: the second begins where the first has come to. -/
theorem Careful.bind {f : α → Read β} (h : Careful d lo k r) (hn : n ≤ k + m)
    (hf : ∀ a, Careful d (lo + k) m (f a)) : Careful d lo n (r >>= f) := by
  rw [Careful, lift_bind]
  exact Follows.bind h hn (Nat.zero_le _) hf

theorem careful_pure (a : α) : Careful d lo 0 (pure a : Read α) := Follows.pure a

/-- A fault that names a position within what has been read is careful. -/
theorem careful_failAt {offset : Nat} (h : offset ≤ lo) (cause : FormatCause) :
    Careful d lo k (Read.failAt offset cause : Read α) := fun s _ hs =>
  .inr ⟨cause, offset, s, rfl, rfl, Nat.le_trans h hs, s.advances_refl 0⟩

/-- Nothing comes after a fault. -/
theorem follows_failAt_bind {offset : Nat} (h : offset ≤ lo) (cause : FormatCause)
    {f : α → Counting β} {g : α → Read β} :
    Follows d lo k e (lift (Read.failAt offset cause) >>= f) (Read.failAt offset cause >>= g) :=
  fun s _ hs => .inr ⟨cause, offset, s, rfl, rfl, Nat.le_trans h hs, s.advances_refl e⟩

/-- Looking at the reader takes no bytes. -/
theorem follows_get_bind {f : Reader → Counting β} {g : Reader → Read β}
    (h : ∀ r : Reader, lo ≤ r.position → Follows d r.position k e (f r) (g r)) :
    Follows d lo k e (lift get >>= f) (get >>= g) := fun s hd hs =>
  h s.reader hs s hd (Nat.le_refl _)

/-- The position that is asked for is the one that has been reached. -/
theorem follows_position_bind {f : Nat → Counting β} {g : Nat → Read β}
    (h : ∀ start, lo ≤ start → Follows d start k e (f start) (g start)) :
    Follows d lo k e (lift Read.position >>= f) (Read.position >>= g) := fun s hd hs =>
  h s.reader.position hs s hd (Nat.le_refl _)

theorem careful_position_bind {f : Nat → Read β}
    (h : ∀ start, lo ≤ start → Careful d start k (f start)) :
    Careful d lo k (Read.position >>= f) := by
  rw [Careful, lift_bind]
  exact follows_position_bind h

/-- Bytes are taken if they are there, and if not, none is. -/
theorem careful_take (n : Nat) : Careful d lo n (Read.take n) := by
  intro s _ _
  have htake : Read.take n s.reader = if (s.reader.rest.take n).length = n
      then .ok (s.reader.rest.take n) ⟨s.reader.rest.drop n, s.reader.position + n⟩
      else .error (.format (.unexpectedEnd n s.reader.rest.length) s.reader.position) s.reader := by
    show (if (s.reader.rest.take n).length = n then _ else _ : Read _) _ = _
    split <;> rfl
  by_cases hlength : (s.reader.rest.take n).length = n
  · rw [if_pos hlength] at htake
    rw [List.length_take] at hlength
    refine .inl ⟨_, { s with reader := ⟨s.reader.rest.drop n, s.reader.position + n⟩ },
      by rw [lift, htake], htake, ?_, rfl, Nat.le_max_left _ _, Nat.le_add_right _ n, Nat.le_refl _, ?_⟩
    · simp only [Reader.total, List.length_drop]
      omega
    · simp only
      omega
  · rw [if_neg hlength] at htake
    exact .inr ⟨_, _, s, by rw [lift, htake], htake, Nat.le_refl _, s.advances_refl 0⟩

theorem careful_byte : Careful d lo 1 Read.byte := by
  refine (careful_take 1).bind (m := 0) (by omega) fun _ => ?_
  split <;> exact careful_pure _

theorem careful_word : Careful d lo 4 Read.word := by
  refine (careful_take 4).bind (m := 0) (by omega) fun _ => ?_
  split <;> exact careful_pure _

theorem careful_count : Careful d lo 4 Read.count :=
  Careful.bind careful_word (by omega) fun _ => careful_pure _

theorem careful_bool : Careful d lo 1 Read.bool :=
  Careful.bind careful_byte (by omega) fun _ => careful_pure _

theorem careful_float : Careful d lo 4 Read.float :=
  Careful.bind careful_word (by omega) fun _ => careful_pure _

/-- Reading a text takes the four bytes of its length at least. -/
theorem careful_text : Careful d lo 4 Read.text := by
  refine Careful.bind careful_count (m := 0) (by omega) fun n => careful_position_bind fun start _ => ?_
  refine (careful_take n).bind (m := 0) (by omega) fun bytes => ?_
  split
  · exact careful_pure _
  · exact careful_failAt (Nat.le_add_right _ _) _

/-- An atom takes a byte at least. -/
theorem careful_atom {t : Tag} (hs : ∀ k, t ≠ .sequence k) (hr : ∀ k, t ≠ .record k) :
    Careful d lo 1 (Read.atom t) := by
  have htext : ∀ {lo} (f : String → Option Atom),
      Careful d lo 1 (Read.text >>= fun s => pure (f s)) := fun f =>
    Careful.bind careful_text (by omega) fun _ => careful_pure _
  cases t with
  | int => exact Careful.bind careful_word (by omega) fun _ => careful_pure _
  | float => exact Careful.bind careful_float (by omega) fun _ => careful_pure _
  | bool => exact Careful.bind careful_bool (by omega) fun _ => careful_pure _
  | string => exact htext _
  | color =>
    refine (careful_take 4).bind (m := 0) (by omega) fun front => ?_
    split <;> exact careful_pure _
  | coord =>
    refine Careful.bind careful_bool (m := 0) (by omega) fun _ => ?_
    refine Careful.bind careful_float (m := 0) (by omega) fun _ => ?_
    refine Careful.bind careful_float (m := 0) (by omega) fun _ => ?_
    exact Careful.bind careful_float (by omega) fun _ => careful_pure _
  | path => exact htext _
  | sequence k => exact absurd rfl (hs k)
  | record k => exact absurd rfl (hr k)
  | reference =>
    refine careful_position_bind fun start _ => Careful.bind careful_byte (m := 0) (by omega) fun b => ?_
    split
    · exact (htext _).mono (Nat.zero_le _) (Nat.le_refl _)
    · exact careful_failAt (Nat.le_add_right _ _) _
  | dyna => exact htext _

/-! ## Containers -/

/-- A container that may be opened is left again, also by a fault. -/
theorem follows_nested (hd : d ≤ maxNesting) (h : Follows (d + 1) lo k e c r) :
    Follows d lo k e (nested c) r := by
  intro s hs hlo
  have hopen : ¬maxNesting < s.depth := by omega
  have hreader : s.enter.reader = s.reader := rfl
  rcases h s.enter (congrArg (· + 1) hs) hlo with ⟨a, t, hc, hr, hst⟩ | ⟨cause, offset, t, hc, hr, hoffset, hst⟩
  all_goals
    obtain ⟨htotal, hdepth, hdeepest, hposition, hgrows, hrounds⟩ := hst
    simp only [enter] at hdepth hdeepest
  · refine .inl ⟨a, t.leave, by rw [nested, if_neg hopen, hc], hr, htotal, ?_, ?_, hposition, hgrows, hrounds⟩
    · simp only [leave]; omega
    · simp only [leave]; omega
  · refine .inr ⟨cause, offset, t.leave, by rw [nested, if_neg hopen, hc], hr, hoffset, htotal, ?_, ?_,
      hposition, hgrows, hrounds⟩
    · simp only [leave]; omega
    · simp only [leave]; omega

/-- No container is opened above the limit. -/
theorem follows_nested_full (hd : maxNesting < d) : Follows d lo k e (nested c) Read.tooDeep := by
  intro s hs hlo
  have hfull : maxNesting < s.depth := hs ▸ hd
  exact .inr ⟨.tooDeep, s.reader.position, s, by rw [nested, if_pos hfull]; rfl, rfl, Nat.le_refl _,
    s.advances_refl e⟩

/-- A round is begun before there is a byte for it. -/
theorem follows_begin (h : Follows d lo (k + 1) e c r) :
    Follows d lo k (e + 1) (begin >>= fun _ => c) r := by
  intro s hs hlo
  rcases h { s with rounds := s.rounds + 1 } hs hlo with
    ⟨a, t, hc, hr, hst⟩ | ⟨cause, offset, t, hc, hr, hoffset, hst⟩
  all_goals
    obtain ⟨htotal, hdepth, hdeepest, hposition, hgrows, hrounds⟩ := hst
    simp only at hgrows hrounds
  · exact .inl ⟨a, t, hc, hr, htotal, hdepth, hdeepest, hposition, by omega, by omega⟩
  · exact .inr ⟨cause, offset, t, hc, hr, hoffset, htotal, hdepth, hdeepest, hposition, by omega, by omega⟩

section Counted

variable {item : Counting α} {item' : Read α}

/-- The last round may have found no byte. -/
theorem follows_repeatFrom (h : ∀ lo, Follows d lo 1 0 item item') (n : Nat) : ∀ lo before,
    Follows d lo 0 1 (repeatFrom item n before) (Read.repeatFrom item' n before) := by
  induction n with
  | zero => exact fun lo before => (Follows.pure _).mono (Nat.le_refl _) (Nat.zero_le _)
  | succ n ih =>
    intro lo before
    exact follows_begin ((h lo).bind (by omega) (by omega) fun a => ih (lo + 1) (a :: before))

/-- The bytes of the count make up for the last round. -/
theorem follows_counted (h : ∀ lo, Follows d lo 1 0 item item') :
    Follows d lo 4 0 (counted item) (Read.counted item') :=
  Follows.bind careful_count (by omega) (by omega) fun n => follows_repeatFrom h n (lo + 4) []

/-- Reading a field takes its name, and follows the reader of its value. -/
theorem follows_field {v : Counting Value} {v' : Read Value} (h : ∀ lo, Follows d lo 2 0 v v') :
    Follows d lo 1 0 (field v) (Read.field v') :=
  Follows.bind careful_text (m := 0) (by omega) (by omega) fun _ =>
    Follows.bind (h _) (by omega) (by omega) fun _ => .pure _

end Counted

/-- A value has a tag, and at least a byte behind it. -/
theorem follows_valueWith {items : Counting (List Value)} {items' : Read (List Value)}
    {fields : Counting (List (String × Value))} {fields' : Read (List (String × Value))}
    (hitems : ∀ lo, Follows d lo 1 0 items items') (hfields : ∀ lo, Follows d lo 1 0 fields fields') :
    Follows d lo 2 0 (valueWith items fields) (Read.valueWith items' fields') := by
  refine follows_position_bind fun start _ => ?_
  refine Follows.bind careful_byte (m := 1) (j := 0) (by omega) (by omega) fun b => ?_
  have hfail : ∀ {lo k}, start ≤ lo →
      Careful d lo k (Read.failAt start (.unknownTag b.toNat) : Read Value) := fun h => careful_failAt h _
  cases htag : Tag.ofByte? b with
  | none => exact hfail (Nat.le_add_right _ _)
  | some t =>
    cases t with
    | sequence k => exact (hitems _).bind (by omega) (by omega) fun _ => .pure _
    | record k => exact (hfields _).bind (by omega) (by omega) fun _ => .pure _
    | _ =>
      refine Follows.bind (careful_atom (by rintro k ⟨⟩) (by rintro k ⟨⟩)) (m := 0) (j := 0) (by omega)
        (by omega) fun o => ?_
      cases o with
      | some a => exact .pure _
      | none => exact hfail (by omega)

/-- **A value is followed at every depth**: what the count leaves are the levels that may be opened. -/
theorem follows_value {n : Nat} (hn : d + n = maxNesting + 1) (hbound : n < m) :
    Follows d lo 2 0 (value m) (Read.value n) := by
  induction n generalizing d lo m with
  | zero =>
    obtain ⟨m, rfl⟩ := Nat.exists_eq_succ_of_ne_zero (Nat.ne_zero_of_lt hbound)
    exact follows_valueWith (fun _ => follows_nested_full (by omega)) fun _ =>
      follows_nested_full (by omega)
  | succ n ih =>
    obtain ⟨m, rfl⟩ := Nat.exists_eq_succ_of_ne_zero (Nat.ne_zero_of_lt hbound)
    have hvalue : ∀ lo, Follows (d + 1) lo 2 0 (value m) (Read.value n) := fun lo =>
      ih (by omega) (by omega)
    have hone : 1 ≤ 4 := by decide
    have hitem : ∀ lo, Follows (d + 1) lo 1 0 (value m) (Read.value n) := fun lo =>
      (hvalue lo).mono (by decide) (Nat.le_refl _)
    refine follows_valueWith (fun lo => ?_) fun lo => ?_
    · exact follows_nested (by omega) ((follows_counted hitem).mono hone (Nat.le_refl _))
    · exact follows_nested (by omega)
        ((follows_counted fun lo => follows_field hvalue).mono hone (Nat.le_refl _))

/-! ## Documents -/

/-- Reading a value from the outside takes two bytes, and opens nothing before. -/
theorem follows_anyValue : Follows 0 lo 2 0 anyValue Read.loneValue := follows_value rfl (by omega)

theorem follows_section : Follows 0 lo 1 0 «section» Read.section := by
  have hvalue : ∀ lo, Follows 1 lo 2 0 anyValue (Read.value maxNesting) := fun lo =>
    follows_value (Nat.add_comm 1 _) (by omega)
  have hparents : ∀ lo, Follows 0 lo 4 0 (counted (lift Read.text)) (Read.counted Read.text) := fun lo =>
    follows_counted fun lo => Follows.mono careful_text (by decide) (Nat.le_refl _)
  have hproperties : ∀ lo, Follows 0 lo 4 0 (nested (counted (field anyValue)))
      (Read.counted (Read.field (Read.value maxNesting))) := fun lo =>
    follows_nested (Nat.zero_le _) (follows_counted fun lo => follows_field hvalue)
  have hregistry : ∀ lo, Follows 0 lo 4 0 (counted anyValue) (Read.counted Read.loneValue) := fun lo =>
    follows_counted fun lo => Follows.mono follows_anyValue (by decide) (Nat.le_refl _)
  refine Follows.bind careful_text (m := 0) (j := 0) (by omega) (by omega) fun name => ?_
  refine (hparents _).bind (m := 0) (j := 0) (by omega) (by omega) fun parents => ?_
  refine (hproperties _).bind (m := 0) (j := 0) (by omega) (by omega) fun properties => ?_
  exact (hregistry _).bind (by omega) (by omega) fun registry => .pure _

/-- **Sections are read one after the other**: each takes a byte at least for the round that the count made
    the reader begin. -/
theorem follows_sections (n : Nat) : ∀ lo d, Follows 0 lo 0 1 (sections n d) (Read.sections n d) := by
  induction n with
  | zero => exact fun lo d => (Follows.pure _).mono (Nat.le_refl _) (Nat.zero_le _)
  | succ n ih =>
    intro lo d
    refine follows_begin (Follows.bind follows_section (m := 0) (j := 1) (by omega) (by omega) fun s => ?_)
    exact ih (lo + 1) (d.insertSection s)

/-- The mark, the version, a count and the sections are followed up to the end of the data. -/
theorem follows_document : Follows 0 lo 9 0 document Read.document := by
  refine Follows.bind careful_word (m := 5) (j := 0) (by omega) (by omega) fun mark => ?_
  by_cases hmark : mark.toNat ≠ magic
  · rw [if_pos hmark, if_pos hmark]
    exact follows_failAt_bind (Nat.zero_le _) _
  rw [if_neg hmark, if_neg hmark]
  refine Follows.bind careful_byte (m := 4) (j := 0) (by omega) (by omega) fun v => ?_
  by_cases hversion : version < v
  · rw [if_pos hversion, if_pos hversion]
    exact follows_failAt_bind (by omega) _
  rw [if_neg hversion, if_neg hversion]
  refine Follows.bind careful_count (m := 0) (j := 1) (by omega) (by omega) fun n => ?_
  refine (follows_sections n _ _).bind (m := 0) (j := 0) (by omega) (by omega) fun d => ?_
  refine follows_get_bind fun r _ => ?_
  by_cases hrest : !r.rest.isEmpty
  · rw [if_pos hrest, if_pos hrest]
    exact follows_failAt_bind (Nat.le_refl _) _
  · rw [if_neg hrest, if_neg hrest]
    dsimp only
    cases d.sections.get? defineName <;> exact .pure _

end Counting

/-! ## Calls -/

namespace ReadCall

/-- The bytes that a call takes at least. -/
def least : ReadCall → Nat
  | value => 2
  | document => 9

/-- **A call is followed**, where no container is open. -/
theorem follows (c : ReadCall) : Counting.Follows 0 0 c.least 0 c.count c.read := by
  cases c with
  | value => exact Counting.follows_anyValue
  | document => exact Counting.follows_document

end ReadCall

/-- A tally between two calls on a reader of `bytes`. -/
structure Tally.Idle (bytes : ByteArray) (s : Tally) : Prop where
  depth : s.depth = 0
  total : s.reader.total = bytes.size
  deepest : s.deepest ≤ maxNesting + 1
  rounds : s.rounds ≤ s.reader.position

namespace Tally

variable {bytes : ByteArray} {s t : Tally}

/-- A reader at the front of its bytes is idle. -/
theorem start_idle (bytes : ByteArray) : (start bytes).Idle bytes :=
  ⟨rfl, (Nat.zero_add _).trans (Array.length_toList ..), Nat.zero_le _, Nat.le_refl _⟩

/-- What a reader is at does not lie behind its last byte. -/
theorem Idle.position_le (h : s.Idle bytes) : s.reader.position ≤ bytes.size :=
  h.total ▸ Nat.le_add_right _ _

/-- A read that closes what it opens leaves the reader idle. -/
theorem Idle.advances {k : Nat} (h : s.Idle bytes) (ht : s.Advances k 0 t) : t.Idle bytes where
  depth := ht.depth.trans h.depth
  total := ht.total.trans h.total
  deepest := Nat.le_trans ht.deepest (Nat.max_le.mpr ⟨h.deepest, Nat.le_refl _⟩)
  rounds := by have := ht.rounds; have := h.rounds; omega

/-- What a call leaves is again between two calls. -/
theorem Idle.after (h : s.Idle bytes) (c : ReadCall) : (s.after c).Idle bytes := by
  rcases c.follows s h.depth (Nat.zero_le _) with ⟨a, t, hc, -, hst⟩ | ⟨cause, offset, t, hc, -, -, hst⟩
  all_goals rw [Tally.after, hc]; exact h.advances hst

/-- **After any calls the reader is idle again**: each call leaves it so. -/
theorem idle_foldl (calls : List ReadCall) (h : s.Idle bytes) : (calls.foldl after s).Idle bytes := by
  induction calls generalizing s with
  | nil => exact h
  | cons c calls ih => exact ih (h.after c)

end Tally

/-- A value takes two bytes, in a container or not. -/
theorem value_takes_two (levels : Fin (maxNesting + 2)) (r : Reader) :
    match Read.value levels r with
    | .ok _ r' => r.position + 2 ≤ r'.position
    | .error _ _ => True := by
  obtain ⟨n, hn⟩ := levels
  let s : Tally := { reader := r, depth := maxNesting + 1 - n }
  have hvalue : Counting.Follows (maxNesting + 1 - n) 0 2 0 (Counting.value (n + 1)) (Read.value n) :=
    Counting.follows_value (by omega) (Nat.lt_succ_self n)
  rcases hvalue s rfl (Nat.zero_le _) with ⟨v, t, -, hr, hst⟩ | ⟨cause, offset, t, -, hr, -⟩
  · have hrounds := hst.rounds
    have hgrows := hst.grows
    rw [hr]
    show r.position + 2 ≤ t.reader.position
    change t.rounds + r.position + 2 ≤ 0 + t.reader.position + 0 at hrounds
    omega
  · rw [hr]
    exact trivial

/-- **The calls on a reader stay inside its bytes.**  Let `c` be a call on a reader of any bytes, after any
    calls before it, some of which may have failed, and let `s` and `t` be the tallies before and after it.
    The call gives a result or a fault of the format at an offset inside the data.  The position does not
    decrease and is inside the data.  A value takes two bytes, also one inside a container, and no more
    parts are begun than bytes are taken, whatever the counts in the data are.  The containers are never
    nested deeper than the limit and one more, and none is open after the call. -/
theorem reader_calls_stay_inside (bytes : ByteArray) (calls : List ReadCall) (c : ReadCall) :
    let s := calls.foldl Tally.after (Tally.start bytes)
    let t := s.after c
    ((∃ a, c.count s = .ok a t ∧ c.read s.reader = .ok a t.reader ∧
          s.reader.position + c.least ≤ t.reader.position) ∨
        ∃ cause offset, c.count s = .error (.format cause offset) t ∧
          c.read s.reader = .error (.format cause offset) t.reader ∧ offset ≤ bytes.size) ∧
      (s.reader.position ≤ t.reader.position ∧ t.reader.position ≤ bytes.size) ∧
      (∀ (levels : Fin (maxNesting + 2)) (r : Reader),
        match Read.value levels r with
        | .ok _ r' => r.position + 2 ≤ r'.position
        | .error _ _ => True) ∧
      (s.rounds ≤ t.rounds ∧ t.rounds + s.reader.position ≤ s.rounds + t.reader.position) ∧
      t.rounds ≤ bytes.size ∧ t.deepest ≤ maxNesting + 1 ∧ t.depth = 0 := by
  intro s t
  have hs : s.Idle bytes := Tally.idle_foldl calls (Tally.start_idle bytes)
  have ht : t.Idle bytes := hs.after c
  have hsize : t.rounds ≤ bytes.size := Nat.le_trans ht.rounds ht.position_le
  rcases c.follows s hs.depth (Nat.zero_le _) with ⟨a, u, hc, hr, hsu⟩ | ⟨cause, offset, u, hc, hr, hoffset, hsu⟩
  all_goals
    obtain rfl : t = u := by rw [show t = left (c.count s) from rfl, hc]; rfl
    have hrounds := hsu.rounds
    have hgrows := hsu.grows
    refine ⟨?_, ⟨hsu.position, ht.position_le⟩, value_takes_two, ⟨hgrows, by omega⟩, hsize, ht.deepest,
      ht.depth⟩
  · exact .inl ⟨a, hc, hr, by omega⟩
  · exact .inr ⟨cause, offset, hc, hr, Nat.le_trans hoffset ht.position_le⟩

end Yini.Ybin
