import Yini.Grammar.Checked
import Yini.Proofs.Grammar.Run

/-!
A tape beside a parser.

`Roll.At` says that a tape and a parser are at the same place of the same source, and what is known of
that place: how many levels are open, and a position that has been reached.  `Roll.Ends` compares two
runs from such a place: they give the same value or the same fault of parsing, none of them crashes,
the position has not gone back, and they are at the same place again, with as many levels open.
`Roll.Follows` says that of all places behind a position, and `Roll.FollowsOn` of those where a certain
token comes next.  Both are closed under rules one after the other.
-/

namespace Yini

open Checked (Halt)

/-! ## Texts cut at bytes -/

/-- A text is split behind some of its characters. -/
theorem splitBytes?_append (cs rest : List Char) :
    splitBytes? (bytes cs) (cs ++ rest) = some (cs, rest) := by
  induction cs with
  | nil => rw [bytes_nil, splitBytes?, List.nil_append]
  | cons c cs ih =>
    have hpos := c.utf8Size_pos
    obtain ⟨n, hn⟩ : ∃ n, bytes (c :: cs) = n + 1 :=
      Nat.exists_eq_succ_of_ne_zero (by rw [bytes_cons]; omega)
    have hrest : n + 1 - c.utf8Size = bytes cs := by rw [← hn, bytes_cons, Nat.add_sub_cancel_left]
    have hle : c.utf8Size ≤ n + 1 := by rw [← hn, bytes_cons]; exact Nat.le_add_right _ _
    rw [hn, List.cons_append, splitBytes?, if_pos hle, hrest, ih]
    rfl

/-- Between two characters a text is cut without a crash. -/
theorem slice?_append (before text behind : List Char) :
    slice? (bytes before) (bytes (before ++ text)) (before ++ (text ++ behind)) = some text := by
  have hlength : bytes (before ++ text) - bytes before = bytes text := by
    rw [bytes_append, Nat.add_sub_cancel_left]
  rw [slice?, if_pos (by rw [bytes_append]; exact Nat.le_add_right _ _), splitBytes?_append, hlength]
  show (splitBytes? (bytes text) (text ++ behind)).bind _ = _
  rw [splitBytes?_append]
  rfl

/-! ## Lexemes in a source -/

/-- What stays while a source is read. -/
structure Roll where
  file : Option String
  source : List Char
  /-- The lexemes before the end of the source. -/
  body : List Lexeme
  finish : Lexeme

/-- **The lexemes lie in the source.**  Only the last one is its end, names and numbers have characters,
    and whole characters stand from a lexeme to the end of it or of a later one. -/
structure Roll.Lies (k : Roll) : Prop where
  finish : k.finish.token = .finish
  inner : ∀ l ∈ k.body, l.token ≠ .finish
  text : ∀ l ∈ k.body, ∀ text, l.token = .number text ∨ l.token = .ident text → text ≠ ""
  stretch : ∀ {i j : Nat} {l l' : Lexeme}, i ≤ j → k.body[i]? = some l → k.body[j]? = some l' →
    ∃ before text behind, k.source = before ++ (text ++ behind) ∧ l.start = bytes before ∧
      l'.stop = bytes (before ++ text)

section Lying

variable {n i j : Nat} {ws : List Word} {ls : List Lexeme} {l l' : Lexeme}

/-- Every lexeme has the token of a word. -/
theorem mem_of_lays (h : Lays n ws ls) (hl : l ∈ ls) : ∃ w ∈ ws, l.token = w.token := by
  induction ls generalizing n ws with
  | nil => cases hl
  | cons l' ls ih =>
    cases ws with
    | nil => exact h.elim
    | cons w ws =>
      rcases List.mem_cons.mp hl with rfl | hl
      · exact ⟨w, List.mem_cons_self, h.1⟩
      · obtain ⟨w', hw', ht⟩ := ih h.2.2.2 hl
        exact ⟨w', List.mem_cons_of_mem _ hw', ht⟩

/-- Every word is spelled as its token. -/
theorem Cut.spells {last : List Char} (h : Cut ws last) :
    ∀ w ∈ ws, ∃ rest, Token.Spells w.text w.token rest := by
  induction ws with
  | nil => exact fun _ hw => absurd hw List.not_mem_nil
  | cons w ws ih =>
    intro w' hw'
    rcases List.mem_cons.mp hw' with rfl | hw'
    · exact ⟨_, h.1.spells⟩
    · exact ih h.2 w' hw'

theorem ofList_ne_empty {cs : List Char} (h : cs ≠ []) : String.ofList cs ≠ "" := fun he =>
  h (by rw [← String.toList_ofList (l := cs), he]; rfl)

/-- A name or a number that has been spelled has characters. -/
theorem Token.Spells.text_ne_empty {cs rest : List Char} {t : Token} {text : String}
    (h : Token.Spells cs t rest) (ht : t = .number text ∨ t = .ident text) : text ≠ "" := by
  cases h with
  | append | mark | string => rcases ht with ht | ht <;> cases ht
  | whole hne =>
    rcases ht with ht | ht <;> cases ht
    exact ofList_ne_empty hne
  | decimal hne =>
    rcases ht with ht | ht <;> cases ht
    exact ofList_ne_empty (by simp)
  | word =>
    unfold Token.ofWord at ht
    split at ht
    · rcases ht with ht | ht <;> cases ht
    · split at ht
      · rcases ht with ht | ht <;> cases ht
      · rcases ht with ht | ht <;> cases ht
        exact ofList_ne_empty (List.cons_ne_nil _ _)

/-- Whole characters stand before the end of a lexeme. -/
theorem stop_of_lays (h : Lays n ws ls) (hl : ls[j]? = some l) :
    ∃ text behind, written ws = text ++ behind ∧ l.stop = n + bytes text := by
  induction ws generalizing n j ls with
  | nil =>
    cases ls with
    | nil => cases hl
    | cons => exact h.elim
  | cons w ws ih =>
    cases ls with
    | nil => exact h.elim
    | cons l' ls =>
      obtain ⟨-, hstart, hstop, hlays⟩ := h
      cases j with
      | zero =>
        cases hl
        refine ⟨w.gap ++ w.text, written ws, by rw [written_cons, List.append_assoc], ?_⟩
        rw [hstop, hstart, bytes_append, Nat.add_assoc]
      | succ j =>
        obtain ⟨text, behind, htext, hbytes⟩ := ih hlays hl
        refine ⟨w.gap ++ w.text ++ text, behind, ?_, ?_⟩
        · rw [written_cons, htext]
          simp only [List.append_assoc]
        · rw [hbytes, hstop, hstart, bytes_append, bytes_append]
          omega

/-- Whole characters stand from a lexeme to the end of it or of a later one. -/
theorem stretch_of_lays {before last : List Char} (h : Lays (bytes before) ws ls) (hij : i ≤ j)
    (hl : ls[i]? = some l) (hl' : ls[j]? = some l') :
    ∃ front text behind, before ++ (written ws ++ last) = front ++ (text ++ behind) ∧
      l.start = bytes front ∧ l'.stop = bytes (front ++ text) := by
  induction ws generalizing before i j ls with
  | nil =>
    cases ls with
    | nil => cases hl
    | cons => exact h.elim
  | cons w ws ih =>
    cases ls with
    | nil => exact h.elim
    | cons first ls =>
      obtain ⟨-, hstart, hstop, hlays⟩ := h
      have hbefore : first.stop = bytes (before ++ w.chars) := by
        rw [hstop, hstart, Word.chars, bytes_append, bytes_append, Nat.add_assoc]
      have hsource : before ++ (written (w :: ws) ++ last) = before ++ w.chars ++ (written ws ++ last) := by
        rw [written_cons, Word.chars]
        simp only [List.append_assoc]
      cases i with
      | zero =>
        cases hl
        cases j with
        | zero =>
          cases hl'
          refine ⟨before ++ w.gap, w.text, written ws ++ last, ?_, ?_, ?_⟩
          · rw [hsource, Word.chars]; simp only [List.append_assoc]
          · rw [hstart, bytes_append]
          · rw [hbefore, Word.chars, List.append_assoc]
        | succ j =>
          -- the stretch begins in the first word and ends in a later one
          obtain ⟨text, behind, htext, hbytes⟩ := stop_of_lays hlays hl'
          refine ⟨before ++ w.gap, w.text ++ text, behind ++ last, ?_, ?_, ?_⟩
          · rw [hsource, Word.chars, htext]; simp only [List.append_assoc]
          · rw [hstart, bytes_append]
          · rw [hbytes, hbefore, Word.chars, ← bytes_append]; simp only [List.append_assoc]
      | succ i =>
        -- both ends are in later words, so the first word is a part of what stands before
        obtain ⟨j, rfl⟩ := Nat.exists_eq_succ_of_ne_zero (Nat.ne_zero_of_lt hij)
        rw [hsource]
        rw [hbefore] at hlays
        exact ih hlays (Nat.le_of_succ_le_succ hij) hl hl'

/-- The lexemes of a source lie in it. -/
theorem lies_of_read {file : Option String} {source : String} {finish : Lexeme}
    (h : Lexeme.read file source = .ok (ls, finish)) : Roll.Lies ⟨file, source.toList, ls, finish⟩ := by
  obtain ⟨ws, last, hsource, hcut, hlays, hfinish⟩ := Lexeme.words_of_read h
  refine ⟨hfinish, fun l hl => ?_, fun l hl text ht => ?_, fun hij hl hl' => ?_⟩
  · obtain ⟨w, hw, hlw⟩ := mem_of_lays hlays hl
    rw [hlw]
    exact hcut.ne_finish w hw
  · obtain ⟨w, hw, hlw⟩ := mem_of_lays hlays hl
    obtain ⟨rest, hspells⟩ := hcut.spells w hw
    exact hspells.text_ne_empty (hlw ▸ ht)
  · show ∃ before text behind, source.toList = _ ∧ _
    rw [hsource]
    have hfirst : Lays (bytes []) ws ls := hlays
    exact stretch_of_lays hfirst hij hl hl'

end Lying

/-! ## The same place -/

namespace Roll

variable {α β : Type} {k : Roll} {d lo lo' mid hi hi' : Nat} {t u : Tape} {p q : Parser}

/-- **The tape and the parser are at the same place**, where `d` levels are open and the position `lo`
    has been reached. -/
structure At (k : Roll) (d lo : Nat) (t : Tape) (p : Parser) : Prop where
  tapeFile : t.file = k.file
  tapeSource : t.source = k.source
  lexemes : t.lexemes = k.body ++ [k.finish]
  file : p.file = k.file
  source : p.source = k.source
  finish : p.finish = k.finish
  mode : t.schemaMode = p.schemaMode
  depth : t.depth = d
  reached : lo ≤ t.position
  inside : t.position ≤ k.body.length
  rest : p.rest = k.body.drop t.position
  last : ∀ l, 0 < t.position → k.body[t.position - 1]? = some l → p.lastStop = l.stop

theorem At.mono (h : k.At d lo t p) (hlo : lo' ≤ lo) : k.At d lo' t p :=
  { h with reached := Nat.le_trans hlo h.reached }

/-- A place has been reached itself. -/
theorem At.self (h : k.At d lo t p) : k.At d t.position t p := { h with reached := Nat.le_refl _ }

/-- The lexemes that are passed and those that are left are all of them. -/
theorem At.left (h : k.At d lo t p) : t.position + p.left = k.body.length := by
  have := h.inside
  rw [p.left_eq, h.rest, List.length_drop]
  omega

/-- There is a lexeme to take exactly before the end of the source. -/
theorem At.rest_cons (h : k.At d lo t p) (ht : t.position < k.body.length) :
    p.rest = k.body[t.position] :: k.body.drop (t.position + 1) := by
  rw [h.rest, List.drop_eq_getElem_cons ht]

/-- At the end of the tape nothing is left to the parser. -/
theorem At.rest_nil (h : k.At d lo t p) (ht : k.body.length ≤ t.position) : p.rest = [] := by
  rw [h.rest, List.drop_eq_nil_of_le ht]

/-- The next lexeme is the one at the position. -/
theorem At.lexeme (h : k.At d lo t p) : t.lexemes[t.position]? = some p.current := by
  rw [h.lexemes]
  by_cases ht : t.position < k.body.length
  · rw [List.getElem?_append_left ht, Parser.current, h.rest_cons ht, List.getElem?_eq_getElem ht]
  · have hlength : t.position = k.body.length := by have := h.inside; omega
    rw [hlength, List.getElem?_concat_length, Parser.current, h.rest_nil (by omega), h.finish]

/-- Before the end the tape holds the current lexeme of the parser. -/
theorem At.lexeme_body (h : k.At d lo t p) (ht : t.position < k.body.length) :
    k.body[t.position]? = some p.current := by
  rw [Parser.current, h.rest_cons ht, List.getElem?_eq_getElem ht]

/-- Where a token comes next that is not the end, the end has not been reached. -/
theorem At.lt (hk : k.Lies) (h : k.At d lo t p) (hp : p.current.token ≠ .finish) :
    t.position < k.body.length := by
  refine Nat.lt_of_not_le fun hle => hp ?_
  rw [Parser.current, h.rest_nil hle]
  exact h.finish ▸ hk.finish

/-- At the end of the tape the parser sees the end. -/
theorem At.token_eq_finish (hk : k.Lies) (h : k.At d lo t p) (ht : k.body.length ≤ lo) :
    p.current.token = .finish := by
  rw [Parser.current, h.rest_nil (Nat.le_trans ht h.reached)]
  exact h.finish ▸ hk.finish

/-- The place behind the next lexeme. -/
theorem At.advance (h : k.At d lo t p) (ht : t.position < k.body.length) :
    k.At d (lo + 1) t.advance p.advance := by
  obtain ⟨hrest, hstop, hsource, hfinish, hmode, hfile⟩ := Parser.advance_of_rest (h.rest_cons ht)
  exact
    { h with
      file := hfile.trans h.file
      source := hsource.trans h.source
      finish := hfinish.trans h.finish
      mode := h.mode.trans hmode.symm
      reached := Nat.succ_le_succ h.reached
      inside := ht
      rest := hrest
      last := fun l _ hl => by
        have hlast : k.body[t.position]? = some l := hl
        rw [List.getElem?_eq_getElem ht] at hlast
        rw [hstop, Option.some.inj hlast] }

/-! ## The same end -/

/-- **Two runs end alike**: with the same value, or with the same fault of parsing.  `hi` has been
    reached if there is a value. -/
inductive Ends (k : Roll) (d hi : Nat) (t : Tape) :
    EStateM.Result Halt Tape α → EStateM.Result Fault Parser α → Prop
  | ok {a : α} {u : Tape} {q : Parser} (h : k.At d hi u q) (ht : t.position ≤ u.position) :
      Ends k d hi t (.ok a u) (.ok a q)
  | fault {cause : ParseCause} {found : String} {span : Span} {u : Tape} {q : Parser} (h : k.At d 0 u q)
      (ht : t.position ≤ u.position) :
      Ends k d hi t (.error (.fault (.parse cause found span)) u) (.error (.parse cause found span) q)

theorem Ends.mono {x : EStateM.Result Halt Tape α} {y : EStateM.Result Fault Parser α}
    (h : k.Ends d hi t x y) (hhi : hi' ≤ hi) : k.Ends d hi' t x y := by
  cases h with
  | ok h ht => exact .ok (h.mono hhi) ht
  | fault h ht => exact .fault h ht

/-- A run that starts later has come no less far. -/
theorem Ends.since {x : EStateM.Result Halt Tape α} {y : EStateM.Result Fault Parser α}
    (h : k.Ends d hi u x y) (ht : t.position ≤ u.position) : k.Ends d hi t x y := by
  cases h with
  | ok h hu => exact .ok h (Nat.le_trans ht hu)
  | fault h hu => exact .fault h (Nat.le_trans ht hu)

/-- A rule after a rule. -/
theorem Ends.bind {c : Checked α} {g : Grammar α} {f : α → Checked β} {f' : α → Grammar β}
    (h : k.Ends d mid t (c t) (g p))
    (hf : ∀ a u q, k.At d mid u q → t.position ≤ u.position → k.Ends d hi u (f a u) (f' a q)) :
    k.Ends d hi t ((c >>= f) t) ((g >>= f') p) := by
  show k.Ends d hi t (EStateM.bind c f t) (EStateM.bind g f' p)
  unfold EStateM.bind
  generalize c t = x at h ⊢
  generalize g p = y at h ⊢
  cases h with
  | ok h ht => exact (hf _ _ _ h ht).since ht
  | fault h ht => exact .fault h ht

/-- **The checked rule follows the rule** from every place behind `lo`, and is behind `hi` then. -/
def Follows (k : Roll) (d lo hi : Nat) (c : Checked α) (g : Grammar α) : Prop :=
  ∀ t p, k.At d lo t p → k.Ends d hi t (c t) (g p)

/-- The checked rule follows the rule where a certain token comes next. -/
def FollowsOn (k : Roll) (s : Token) (d lo hi : Nat) (c : Checked α) (g : Grammar α) : Prop :=
  ∀ t p, k.At d lo t p → p.current.token = s → k.Ends d hi t (c t) (g p)

variable {c : Checked α} {g : Grammar α} {f : α → Checked β} {f' : α → Grammar β} {s : Token}

/-- A rule that follows its rule does so whatever token comes next. -/
theorem Follows.on (h : k.Follows d lo hi c g) : k.FollowsOn s d lo hi c g := fun t p hp _ => h t p hp

theorem Follows.mono (h : k.Follows d lo hi c g) (hlo : lo ≤ lo') (hhi : hi' ≤ hi) :
    k.Follows d lo' hi' c g := fun t p hp => (h t p (hp.mono hlo)).mono hhi

/-- **One rule after the other**: the second follows from where the first has come to. -/
theorem Follows.bind (h : k.Follows d lo mid c g) (hf : ∀ a, k.Follows d mid hi (f a) (f' a)) :
    k.Follows d lo hi (c >>= f) (g >>= f') := fun t p hp =>
  (h t p hp).bind fun a u q hu _ => hf a u q hu

/-- **One rule after the other**, where a certain token comes first. -/
theorem FollowsOn.bind (h : k.FollowsOn s d lo mid c g) (hf : ∀ a, k.Follows d mid hi (f a) (f' a)) :
    k.FollowsOn s d lo hi (c >>= f) (g >>= f') := fun t p hp hs =>
  (h t p hp hs).bind fun a u q hu _ => hf a u q hu

theorem follows_pure (a : α) : k.Follows d lo lo (pure a) (pure a) := fun _ _ hp =>
  .ok hp (Nat.le_refl _)

/-- A value is given, and more has been reached than is said. -/
theorem follows_return (hhi : hi ≤ lo) (a : α) : k.Follows d lo hi (pure a) (pure a) :=
  (follows_pure a).mono (Nat.le_refl _) hhi

theorem follows_throw (cause : ParseCause) (found : String) (span : Span) :
    k.Follows d lo hi (throw (.fault (.parse cause found span)) : Checked α)
      (throw (.parse cause found span)) := fun _ _ hp => .fault (hp.mono (Nat.zero_le _)) (Nat.le_refl _)

/-! ## Runs of elementary rules -/

theorem item_run {xs : List α} {i : Nat} {a : α} (h : xs[i]? = some a) : Checked.item xs i t = .ok a t := by
  rw [Checked.item, h]
  rfl

theorem cut_run {start stop : Nat} {cs text : List Char} (h : slice? start stop cs = some text) :
    Checked.cut start stop cs t = .ok text t := by
  rw [Checked.cut, h]
  rfl

theorem At.ahead_run (h : k.At d lo t p) (n : Nat) :
    Checked.ahead n t = .ok (min (t.position + n) k.body.length) t := by
  have hne : t.lexemes.isEmpty = false := by rw [h.lexemes]; simp
  have hlength : t.lexemes.length - 1 = k.body.length := by rw [h.lexemes]; simp
  rw [Checked.ahead, get_bind, hne, hlength]
  rfl

/-- The tape shows the current lexeme of the parser. -/
theorem At.current_run (h : k.At d lo t p) : Checked.current t = .ok p.current t := by
  rw [Checked.current, get_bind, bind_of_ok (h.ahead_run 0), Nat.add_zero, Nat.min_eq_left h.inside]
  exact item_run h.lexeme

/-- The tape shows the token that the parser sees. -/
theorem At.peek_bind (h : k.At d lo t p) (f : Token → Checked β) :
    (Checked.peek >>= f) t = f p.current.token t := by
  rw [Checked.peek, bind_assoc, bind_of_ok h.current_run]
  rfl

/-- The tape shows the place that the parser is at. -/
theorem At.here_bind (h : k.At d lo t p) (f : Span → Checked β) :
    (Checked.here >>= f) t = f (p.current.span p.file) t := by
  rw [Checked.here, bind_assoc, bind_of_ok h.current_run, bind_assoc, get_bind, h.tapeFile, ← h.file]
  rfl

/-- The tape shows a mark where the parser sees it. -/
theorem At.sees_bind (h : k.At d lo t p) (m : Mark) (f : Bool → Checked β) :
    (Checked.sees m >>= f) t = f (p.current.token = .mark m) t := by
  rw [Checked.sees, bind_assoc, h.peek_bind]
  rfl

/-- Before the end the tape goes on, and gives the lexeme that it leaves. -/
theorem At.bump_bind (h : k.At d lo t p) (hp : p.current.token ≠ .finish) (f : Lexeme → Checked β) :
    (Checked.bump >>= f) t = f p.current t.advance := by
  rw [Checked.bump, bind_assoc, bind_of_ok h.current_run]
  dsimp only
  rw [if_neg hp]
  rfl

/-- The tape shows the second token of the parser. -/
theorem At.second_run (h : k.At d lo t p) : Checked.second t = .ok p.second t := by
  rw [Checked.second, get_bind, bind_of_ok (h.ahead_run 1), h.lexemes]
  by_cases ht : t.position + 1 < k.body.length
  · have hsecond : p.second = k.body[t.position + 1].token := by
      rw [Parser.second, h.rest_cons (by omega), List.drop_eq_getElem_cons ht]
    rw [Nat.min_eq_left (Nat.le_of_lt ht), hsecond]
    refine (bind_of_ok (item_run (a := k.body[t.position + 1]) ?_)).trans rfl
    rw [List.getElem?_append_left ht, List.getElem?_eq_getElem ht]
  · have hsecond : p.second = k.finish.token := by
      by_cases hlast : t.position < k.body.length
      · rw [Parser.second, h.rest_cons hlast, List.drop_eq_nil_of_le (by omega)]
        exact congrArg Lexeme.token h.finish
      · rw [Parser.second, h.rest_nil (by omega)]
        exact congrArg Lexeme.token h.finish
    rw [Nat.min_eq_right (by omega), hsecond]
    exact (bind_of_ok (item_run List.getElem?_concat_length)).trans rfl

/-- Behind the first lexeme, the one before is in range. -/
theorem At.last_run (h : k.At d lo t p) (ht : 0 < t.position) :
    ∃ l, Checked.item t.lexemes (t.position - 1) t = .ok l t ∧ p.lastStop = l.stop := by
  have hlt : t.position - 1 < k.body.length := by have := h.inside; omega
  have hl : k.body[t.position - 1]? = some k.body[t.position - 1] := List.getElem?_eq_getElem hlt
  refine ⟨k.body[t.position - 1], item_run ?_, h.last _ ht hl⟩
  rw [h.lexemes, List.getElem?_append_left hlt, hl]

/-- Behind a lexeme the tape shows where that stops. -/
theorem At.lastStop_run (h : k.At d lo t p) (ht : 0 < t.position) :
    Checked.lastStop t = .ok p.lastStop t := by
  obtain ⟨l, hrun, hstop⟩ := h.last_run ht
  rw [Checked.lastStop, get_bind, if_neg (Nat.ne_of_gt ht), bind_of_ok hrun, hstop]
  rfl

/-- Behind a lexeme the tape shows whether there is a gap. -/
theorem At.isAdjacent_run (h : k.At d lo t p) (ht : 0 < t.position) :
    Checked.isAdjacent t = .ok p.isAdjacent t := by
  obtain ⟨l, hrun, hstop⟩ := h.last_run ht
  have hinside : ¬(t.position = 0 ∨ t.lexemes.length ≤ t.position) := by
    have := h.inside
    rw [h.lexemes, List.length_append, List.length_singleton]
    omega
  rw [Checked.isAdjacent, get_bind, if_neg hinside, bind_of_ok (item_run h.lexeme), bind_of_ok hrun,
    Parser.isAdjacent, hstop]
  rfl

/-- **The source is cut between lexemes without a crash**, from the next lexeme of a place to the end of
    the lexeme taken last at a later one. -/
theorem At.slice (hk : k.Lies) (h : k.At d lo t p) (hu : k.At d hi u q) (htu : t.position < u.position) :
    slice? p.current.start q.lastStop k.source =
      some (takeBytes (q.lastStop - p.current.start) (dropBytes p.current.start k.source)) := by
  have hinside := hu.inside
  have hlt : u.position - 1 < k.body.length := by omega
  have hl' : k.body[u.position - 1]? = some k.body[u.position - 1] := List.getElem?_eq_getElem hlt
  obtain ⟨before, text, behind, hsource, hstart, hstop⟩ :=
    hk.stretch (by omega) (h.lexeme_body (by omega)) hl'
  have hbytes : bytes (before ++ text) - bytes before = bytes text := by
    rw [bytes_append, Nat.add_sub_cancel_left]
  rw [hu.last _ (by omega) hl', hstart, hstop, hsource, slice?_append, hbytes, dropBytes_append,
    takeBytes_append]

/-! ## Elementary rules -/

/-- After a look at the token only that token has to be followed. -/
theorem Follows.peek_bind {f : Token → Checked β} {f' : Token → Grammar β}
    (h : ∀ s, k.FollowsOn s d lo hi (f s) (f' s)) :
    k.Follows d lo hi (Checked.peek >>= f) (Grammar.peek >>= f') := fun t p hp => by
  rw [hp.peek_bind]
  exact h _ t p hp rfl

theorem FollowsOn.here_bind {f : Span → Checked β} {f' : Span → Grammar β}
    (h : ∀ span, k.FollowsOn s d lo hi (f span) (f' span)) :
    k.FollowsOn s d lo hi (Checked.here >>= f) (Grammar.here >>= f') := fun t p hp hs => by
  rw [hp.here_bind]
  exact h _ t p hp hs

theorem Follows.here_bind {f : Span → Checked β} {f' : Span → Grammar β}
    (h : ∀ span, k.Follows d lo hi (f span) (f' span)) :
    k.Follows d lo hi (Checked.here >>= f) (Grammar.here >>= f') := fun t p hp => by
  rw [hp.here_bind]
  exact h _ t p hp

/-- After a look for a mark it is there for both, or for none. -/
theorem Follows.sees_bind {m : Mark} {f : Bool → Checked β} {f' : Bool → Grammar β}
    (h : k.FollowsOn (.mark m) d lo hi (f true) (f' true)) (h' : k.Follows d lo hi (f false) (f' false)) :
    k.Follows d lo hi (Checked.sees m >>= f) (Grammar.sees m >>= f') := fun t p hp => by
  rw [hp.sees_bind, Grammar.sees_eq]
  by_cases hs : p.current.token = .mark m
  · rw [decide_eq_true hs]
    exact h t p hp hs
  · rw [decide_eq_false hs]
    exact h' t p hp

/-- A refusal names the same token at the same place. -/
theorem At.fail_run (h : k.At d lo t p) (cause : ParseCause) : (Checked.fail cause : Checked α) t
    = .error (.fault (.parse cause p.current.token.describe (p.current.span p.file))) t := by
  rw [Checked.fail, bind_of_ok h.current_run, get_bind, h.tapeFile, ← h.file]
  rfl

theorem follows_fail (cause : ParseCause) :
    k.Follows d lo hi (Checked.fail cause : Checked α) (Grammar.fail cause) := fun t p hp => by
  rw [hp.fail_run]
  exact .fault (hp.mono (Nat.zero_le _)) (Nat.le_refl _)

/-- Nothing comes after a fault. -/
theorem follows_fail_bind (cause : ParseCause) :
    k.Follows d lo hi (Checked.fail cause >>= f) (Grammar.fail cause >>= f') := fun t p hp => by
  rw [bind_eq_error.mpr (.inl (hp.fail_run cause))]
  exact .fault (hp.mono (Nat.zero_le _)) (Nat.le_refl _)

section Taking

variable (hk : k.Lies)
include hk

/-- Both go on, and have come one lexeme further. -/
theorem At.advance_on (h : k.At d lo t p) (hp : p.current.token ≠ .finish) :
    k.At d (lo + 1) t.advance p.advance := h.advance (h.lt hk hp)

/-- Both take a lexeme, which is not the end, and have come one further. -/
theorem FollowsOn.bump_bind {f : Lexeme → Checked β} {f' : Unit → Grammar β} (hs : s ≠ .finish)
    (h : ∀ l, l.token = s → k.Follows d (lo + 1) hi (f l) (f' ())) :
    k.FollowsOn s d lo hi (Checked.bump >>= f) (Grammar.bump >>= f') := fun t p hp hps => by
  have hne : p.current.token ≠ .finish := hps ▸ hs
  rw [hp.bump_bind hne, Grammar.bump_bind]
  exact (h _ hps _ _ (hp.advance_on hk hne)).since (Nat.le_succ _)

theorem Follows.eat_bind {m : Mark} {f : Bool → Checked β} {f' : Bool → Grammar β}
    (h : k.Follows d (lo + 1) hi (f true) (f' true)) (h' : k.Follows d lo hi (f false) (f' false)) :
    k.Follows d lo hi (Checked.eat m >>= f) (Grammar.eat m >>= f') := by
  rw [Checked.eat, Grammar.eat, bind_assoc, bind_assoc]
  refine .sees_bind ?_ h'
  simp only [if_true, bind_assoc, pure_bind]
  exact FollowsOn.bump_bind hk Token.noConfusion fun _ _ => h

/-- Both take the mark that they expect, or refuse. -/
theorem follows_expect (m : Mark) (w : Wanted) :
    k.Follows d lo (lo + 1) (Checked.expect m w) (Grammar.expect m w) := by
  rw [Checked.expect, Grammar.expect, Grammar.eat, bind_assoc]
  refine .sees_bind ?_ (follows_fail _)
  simp only [if_true, bind_assoc, pure_bind]
  exact FollowsOn.bump_bind hk Token.noConfusion fun _ _ => follows_pure _

/-- Both take the name that they expect, or refuse. -/
theorem follows_expectName (w : Wanted) :
    k.Follows d lo (lo + 1) (Checked.expectName w) (Grammar.expectName w) := by
  refine .peek_bind fun s => ?_
  cases s with
  | ident name =>
    exact .here_bind fun span => FollowsOn.bump_bind hk Token.noConfusion fun _ _ => follows_pure _
  | _ => exact (follows_fail _).on

omit hk in
/-- Where a name is in front, the tape gives it. -/
theorem At.takeName_bind (h : k.At d lo t p) {name : String} (hp : p.current.token = .ident name)
    (f : String × Span → Checked β) :
    (Checked.takeName >>= f) t = f (name, p.current.span p.file) t.advance := by
  have hne : p.current.token ≠ .finish := hp ▸ Token.noConfusion
  rw [Checked.takeName, bind_assoc, h.peek_bind, hp]
  dsimp only
  rw [bind_assoc, h.here_bind, bind_assoc, h.bump_bind hne]
  rfl

/-- A name that has been seen is taken. -/
theorem FollowsOn.takeName_bind {name : String} {f : String × Span → Checked β}
    {f' : Span → Unit → Grammar β}
    (h : ∀ span, k.Follows d (lo + 1) hi (f (name, span)) (f' span ())) :
    k.FollowsOn (.ident name) d lo hi (Checked.takeName >>= f)
      (Grammar.here >>= fun span => Grammar.bump >>= f' span) := fun t p hp hs => by
  rw [hp.takeName_bind hs, Grammar.here_bind, Grammar.bump_bind]
  exact (h _ _ _ (hp.advance_on hk (hs ▸ Token.noConfusion))).since (Nat.le_succ _)

end Taking

/-- Both turn to rules or to values. -/
theorem follows_turn (mode : Bool) :
    k.Follows d lo lo (modify ({ · with schemaMode := mode }) : Checked Unit)
      (modify ({ · with schemaMode := mode })) := fun _ _ hp => .ok { hp with mode := rfl } (Nat.le_refl _)

/-- A loop on a tape has rounds enough, and so has the one on the parser. -/
theorem Follows.rounds_bind {f : Nat → Checked β} {f' : Nat → Grammar β}
    (h : ∀ lo' n m, lo ≤ lo' → k.body.length < lo' + n → k.body.length ≤ lo' + m →
      k.Follows d lo' hi (f n) (f' m)) :
    k.Follows d lo hi (Checked.rounds >>= f) (Grammar.remaining >>= f') := fun t p hp => by
  have hlength : t.lexemes.length + 1 = k.body.length + 2 := by rw [hp.lexemes]; simp
  show k.Ends d hi t (f (t.lexemes.length + 1) t) (f' p.left p)
  rw [hlength]
  exact h t.position _ _ hp.reached (by omega) (Nat.le_of_eq hp.left.symm) t p hp.self

/-- A loop on a tape has rounds enough where the rule has no loop, or one that counts otherwise. -/
theorem Follows.rounds_left {f : Nat → Checked β} {g : Grammar β}
    (h : ∀ lo' n, lo ≤ lo' → k.body.length < lo' + n → k.Follows d lo' hi (f n) g) :
    k.Follows d lo hi (Checked.rounds >>= f) g := fun t p hp => by
  have hlength : t.lexemes.length + 1 = k.body.length + 2 := by rw [hp.lexemes]; simp
  show k.Ends d hi t (f (t.lexemes.length + 1) t) (g p)
  rw [hlength]
  exact h t.position _ hp.reached (by omega) t p hp.self

/-- The counter is back after a rule one level deeper, also when that fails. -/
theorem follows_nested (hd : d < maxNesting) (h : k.Follows (d + 1) lo hi c g) :
    k.Follows d lo hi (Checked.nested c) g := by
  intro t p hp
  have hopen : ¬maxNesting ≤ t.depth := by rw [hp.depth]; omega
  have hend : k.Ends (d + 1) hi { t with depth := t.depth + 1 } (c { t with depth := t.depth + 1 }) (g p) :=
    h _ p { hp with depth := congrArg (· + 1) hp.depth }
  rw [Checked.nested, if_neg hopen]
  generalize c { t with depth := t.depth + 1 } = x at hend ⊢
  generalize g p = y at hend ⊢
  cases hend with
  | ok hu ht => exact .ok { hu with depth := congrArg (· - 1) hu.depth } ht
  | fault hu ht => exact .fault { hu with depth := congrArg (· - 1) hu.depth } ht

/-- No level is opened above the limit. -/
theorem follows_nested_full (hd : maxNesting ≤ d) :
    k.Follows d lo hi (Checked.nested c) (Grammar.fail .tooDeep) := by
  intro t p hp
  rw [Checked.nested, if_pos (hp.depth ▸ hd)]
  exact follows_fail _ t p hp

end Roll

end Yini
