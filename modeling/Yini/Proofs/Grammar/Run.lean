import Yini.Fault.Report
import Yini.Grammar.Document
import Yini.Proofs.Outcome
import Yini.Proofs.Token.Word

/-!
Rules of the grammar on words.

A parser *faces* words if they are what is left of its source (`Parser.Faces`).  On such a parser each
elementary rule does what the next word says, so a rule of the grammar can be read in two ways: what
it accepts can be split off the words (`Takes`), and where the words begin as it wants, it gives a
certain result.  The second may come with one reservation: a value may stand too deep, and then the
result is the fault for that (`Gives`).  What matters about the state of the parser beside the words is
carried from one rule to the next (`Ensures`).
-/

namespace Yini

/-- The token of the first word. -/
def front : List Word → Token
  | [] => .finish
  | w :: _ => w.token

@[simp] theorem front_cons (w : Word) (ws : List Word) : front (w :: ws) = w.token := rfl

/-- A token in front, but for the end, is that of a word. -/
theorem cons_of_front {ws : List Word} {t : Token} (h : front ws = t) (ht : t ≠ .finish) :
    ∃ w ws', ws = w :: ws' ∧ w.token = t := by
  cases ws with
  | nil => exact absurd h.symm ht
  | cons w ws => exact ⟨w, ws, rfl, h⟩

/-- The gap does not matter for the token in front. -/
theorem front_regap (gap : List Char) (ws : List Word) : front (regap gap ws) = front ws := by
  cases ws <;> rfl

theorem regap_regap (gap gap' : List Char) (ws : List Word) :
    regap gap (regap gap' ws) = regap gap ws := by
  cases ws <;> rfl

/-- The first gap may be anything for words that keep theirs. -/
theorem exists_regap (ws : List Word) : ∃ gap, regap gap ws = ws := by
  cases ws with
  | nil => exact ⟨[], rfl⟩
  | cons w ws => exact ⟨w.gap, rfl⟩

/-! ## Cutting characters by their bytes -/

/-- The bytes of a text are all that is dropped. -/
theorem dropBytes_append (cs rest : List Char) : dropBytes (bytes cs) (cs ++ rest) = rest := by
  induction cs with
  | nil => cases rest <;> rfl
  | cons c cs ih =>
    have hpos := c.utf8Size_pos
    rw [List.cons_append, bytes_cons, dropBytes]
    · rw [Nat.add_sub_cancel_left, ih]
    · omega

/-- The bytes of a text are all that is taken. -/
theorem takeBytes_append (cs rest : List Char) : takeBytes (bytes cs) (cs ++ rest) = cs := by
  induction cs with
  | nil => cases rest <;> rfl
  | cons c cs ih =>
    have hpos := c.utf8Size_pos
    rw [List.cons_append, bytes_cons, takeBytes]
    · rw [Nat.add_sub_cancel_left, ih]
    · omega

/-! ## Parsers that face words -/

/-- What stays while a source is read: its characters, those behind the last word, and whether the
    sections to come hold rules. -/
structure Scene where
  source : List Char
  last : List Char
  mode : Bool

namespace Parser

/-- **The words are what the parser has still to read.** -/
structure Faces (k : Scene) (p : Parser) (ws : List Word) : Prop where
  source : p.source = k.source
  mode : p.schemaMode = k.mode
  finish : p.finish.token = .finish
  place : ∃ before, k.source = before ++ (written ws ++ k.last) ∧ p.lastStop = bytes before
  cut : Cut ws k.last
  lays : Lays p.lastStop ws p.rest

variable {k : Scene} {p q : Parser} {w : Word} {ws : List Word}

/-- The lexeme of the first word. -/
theorem Faces.lexeme (h : p.Faces k (w :: ws)) : ∃ l ls, p.rest = l :: ls ∧ l.token = w.token ∧
    l.start = p.lastStop + bytes w.gap ∧ l.stop = l.start + bytes w.text ∧ Lays l.stop ws ls := by
  have hlays := h.lays
  cases hrest : p.rest with
  | nil => rw [hrest] at hlays; exact hlays.elim
  | cons l ls =>
    rw [hrest] at hlays
    exact ⟨l, ls, rfl, hlays⟩

theorem Faces.rest_nil (h : p.Faces k []) : p.rest = [] := by
  have hlays := h.lays
  cases hrest : p.rest with
  | nil => rfl
  | cons l ls => rw [hrest] at hlays; exact hlays.elim

/-- The current token is that of the first word. -/
theorem Faces.token (h : p.Faces k ws) : p.current.token = front ws := by
  cases ws with
  | nil => rw [current, h.rest_nil]; exact h.finish
  | cons w ws =>
    obtain ⟨l, ls, hrest, htoken, -⟩ := h.lexeme
    rw [current, hrest]
    exact htoken

/-- Only the end of the source is read as the end. -/
theorem Faces.rest_nil_of_finish (h : p.Faces k ws) (hp : p.current.token = .finish) : p.rest = [] := by
  cases ws with
  | nil => exact h.rest_nil
  | cons w ws =>
    rw [h.token] at hp
    exact absurd hp (h.cut.ne_finish w List.mem_cons_self)

/-- What taking a lexeme changes. -/
theorem advance_of_rest {l : Lexeme} {ls : List Lexeme} (h : p.rest = l :: ls) :
    p.advance.rest = ls ∧ p.advance.lastStop = l.stop ∧ p.advance.source = p.source ∧
      p.advance.finish = p.finish ∧ p.advance.schemaMode = p.schemaMode ∧ p.advance.file = p.file := by
  unfold Parser.advance
  split
  next heq => rw [h] at heq; cases heq
  next heq =>
    rw [h] at heq
    cases heq
    exact ⟨rfl, rfl, rfl, rfl, rfl, rfl⟩

/-- A parser that faces some words faces those behind the first one when it has taken that. -/
theorem Faces.advance (h : p.Faces k (w :: ws)) : p.advance.Faces k ws := by
  obtain ⟨l, ls, hrest, htoken, hstart, hstop, hlays⟩ := h.lexeme
  obtain ⟨before, hsource, hbefore⟩ := h.place
  obtain ⟨hrest', hstop', hsource', hfinish', hmode', -⟩ := advance_of_rest hrest
  refine ⟨hsource'.trans h.source, hmode'.trans h.mode, by rw [hfinish']; exact h.finish,
    ⟨before ++ w.chars, ?_, ?_⟩, h.cut.2, by rw [hstop', hrest']; exact hlays⟩
  · rw [hsource, written_cons]
    simp only [Word.chars, List.append_assoc]
  · rw [hstop', hstop, hstart, hbefore, Word.chars, bytes_append, bytes_append, Nat.add_assoc]

/-- A parser at the end stays there. -/
theorem advance_of_nil (h : p.rest = []) : p.advance = p := by
  unfold Parser.advance
  split
  next => rfl
  next heq => rw [h] at heq; cases heq

theorem Faces.advance_nil (h : p.Faces k []) : p.advance = p := advance_of_nil h.rest_nil

/-- Sections to come may hold rules or values. -/
theorem Faces.turn (h : p.Faces k ws) (mode : Bool) :
    ({ p with schemaMode := mode } : Parser).Faces { k with mode } ws :=
  ⟨h.source, rfl, h.finish, h.place, h.cut, h.lays⟩

/-- The second token is that of the second word. -/
theorem Faces.second (h : p.Faces k ws) : p.second = front ws.tail := by
  cases ws with
  | nil =>
    rw [Parser.second, h.rest_nil]
    exact h.finish
  | cons w ws =>
    obtain ⟨l, ls, hrest, -, -, -, hlays⟩ := h.lexeme
    rw [Parser.second, hrest]
    cases ws with
    | nil =>
      cases ls with
      | nil => exact h.finish
      | cons => exact hlays.elim
    | cons w' ws =>
      cases ls with
      | nil => exact hlays.elim
      | cons => exact hlays.1

/-- The current lexeme stands close to the one before if there is no gap before its word. -/
theorem Faces.isAdjacent (h : p.Faces k (w :: ws)) : p.isAdjacent = w.gap.isEmpty := by
  obtain ⟨l, ls, hrest, -, hstart, -⟩ := h.lexeme
  rw [Parser.isAdjacent, current, hrest, hstart]
  cases w.gap with
  | nil => simp
  | cons c cs =>
    have := c.utf8Size_pos
    simp only [bytes_cons, List.isEmpty_cons, beq_eq_false_iff_ne, ne_eq]
    omega

/-- There are as many lexemes as words. -/
theorem length_of_lays {n : Nat} {ws : List Word} {ls : List Lexeme} (h : Lays n ws ls) :
    ls.length = ws.length := by
  induction ws generalizing n ls with
  | nil =>
    cases ls with
    | nil => rfl
    | cons => exact h.elim
  | cons w ws ih =>
    cases ls with
    | nil => exact h.elim
    | cons l ls => rw [List.length_cons, List.length_cons, ih h.2.2.2]

theorem Faces.left (h : p.Faces k ws) : p.left = ws.length := by
  rw [p.left_eq, length_of_lays h.lays]

/-- The characters of the words that a parser has taken, cut out by the bytes before and behind
    them. -/
theorem Faces.slice {rest : List Word} (hp : p.Faces k (w :: ws ++ rest)) (hq : q.Faces k rest) :
    takeBytes (q.lastStop - p.current.start) (dropBytes p.current.start p.source)
      = w.text ++ written ws := by
  obtain ⟨before, hsource, hbefore⟩ := hp.place
  obtain ⟨before', hsource', hbefore'⟩ := hq.place
  rw [List.cons_append] at hp
  obtain ⟨l, ls, hrest, -, hstart, -, -⟩ := hp.lexeme
  have hcurrent : p.current.start = bytes (before ++ w.gap) := by
    rw [current, hrest, hstart, hbefore, bytes_append]
  have hparts : before' = before ++ w.gap ++ (w.text ++ written ws) := by
    rw [hsource, written_append, written_cons] at hsource'
    have hends : before ++ w.gap ++ (w.text ++ written ws) ++ (written rest ++ k.last)
        = before' ++ (written rest ++ k.last) := by
      simpa only [List.append_assoc] using hsource'
    exact (List.append_cancel_right hends).symm
  have hlength : q.lastStop - p.current.start = bytes (w.text ++ written ws) := by
    rw [hbefore', hcurrent, hparts, bytes_append _ (w.text ++ written ws), Nat.add_sub_cancel_left]
  have hcharacters : p.source
      = before ++ w.gap ++ (w.text ++ written ws ++ (written rest ++ k.last)) := by
    rw [hp.source, hsource', hparts]
    simp only [List.append_assoc]
  rw [hlength, hcurrent, hcharacters, dropBytes_append, takeBytes_append]

/-- A source that can be cut into lexemes has a parser at its first one. -/
theorem ofSource_of_read {file : Option String} {source : String} {lexemes : List Lexeme} {finish : Lexeme}
    (h : Lexeme.read file source = .ok (lexemes, finish)) :
    ofSource file source = .ok (start file source.toList lexemes finish) := by
  rw [ofSource, h]

/-- The parser of a source stands at the first of its lexemes. -/
theorem ofSource_eq_ok {file : Option String} {source : String} (h : ofSource file source = .ok p) :
    ∃ lexemes finish, Lexeme.read file source = .ok (lexemes, finish) ∧
      p = start file source.toList lexemes finish := by
  unfold ofSource at h
  split at h
  next lexemes finish hread =>
    cases h
    exact ⟨lexemes, finish, hread, rfl⟩
  next => cases h

/-- A source that is cut into lexemes is written in words. -/
theorem faces_ofSource {file : Option String} {source : String} (h : ofSource file source = .ok p) :
    ∃ ws last, p.Faces ⟨source.toList, last, false⟩ ws := by
  obtain ⟨lexemes, finish, hread, rfl⟩ := ofSource_eq_ok h
  obtain ⟨ws, last, hsource, hcut, hlays, hfinish⟩ := Lexeme.words_of_read hread
  exact ⟨ws, last, rfl, rfl, hfinish, ⟨[], hsource, rfl⟩, hcut, hlays⟩

/-- A source that is written in words is cut into lexemes. -/
theorem ofSource_of_words (file : Option String) {source : String} (hsource : source.toList = written ws)
    (hcut : Cut ws []) : ∃ p, ofSource file source = .ok p ∧ p.Faces ⟨source.toList, [], false⟩ ws := by
  obtain ⟨lexemes, finish, hread, hlays, hfinish⟩ : ∃ lexemes finish,
      Lexeme.read file source = .ok (lexemes, finish) ∧ Lays 0 ws lexemes ∧ finish.token = .finish :=
    Lexeme.read_of_words hcut hsource
  refine ⟨start file source.toList lexemes finish, ofSource_of_read hread, rfl, rfl, hfinish,
    ⟨[], ?_, rfl⟩, hcut, hlays⟩
  rw [hsource, List.append_nil]
  rfl

end Parser

/-- Reading a document is starting a parser and following the rule for documents. -/
theorem Document.ofSource_eq_ok {file : Option String} {source : String} {d : Document} :
    ofSource file source = .ok d ↔
      ∃ p q, Parser.ofSource file source = .ok p ∧ Grammar.document p = .ok d q := by
  constructor
  · intro h
    unfold ofSource at h
    split at h
    next => cases h
    next p hp =>
      split at h
      next d' q hrun =>
        cases h
        exact ⟨p, q, hp, hrun⟩
      next => cases h
  · rintro ⟨p, q, hp, hrun⟩
    unfold ofSource
    rw [hp]
    dsimp only
    rw [hrun]

/-! ## Elementary rules -/

namespace Grammar

variable {α β : Type} {k : Scene} {p q : Parser} {w : Word} {ws rest : List Word}

/-- Looking at the current token changes nothing. -/
theorem peek_eq (f : Token → Grammar β) : (peek >>= f) p = f p.current.token p := rfl

theorem sees_eq (m : Mark) (f : Bool → Grammar β) :
    (sees m >>= f) p = f (p.current.token = .mark m) p := rfl

/-- The token that is looked at is that of the first word. -/
theorem peek_bind (h : p.Faces k ws) (f : Token → Grammar β) : (peek >>= f) p = f (front ws) p := by
  rw [peek_eq, h.token]

theorem here_bind (f : Span → Grammar β) : (here >>= f) p = f (p.current.span p.file) p := rfl

theorem bump_bind (f : Unit → Grammar β) : (bump >>= f) p = f () p.advance := rfl

/-- The number of lexemes that are left is that of the words. -/
theorem remaining_bind (h : p.Faces k ws) (f : Nat → Grammar β) :
    (remaining >>= f) p = f ws.length p := by
  rw [← h.left]
  rfl

theorem sees_bind (h : p.Faces k ws) (m : Mark) (f : Bool → Grammar β) :
    (sees m >>= f) p = f (front ws = .mark m) p := by
  rw [sees_eq, h.token]

theorem eat_eq (m : Mark) (f : Bool → Grammar β) :
    (eat m >>= f) p = if p.current.token = .mark m then f true p.advance else f false p := by
  rw [eat, bind_assoc, sees_eq]
  by_cases hm : p.current.token = .mark m
  · rw [if_pos hm, if_pos (decide_eq_true hm), bind_assoc]
    rfl
  · rw [if_neg hm, if_neg (by simpa using hm)]
    rfl

theorem eat_bind (h : p.Faces k ws) (m : Mark) (f : Bool → Grammar β) :
    (eat m >>= f) p = if front ws = .mark m then f true p.advance else f false p := by
  rw [eat_eq, h.token]

/-- A mark that is expected is taken, and it is a fault if it is not in front. -/
theorem expect_bind (h : p.Faces k ws) (m : Mark) (x : Wanted) (f : Unit → Grammar β) :
    (expect m x >>= f) p
      = if front ws = .mark m then f () p.advance else (fail (.wanted x) >>= f) p := by
  rw [expect, bind_assoc, eat_bind h]
  by_cases hm : front ws = .mark m
  · rw [if_pos hm, if_pos hm]
    rfl
  · rw [if_neg hm, if_neg hm]
    rfl

theorem expectName_bind (h : p.Faces k ws) {name : String} (hname : front ws = .ident name)
    (x : Wanted) (f : String × Span → Grammar β) :
    (expectName x >>= f) p = f (name, p.current.span p.file) p.advance := by
  rw [expectName, bind_assoc, peek_bind h, hname]
  rfl

/-! ## What is accepted -/

/-- **What a rule accepts** are words in the given relation to its result. -/
def Takes (x : Grammar α) (R : List Word → α → Prop) : Prop :=
  ∀ {k p ws a q}, p.Faces k ws → x p = .ok a q →
    ∃ used rest, ws = used ++ rest ∧ q.Faces k rest ∧ R used a

theorem fail_ne_ok {cause : ParseCause} {f : α → Grammar β} {b : β} :
    (fail cause >>= f) p ≠ .ok b q := by
  intro h
  cases h

/-- **A mark that may be there** is the first word, which has been taken, or it is not in front. -/
theorem eat_cases (h : p.Faces k ws) {m : Mark} {f : Bool → Grammar β} {b : β}
    (hrun : (eat m >>= f) p = .ok b q) :
    (∃ w ws', ws = w :: ws' ∧ w.token = .mark m ∧ p.advance.Faces k ws' ∧
      f true p.advance = .ok b q) ∨ (front ws ≠ .mark m ∧ f false p = .ok b q) := by
  rw [eat_bind h] at hrun
  split at hrun
  next hm =>
    obtain ⟨w, ws', rfl, hw⟩ := cons_of_front hm Token.noConfusion
    exact .inl ⟨w, ws', rfl, hw, h.advance, hrun⟩
  next hm => exact .inr ⟨hm, hrun⟩

/-- A mark that has been expected is the first word, and has been taken. -/
theorem expect_ok (h : p.Faces k ws) {m : Mark} {x : Wanted} {f : Unit → Grammar β} {b : β}
    (hrun : (expect m x >>= f) p = .ok b q) :
    ∃ w ws', ws = w :: ws' ∧ w.token = .mark m ∧ p.advance.Faces k ws' ∧
      f () p.advance = .ok b q := by
  rw [expect_bind h] at hrun
  split at hrun
  next hm =>
    obtain ⟨w, ws', rfl, hw⟩ := cons_of_front hm Token.noConfusion
    exact ⟨w, ws', rfl, hw, h.advance, hrun⟩
  next => exact absurd hrun fail_ne_ok

/-- A name that has been expected is the first word, and has been taken. -/
theorem expectName_ok (h : p.Faces k ws) {x : Wanted} {f : String × Span → Grammar β} {b : β}
    (hrun : (expectName x >>= f) p = .ok b q) :
    ∃ w ws' name span, ws = w :: ws' ∧ w.token = .ident name ∧ p.advance.Faces k ws' ∧
      f (name, span) p.advance = .ok b q := by
  rw [expectName, bind_assoc, peek_bind h] at hrun
  split at hrun
  next name hname =>
    obtain ⟨w, ws', rfl, hw⟩ := cons_of_front hname Token.noConfusion
    exact ⟨w, ws', name, _, rfl, hw, h.advance, hrun⟩
  next => exact absurd hrun fail_ne_ok

/-! ## What is ensured -/

section Ensures

variable {P P' : Parser → Prop} {Q : α → Parser → Prop} {R : β → Parser → Prop} {X : Prop}
  {x : Grammar α} {f : α → Grammar β}

/-- **From states of one kind the rule leads to states of another kind**, where it accepts. -/
def Ensures (P : Parser → Prop) (x : Grammar α) (Q : α → Parser → Prop) : Prop :=
  ∀ p a q, P p → x p = .ok a q → Q a q

/-- **One rule after the other**: the second starts from what the first ensures. -/
theorem Ensures.bind (h : Ensures P x Q) (hf : ∀ a, Ensures (Q a) (f a) R) : Ensures P (x >>= f) R := by
  intro p b q hp hrun
  obtain ⟨a, q₁, ha, hrun⟩ := bind_eq_ok.mp hrun
  exact hf a q₁ b q (h p a q₁ hp ha) hrun

/-- A rule ensures the same from any state where more is known. -/
theorem Ensures.of_state (h : Ensures P x Q) (hP : ∀ p, P' p → P p) : Ensures P' x Q :=
  fun p a q hp hrun => h p a q (hP p hp) hrun

/-- What is known along with the state. -/
theorem Ensures.of_known (h : X → Ensures P x Q) : Ensures (fun p => P p ∧ X) x Q :=
  fun p a q hp hrun => h hp.2 p a q hp.1 hrun

theorem ensures_pure {a : α} (h : ∀ p, P p → Q a p) : Ensures P (pure a) Q := by
  intro p b q hp hrun
  cases hrun
  exact h p hp

theorem ensures_throw {fault : Fault} : Ensures P (throw fault) Q := by
  intro p a q _ hrun
  cases hrun

theorem ensures_fail {cause : ParseCause} : Ensures P (fail cause) Q := by
  intro p a q _ hrun
  cases hrun

/-- What stands behind a failure does not matter. -/
theorem ensures_fail_bind {cause : ParseCause} : Ensures P (fail cause >>= f) R :=
  fun _ _ _ _ hrun => absurd hrun fail_ne_ok

theorem ensures_get : Ensures P get fun q p => P p ∧ p = q := by
  intro p q r hp hrun
  cases hrun
  exact ⟨hp, rfl⟩

theorem ensures_here : Ensures P here fun _ => P := by
  intro p span q hp hrun
  cases hrun
  exact hp

theorem ensures_remaining : Ensures P remaining fun _ => P := by
  intro p n q hp hrun
  cases hrun
  exact hp

/-- Looking at the current token tells what it is. -/
theorem ensures_peek : Ensures P peek fun t p => P p ∧ p.current.token = t := by
  intro p t q hp hrun
  cases hrun
  exact ⟨hp, rfl⟩

/-- Looking for a mark tells whether it is there. -/
theorem ensures_sees (m : Mark) :
    Ensures P (sees m) fun seen p => P p ∧ seen = decide (p.current.token = .mark m) := by
  intro p seen q hp hrun
  cases hrun
  exact ⟨hp, rfl⟩

/-- Taking a lexeme ensures what is known behind it. -/
theorem ensures_bump (h : ∀ p, P p → P' p.advance) : Ensures P bump fun _ => P' := by
  intro p a q hp hrun
  cases hrun
  exact h p hp

end Ensures

/-! ## What is given -/

/-- A result that is as it should be; or, if values may be too `deep`, the fault for that. -/
def Gives (deep : Prop) (Q : α → Parser → Prop) : EStateM.Result Fault Parser α → Prop
  | .ok a q => Q a q
  | .error fault _ => deep ∧ fault.code = 217

/-- **One rule after the other**: if the second gives its result wherever the first ends, both give it. -/
theorem Gives.bind {deep : Prop} {P : α → Parser → Prop} {Q : β → Parser → Prop} {x : Grammar α}
    {f : α → Grammar β} (h : Gives deep P (x p)) (hf : ∀ a q, P a q → Gives deep Q (f a q)) :
    Gives deep Q ((x >>= f) p) := by
  show Gives deep Q (EStateM.bind x f p)
  unfold EStateM.bind
  cases hx : x p with
  | ok a q =>
    rw [hx] at h
    exact hf a q h
  | error fault q =>
    rw [hx] at h
    exact h

theorem Gives.imp {deep : Prop} {P Q : α → Parser → Prop} {r : EStateM.Result Fault Parser α}
    (h : Gives deep P r) (hPQ : ∀ a q, P a q → Q a q) : Gives deep Q r := by
  cases r with
  | ok a q => exact hPQ a q h
  | error => exact h

theorem Gives.mono {deep deep' : Prop} {Q : α → Parser → Prop} {r : EStateM.Result Fault Parser α}
    (h : Gives deep Q r) (hdeep : deep → deep') : Gives deep' Q r := by
  cases r with
  | ok => exact h
  | error => exact ⟨hdeep h.1, h.2⟩

/-- Where no value can be too deep, there is a result. -/
theorem Gives.exists_ok {deep : Prop} {Q : α → Parser → Prop} {r : EStateM.Result Fault Parser α}
    (h : Gives deep Q r) (hdeep : ¬deep) : ∃ a q, r = .ok a q ∧ Q a q := by
  cases r with
  | ok a q => exact ⟨a, q, rfl, h⟩
  | error => exact absurd h.1 hdeep

theorem gives_tooDeep {deep : Prop} (hdeep : deep) {Q : α → Parser → Prop} :
    Gives deep Q ((fail .tooDeep : Grammar α) p) := ⟨hdeep, rfl⟩

end Grammar

end Yini
