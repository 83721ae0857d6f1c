import Yini.Proofs.Token.Gap
import Yini.Proofs.Token.Spelling

/-!
Sources as lists of words.

A `Word` is a token with the characters that spell it and the gap before it.  A list of words is cut
right (`Cut`) if each word ends where the next one begins, whatever its neighbours are; what follows
the last word may be changed for anything `Quiet`.  Reading lexemes off a source is finding the words
that it is written in (`words_of_read`, `read_of_words`).
-/

namespace Yini

/-- A token as it is written, with the gap before it. -/
structure Word where
  gap : List Char
  token : Token
  text : List Char

/-- The characters of a word with its gap. -/
def Word.chars (w : Word) : List Char := w.gap ++ w.text

/-- The characters of words one after the other. -/
def written (ws : List Word) : List Char := ws.flatMap Word.chars

@[simp] theorem written_nil : written [] = [] := rfl

@[simp] theorem written_cons (w : Word) (ws : List Word) :
    written (w :: ws) = w.gap ++ (w.text ++ written ws) := by
  rw [written, List.flatMap_cons, Word.chars, List.append_assoc]
  rfl

@[simp] theorem written_append (ws ws' : List Word) :
    written (ws ++ ws') = written ws ++ written ws' := List.flatMap_append

/-! ## Neighbours -/

/-- The word ends before the given characters, and begins behind its gap. -/
structure Word.Before (w : Word) (rest : List Char) : Prop where
  gap : Gap.Fills .blank w.gap
  starts : opensGap (w.text ++ rest) = false
  spells : Token.Spells w.text w.token rest

/-- **Words are cut right** when the given characters follow the last one. -/
def Cut : List Word → List Char → Prop
  | [], _ => True
  | w :: ws, last => w.Before (written ws ++ last) ∧ Cut ws last

/-- Words are cut right exactly if those in front are, before the others, and the others are. -/
theorem cut_append {ws ws' : List Word} {last : List Char} :
    Cut (ws ++ ws') last ↔ Cut ws (written ws' ++ last) ∧ Cut ws' last := by
  induction ws with
  | nil => simp [Cut]
  | cons w ws ih => simp only [List.cons_append, Cut, ih, written_append, List.append_assoc, and_assoc]

/-- The end of the source is not among words that are cut right. -/
theorem Cut.ne_finish {ws : List Word} {last : List Char} (h : Cut ws last) :
    ∀ w ∈ ws, w.token ≠ .finish := by
  induction ws with
  | nil => exact fun _ hw => absurd hw List.not_mem_nil
  | cons w ws ih =>
    intro w' hw'
    rcases List.mem_cons.mp hw' with rfl | hw'
    · exact h.1.spells.ne_finish
    · exact ih h.2 w' hw'

/-- Characters that end every word: what they begin with continues no token, and makes no comment. -/
def Quiet (cs : List Char) : Prop :=
  ∀ c, cs.head? = some c → Text.continuesName c = false ∧ c ∉ ['.', '=', '/', '*']

theorem quiet_nil : Quiet [] := fun _ h => by cases h

/-- Quiet is what begins with a character that neither continues a name nor changes a mark before it. -/
theorem quiet_cons {c : Char} (hname : Text.continuesName c = false) (hmark : c ∉ ['.', '=', '/', '*'])
    (cs : List Char) : Quiet (c :: cs) := by
  rintro d ⟨⟩
  exact ⟨hname, hmark⟩

/-- The digits are those of the range that begins the table of numbers. -/
theorem Text.continuesName_of_isDigit {c : Char} (h : c.isDigit = true) :
    Text.continuesName c = true := by
  simp only [Char.isDigit, Bool.and_eq_true, decide_eq_true_eq] at h
  have hbounds : 0x30 ≤ c.toNat ∧ c.toNat ≤ 0x39 :=
    ⟨UInt32.le_iff_toNat_le.mp h.1, UInt32.le_iff_toNat_le.mp h.2⟩
  have hrange : Text.inRanges Text.numericRanges c.toNat = true := by
    rw [Text.numericRanges, Text.inRanges, if_neg (by omega), if_pos hbounds.2]
  rw [Text.continuesName, Text.isAlphanumeric, hrange, Bool.or_true, Bool.true_or]

/-- No digit is quiet, as it continues a name. -/
theorem Quiet.not_isDigit {cs : List Char} (h : Quiet cs) {c : Char} (hc : cs.head? = some c) :
    c.isDigit = false := by
  refine Bool.eq_false_iff.mpr fun hdigit => ?_
  have hname := (h c hc).1
  rw [Text.continuesName_of_isDigit hdigit] at hname
  cases hname

/-- What follows a word may be exchanged behind its first characters. -/
theorem Token.Spells.quiet {text cs last last' : List Char} {t : Token}
    (h : Spells text t (cs ++ last)) (hquiet : Quiet last') : Spells text t (cs ++ last') := by
  -- the next character is the same, or one of `last'`
  have hhead : ∀ c, (cs ++ last').head? = some c →
      (cs ++ last).head? = some c ∨ last'.head? = some c := by
    cases cs with
    | nil => exact fun c hc => .inr hc
    | cons d cs => exact fun c hc => .inl hc
  have hdigit : (∀ c, (cs ++ last).head? = some c → c.isDigit = false) →
      ∀ c, (cs ++ last').head? = some c → c.isDigit = false := by
    intro h c hc
    rcases hhead c hc with hc | hc
    · exact h c hc
    · exact hquiet.not_isDigit hc
  cases h with
  | append => exact .append _
  | mark hm hrest =>
    refine .mark hm fun hplus heq => ?_
    rcases hhead '=' heq with heq | heq
    · exact hrest hplus heq
    · exact (hquiet _ heq).2 (by simp)
  | string h => exact .string h
  | whole hne hdigits hrest hpoint =>
    refine .whole hne hdigits (hdigit hrest) fun c ds hds => ?_
    cases cs with
    | nil =>
      rw [List.nil_append] at hds
      exact absurd (hquiet '.' (by rw [hds]; rfl)).2 (by simp)
    | cons d cs =>
      cases cs with
      | nil =>
        have htail : last' = c :: ds := (List.cons.inj hds).2
        exact hquiet.not_isDigit (by rw [htail]; rfl)
      | cons d' cs =>
        have hfirst : d = '.' := (List.cons.inj hds).1
        have hsecond : d' = c := (List.cons.inj (List.cons.inj hds).2).1
        rw [← hsecond]
        exact hpoint d' (cs ++ last) (by rw [hfirst]; rfl)
  | decimal hne hfraction hdigits hfractions hrest =>
    exact .decimal hne hfraction hdigits hfractions (hdigit hrest)
  | word hmark hdigit hstart hcs hrest =>
    refine .word hmark hdigit hstart hcs fun d hd => ?_
    rcases hhead d hd with hd | hd
    · exact hrest d hd
    · exact (hquiet d hd).1

/-- Whether a gap begins is not changed by what follows quietly. -/
theorem not_opensGap_quiet {text cs last last' : List Char} (hne : text ≠ [])
    (h : opensGap (text ++ (cs ++ last)) = false) (hquiet : Quiet last') :
    opensGap (text ++ (cs ++ last')) = false := by
  obtain ⟨c, text, rfl⟩ := List.exists_cons_of_ne_nil hne
  by_cases hslash : c = '/'
  · -- whether a slash opens a comment depends on the next character
    subst hslash
    have hblank : Text.isBlank '/' = false := by decide
    cases hrest : text ++ (cs ++ last') with
    | nil => rw [List.cons_append, hrest]; exact hblank
    | cons d ds =>
      have hd : d ≠ '/' ∧ d ≠ '*' := by
        have hcase : (text ++ (cs ++ last)).head? = some d ∨ last'.head? = some d := by
          cases text with
          | cons e text => exact .inl (congrArg List.head? hrest)
          | nil =>
            cases cs with
            | cons e cs => exact .inl (congrArg List.head? hrest)
            | nil => exact .inr (congrArg List.head? hrest)
        rcases hcase with hcase | hcase
        · obtain ⟨es, hes⟩ := List.head?_eq_some_iff.mp hcase
          rw [List.cons_append, hes] at h
          constructor <;> rintro rfl <;> cases h
        · have := (hquiet d hcase).2
          simp only [List.mem_cons, not_or] at this
          exact ⟨this.2.2.1, this.2.2.2.1⟩
      rw [List.cons_append, hrest, opensGap]
      · exact hblank
      · rintro es - heq
        exact hd.1 (List.cons.inj heq).1
      · rintro es - heq
        exact hd.2 (List.cons.inj heq).1
  · rw [List.cons_append, opensGap_of_ne_slash hslash] at h ⊢
    exact h

/-- A word ends where it ended, if what follows is changed for something quiet. -/
theorem Word.Before.quiet {w : Word} {cs last last' : List Char} (h : w.Before (cs ++ last))
    (hquiet : Quiet last') : w.Before (cs ++ last') :=
  ⟨h.gap, not_opensGap_quiet h.spells.ne_nil h.starts hquiet, h.spells.quiet hquiet⟩

/-- **What follows the last word** may be anything quiet. -/
theorem Cut.quiet {ws : List Word} {last last' : List Char} (h : Cut ws last)
    (hquiet : Quiet last') : Cut ws last' := by
  induction ws with
  | nil => trivial
  | cons w ws ih => exact ⟨h.1.quiet hquiet, ih h.2⟩

/-- The same words with another gap before the first one. -/
def regap (gap : List Char) : List Word → List Word
  | [] => []
  | w :: ws => { w with gap } :: ws

/-- Another gap before the first word changes nothing about where words end. -/
theorem Cut.regap {gap : List Char} {ws : List Word} {last : List Char} (h : Cut ws last)
    (hgap : Gap.Fills .blank gap) : Cut (regap gap ws) last := by
  cases ws with
  | nil => trivial
  | cons w ws => exact ⟨⟨hgap, h.1.starts, h.1.spells⟩, h.2⟩

/-! ## Lexemes of words -/

/-- The lexemes are the words one after the other, where so many bytes stand before them. -/
def Lays : Nat → List Word → List Lexeme → Prop
  | _, [], [] => True
  | n, w :: ws, l :: ls => l.token = w.token ∧ l.start = n + bytes w.gap ∧
      l.stop = l.start + bytes w.text ∧ Lays l.stop ws ls
  | _, _, _ => False

/-- The lexeme that is read next is the next word, or nothing but a gap is left. -/
theorem Cursor.next_cases {file : Option String} {p q : Cursor} {l : Lexeme}
    (h : p.next file = (.ok l, q)) (hl : l.token ≠ .finish) :
    ∃ w : Word, p.rest = w.gap ++ (w.text ++ q.rest) ∧ w.Before q.rest ∧ l.token = w.token ∧
      l.start = p.offset + bytes w.gap ∧ l.stop = l.start + bytes w.text ∧ q.offset = l.stop := by
  unfold next at h
  split at h
  next => cases h
  next p' hskip =>
    obtain ⟨gap, hrest, hp', hopens, hfills⟩ := Gap.skip_cases rfl hskip
    split at h
    next token count hscan =>
      cases h
      obtain ⟨text, rest, htext, rfl, hspells⟩ := Token.spells_of_scan hscan hl
      have hfills : Gap.Fills .blank gap := by
        refine hfills.resolve_right fun hnil => hspells.ne_nil ?_
        rw [hnil] at htext
        exact (List.append_eq_nil_iff.mp htext.symm).1
      have hq : (p'.advance text.length).rest = rest := rest_advance_append htext
      refine ⟨⟨gap, token, text⟩, by rw [hrest, htext, hq], ⟨hfills, ?_, ?_⟩, rfl, ?_, ?_, rfl⟩
      · rwa [hq, ← htext]
      · rwa [hq]
      · rw [hp']
        exact offset_advance hrest
      · exact offset_advance htext
    next => cases h
    next => cases h

/-- The next word is read: it stands behind its gap, and the cursor goes to its end. -/
theorem Cursor.next_eq_of_word (file : Option String) {p : Cursor} {w : Word} {rest : List Char}
    (hrest : p.rest = w.gap ++ (w.text ++ rest)) (hw : w.Before rest) :
    p.next file =
      (.ok ⟨w.token, (p.advance w.gap.length).line, (p.advance w.gap.length).column,
        (p.advance w.gap.length).offset, ((p.advance w.gap.length).advance w.text.length).offset⟩,
        (p.advance w.gap.length).advance w.text.length) := by
  have hskip : p.skip = .ok (p.advance w.gap.length) := by
    rw [skip, hrest]
    exact Gap.skip_of_fills hw.gap hw.starts p hrest
  have hscan : Token.scan (p.advance w.gap.length).rest = .ok (w.token, w.text.length) := by
    rw [rest_advance_append hrest]
    exact Token.scan_of_spells hw.spells
  rw [next, hskip]
  simp only [hscan]

/-- The next word is read, and its bytes are counted. -/
theorem Cursor.next_of_word (file : Option String) {p : Cursor} {w : Word} {rest : List Char}
    (hrest : p.rest = w.gap ++ (w.text ++ rest)) (hw : w.Before rest) :
    ∃ l q, p.next file = (.ok l, q) ∧ q.rest = rest ∧ l.token = w.token ∧
      l.start = p.offset + bytes w.gap ∧ l.stop = l.start + bytes w.text ∧ q.offset = l.stop := by
  have hp : (p.advance w.gap.length).rest = w.text ++ rest := rest_advance_append hrest
  refine ⟨_, _, next_eq_of_word file hrest hw, rest_advance_append hp, rfl, ?_, ?_, rfl⟩
  · exact offset_advance hrest
  · exact offset_advance hp

namespace Lexeme

variable {file : Option String}

/-- A lexeme that is not the end is kept, and reading goes on behind it. -/
theorem readFrom_cons {p q : Cursor} {l : Lexeme} {before : List Lexeme}
    (hnext : p.next file = (.ok l, q)) (hl : l.token ≠ .finish) :
    readFrom file p before = readFrom file q (l :: before) := by
  rw [readFrom]
  split
  next heq => rw [hnext] at heq; cases heq
  next l' q' heq =>
    rw [hnext] at heq
    cases heq
    exact dif_neg hl

/-- At the end all lexemes come out in their order. -/
theorem readFrom_finish {p q : Cursor} {l : Lexeme} {before : List Lexeme}
    (hnext : p.next file = (.ok l, q)) (hl : l.token = .finish) :
    readFrom file p before = .ok (before.reverse, l) := by
  rw [readFrom]
  split
  next heq => rw [hnext] at heq; cases heq
  next l' q' heq =>
    rw [hnext] at heq
    cases heq
    exact dif_pos hl

/-- Lexemes are read off words, with nothing but a gap behind the last one. -/
theorem words_of_readFrom {p : Cursor} {before ls : List Lexeme} {finish : Lexeme}
    (h : readFrom file p before = .ok (ls, finish)) :
    ∃ ws last ls', ls = before.reverse ++ ls' ∧ p.rest = written ws ++ last ∧ Cut ws last ∧
      Lays p.offset ws ls' ∧ finish.token = .finish := by
  fun_induction readFrom file p before with
  | case1 p before fault q hnext => cases h
  | case2 p before l q hnext hl =>
    cases h
    exact ⟨[], p.rest, [], (List.append_nil _).symm, rfl, trivial, trivial, hl⟩
  | case3 p before l q hnext hl ih =>
    obtain ⟨w, hrest, hw, htoken, hstart, hstop, hoffset⟩ := Cursor.next_cases hnext hl
    obtain ⟨ws, last, ls', rfl, hq, hcut, hlays, hfinish⟩ := ih h
    refine ⟨w :: ws, last, l :: ls', by simp, ?_, ⟨hq ▸ hw, hcut⟩, ⟨htoken, hstart, hstop, ?_⟩, hfinish⟩
    · rw [hrest, hq, written_cons, List.append_assoc, List.append_assoc]
    · rwa [← hoffset]

/-- Words are read one after the other. -/
theorem readFrom_of_words {ws : List Word} (hcut : Cut ws []) {p : Cursor} (hp : p.rest = written ws)
    (before : List Lexeme) :
    ∃ ls finish, readFrom file p before = .ok (before.reverse ++ ls, finish) ∧
      Lays p.offset ws ls ∧ finish.token = .finish := by
  induction ws generalizing p before with
  | nil =>
    have hp : p.rest = [] := hp
    have hskip : p.skip = .ok p := by
      rw [Cursor.skip, hp]
      rfl
    -- behind the last word nothing is left but the end of the source
    have hnext : ∃ l, p.next file = (.ok l, p) ∧ l.token = .finish := by
      refine ⟨⟨.finish, p.line, p.column, p.offset, p.offset⟩, ?_, rfl⟩
      rw [Cursor.next, hskip]
      simp only [hp]
      rfl
    obtain ⟨l, hnext, hl⟩ := hnext
    exact ⟨[], l, by rw [readFrom_finish hnext hl, List.append_nil], trivial, hl⟩
  | cons w ws ih =>
    rw [written_cons] at hp
    have hw := hcut.1
    rw [List.append_nil] at hw
    obtain ⟨l, q, hnext, hq, htoken, hstart, hstop, hoffset⟩ := Cursor.next_of_word file hp hw
    have hl : l.token ≠ .finish := by
      rw [htoken]
      exact hw.spells.ne_finish
    obtain ⟨ls, finish, hread, hlays, hfinish⟩ := ih hcut.2 hq (l :: before)
    refine ⟨l :: ls, finish, ?_, ⟨htoken, hstart, hstop, ?_⟩, hfinish⟩
    · rw [readFrom_cons hnext hl, hread, List.reverse_cons, List.append_assoc]
      rfl
    · rwa [← hoffset]

/-- **A source that is read** is written in words. -/
theorem words_of_read {source : String} {ls : List Lexeme} {finish : Lexeme}
    (h : read file source = .ok (ls, finish)) :
    ∃ ws last, source.toList = written ws ++ last ∧ Cut ws last ∧ Lays 0 ws ls ∧
      finish.token = .finish := by
  obtain ⟨ws, last, ls', rfl, hsource, hcut, hlays, hfinish⟩ := words_of_readFrom h
  exact ⟨ws, last, hsource, hcut, hlays, hfinish⟩

/-- **Words that are cut right** are read. -/
theorem read_of_words {ws : List Word} (hcut : Cut ws []) {source : String}
    (hsource : source.toList = written ws) :
    ∃ ls finish, read file source = .ok (ls, finish) ∧ Lays 0 ws ls ∧ finish.token = .finish :=
  readFrom_of_words hcut (p := .start source.toList) hsource []

end Lexeme

end Yini
