import Yini.Proofs.Token.Word

/-!
Texts one below the other.

When a text is put below another one, every lexeme of it moves down by the lines and the bytes above it
and stays the same otherwise (`Lexeme.readFrom_down`).  The text above does not notice: the line break
between the two ends each of its words, and a comment that goes on to the end of its last line
(`Lexeme.readFrom_above`).  So the lexemes of both together are those of the one, and behind them those
of the other, moved down (`Lexeme.read_join`).
-/

namespace Yini

variable {lines size : Nat}

/-! ## Moving down -/

/-- The lexeme with more lines and more bytes before it. -/
def Lexeme.down (lines size : Nat) (l : Lexeme) : Lexeme :=
  { l with line := l.line + lines, start := l.start + size, stop := l.stop + size }

namespace Cursor

/-- The cursor with more lines and more bytes before it. -/
def down (lines size : Nat) (p : Cursor) : Cursor :=
  { p with offset := p.offset + size, line := p.line + lines }

/-- A cursor can be moved down before or after a character. -/
theorem after_down (p : Cursor) (c : Char) (rest : List Char) :
    (p.down lines size).after c rest = (p.after c rest).down lines size := by
  unfold after down
  split <;> simp only [Nat.add_right_comm]

/-- A cursor can be moved down before or after some characters. -/
theorem advance_down (n : Nat) (p : Cursor) :
    (p.down lines size).advance n = (p.advance n).down lines size := by
  induction n generalizing p with
  | zero => rfl
  | succ n ih =>
    cases hrest : p.rest with
    | nil =>
      rw [advance, advance, hrest, show (p.down lines size).rest = [] from hrest]
    | cons c rest =>
      rw [advance_cons hrest, advance_cons (show (p.down lines size).rest = c :: rest from hrest),
        after_down, ih]

end Cursor

namespace Gap

/-- The place in a gap with more lines and more bytes before it. -/
def down (lines size : Nat) : Gap → Gap
  | .blank => .blank
  | .line => .line
  | .block origin => .block (origin.down lines size)

/-- Passing over a gap does not depend on where it is. -/
theorem skip_down {g : Gap} {cs : List Char} {p q : Cursor} (h : skip g cs p = .ok q) :
    skip (g.down lines size) cs (p.down lines size) = .ok (q.down lines size) := by
  -- one case for each kind of character in each kind of gap: all of them move the cursor on by themselves
  fun_induction skip g cs p with
  | case1 p =>
    cases h
    rfl
  | case2 cs p ih =>
    rw [down, skip, Cursor.after_down, Cursor.after_down]
    exact ih h
  | case3 cs p ih =>
    rw [down, skip, Cursor.after_down, Cursor.after_down]
    exact ih h
  | case4 c cs p _ _ hc ih =>
    rw [down, skip_blank_char hc, Cursor.after_down]
    exact ih h
  | case5 c cs p hline hblock hc =>
    cases h
    rw [down, skip, if_neg hc]
    · exact hline
    · exact hblock
  | case6 p =>
    cases h
    rfl
  | case7 cs p ih =>
    rw [down, skip, Cursor.after_down]
    exact ih h
  | case8 c cs p hc ih =>
    rw [down, skip_line_char hc, Cursor.after_down]
    exact ih h
  | case9 => cases h
  | case10 origin cs p ih =>
    rw [down, skip, Cursor.after_down, Cursor.after_down]
    exact ih h
  | case11 origin c cs p hend ih =>
    rw [down, skip, Cursor.after_down]
    · exact ih h
    · exact hend

end Gap

/-- The lexeme that is read next is the same further down. -/
theorem Cursor.next_down {file : Option String} {p q : Cursor} {l : Lexeme}
    (h : p.next file = (.ok l, q)) :
    (p.down lines size).next file = (.ok (l.down lines size), q.down lines size) := by
  unfold next at h
  split at h
  next => cases h
  next p' hskip =>
    have hskip' : (p.down lines size).skip = .ok (p'.down lines size) := Gap.skip_down hskip
    have hrest : (p'.down lines size).rest = p'.rest := rfl
    split at h
    next token count hscan =>
      cases h
      rw [next, hskip']
      simp only [hrest, hscan, advance_down]
      rfl
    next => cases h
    next => cases h

/-- **The lexemes of a text that moves down** move down with it. -/
theorem Lexeme.readFrom_down {file : Option String} {p : Cursor} {before ls : List Lexeme}
    {finish : Lexeme} (h : readFrom file p before = .ok (ls, finish)) (lines size : Nat) :
    ∃ ls', ls = before.reverse ++ ls' ∧ ∀ above,
      readFrom file (p.down lines size) above =
        .ok (above.reverse ++ ls'.map (Lexeme.down lines size), finish.down lines size) := by
  fun_induction readFrom file p before with
  | case1 p before fault q hnext => cases h
  | case2 p before l q hnext hl =>
    cases h
    refine ⟨[], (List.append_nil _).symm, fun above => ?_⟩
    rw [readFrom_finish (Cursor.next_down hnext) hl, List.map_nil, List.append_nil]
  | case3 p before l q hnext hl ih =>
    obtain ⟨ls', rfl, hread⟩ := ih h
    refine ⟨l :: ls', by simp, fun above => ?_⟩
    rw [readFrom_cons (Cursor.next_down hnext) hl, hread]
    simp

/-! ## What stands above -/

namespace Cursor

/-- The cursor with more characters behind what is to come. -/
def extend (more : List Char) (p : Cursor) : Cursor := { p with rest := p.rest ++ more }

/-- More text at the end makes no difference to a cursor that passes one character. -/
theorem after_extend (more : List Char) (p : Cursor) (c : Char) (rest : List Char) :
    (p.extend more).after c (rest ++ more) = (p.after c rest).extend more := by
  unfold after extend
  split <;> rfl

/-- More text at the end makes no difference to a cursor that passes some of the characters before it. -/
theorem advance_extend (more : List Char) {cs rest : List Char} {p : Cursor} (h : p.rest = cs ++ rest) :
    (p.extend more).advance cs.length = (p.advance cs.length).extend more := by
  induction cs generalizing p with
  | nil => rfl
  | cons c cs ih =>
    have hextend : (p.extend more).rest = c :: ((cs ++ rest) ++ more) := by
      show p.rest ++ more = _
      rw [h]
      rfl
    rw [List.length_cons, advance_cons hextend, advance_cons (show p.rest = c :: (cs ++ rest) from h),
      after_extend, ih (p.rest_after c _)]

/-- The lexeme that is read next stays the same if what is put behind the text ends every word. -/
theorem next_extend {file : Option String} {more : List Char} (hmore : Quiet more) {p q : Cursor}
    {l : Lexeme} (h : p.next file = (.ok l, q)) (hl : l.token ≠ .finish) :
    (p.extend more).next file = (.ok l, q.extend more) := by
  obtain ⟨w, hrest, hw, -⟩ := next_cases h hl
  have hbefore : w.Before (q.rest ++ more) := by
    have hw' : w.Before (q.rest ++ []) := by rwa [List.append_nil]
    exact hw'.quiet hmore
  have hextend : (p.extend more).rest = w.gap ++ (w.text ++ (q.rest ++ more)) := by
    show p.rest ++ more = _
    rw [hrest]
    simp only [List.append_assoc]
  have hgap := advance_extend more hrest
  have htext := advance_extend more (rest_advance_append hrest)
  have hshort := next_eq_of_word file hrest hw
  rw [h] at hshort
  rw [next_eq_of_word file hextend hbefore, hgap, htext]
  obtain ⟨hl, rfl⟩ := Prod.mk.inj hshort
  rw [hl]
  rfl

/-- The end of a source is the same place from wherever one goes there. -/
theorem end_advance (n : Nat) (p : Cursor) :
    (p.advance n).offset + bytes (p.advance n).rest = p.offset + bytes p.rest ∧
      (p.advance n).line + (p.advance n).rest.count '\n' = p.line + p.rest.count '\n' := by
  induction n generalizing p with
  | zero => exact ⟨rfl, rfl⟩
  | succ n ih =>
    cases hrest : p.rest with
    | nil =>
      rw [advance, hrest]
      exact ⟨congrArg (fun cs => p.offset + bytes cs) hrest, congrArg (fun cs => p.line + cs.count '\n') hrest⟩
    | cons c rest =>
      obtain ⟨hoffset, hline⟩ := ih (p.after c rest)
      have hnewline : (p.after c rest).line = p.line + if c = '\n' then 1 else 0 := by
        unfold after
        split <;> rfl
      rw [advance_cons hrest]
      refine ⟨?_, ?_⟩
      · rw [hoffset, offset_after, rest_after, bytes_cons, Nat.add_assoc]
      · rw [hline, hnewline, rest_after, List.count_cons, Nat.add_assoc, Nat.add_comm (ite _ _ _)]
        simp only [beq_iff_eq]

/-- Behind the last line of a text, at the beginning of the next one. -/
def below (p : Cursor) (more : List Char) : Cursor :=
  ⟨more, p.offset + bytes p.rest + 1, p.line + p.rest.count '\n' + 1, 1⟩

/-- Going on in the upper text leads to the same place below it. -/
theorem below_advance (n : Nat) (p : Cursor) (more : List Char) :
    (p.advance n).below more = p.below more := by
  obtain ⟨hoffset, hline⟩ := end_advance n p
  rw [below, below, hoffset, hline]

/-- Behind the upper text and the line break the lower text begins. -/
theorem advance_extend_below (p : Cursor) (more : List Char) :
    (p.extend ('\n' :: more)).advance (p.rest.length + 1) = p.below more := by
  generalize hcs : p.rest = cs
  induction cs generalizing p with
  | nil =>
    have hrest : (p.extend ('\n' :: more)).rest = '\n' :: more := by
      rw [extend, hcs]
      rfl
    rw [List.length_nil, advance_cons hrest, below, hcs]
    rfl
  | cons c cs ih =>
    have hrest : (p.extend ('\n' :: more)).rest = c :: (cs ++ '\n' :: more) := by
      rw [extend, hcs]
      rfl
    have hbelow := below_advance 1 p more
    rw [advance_cons hcs] at hbelow
    rw [List.length_cons, advance_cons hrest, after_extend, ih _ (p.rest_after c cs)]
    exact hbelow

end Cursor

namespace Gap

/-- All that is left is a gap when a line break follows. -/
theorem fills_of_skip_nil {g : Gap} {cs : List Char} {p q : Cursor} (h : skip g cs p = .ok q)
    (hq : q.rest = []) (hp : p.rest = cs) : Fills g (cs ++ ['\n']) := by
  fun_induction skip g cs p with
  | case1 p => exact .blank (by decide) .done
  | case2 cs p ih => exact .lineOpen (ih h (Cursor.rest_after _ _ _))
  | case3 cs p ih => exact .blockOpen fun _ => (ih h (Cursor.rest_after _ _ _)).block
  | case4 c cs p _ _ hc ih => exact .blank hc (ih h (Cursor.rest_after _ _ _))
  | case5 c cs p hline hblock hc =>
    cases h
    rw [hp] at hq
    cases hq
  | case6 p => exact .lineEnd .done
  | case7 cs p ih => exact .lineEnd (ih h (Cursor.rest_after _ _ _))
  | case8 c cs p hc ih => exact .lineChar hc (ih h (Cursor.rest_after _ _ _))
  | case9 => cases h
  | case10 origin cs p ih => exact .blockEnd (ih h (Cursor.rest_after _ _ _))
  | case11 origin c cs p hend ih =>
    refine .blockChar ?_ (ih h (Cursor.rest_after _ _ _))
    rintro ⟨hstar, hhead⟩
    cases cs with
    | nil => cases hhead
    | cons d ds =>
      cases hhead
      exact hend ds hstar rfl

end Gap

/-- The lexeme that is read next depends on where it is found. -/
theorem Cursor.next_of_skip {file : Option String} {p p' q : Cursor} {l : Lexeme}
    (hskip : p.skip = p'.skip) (h : p'.next file = (.ok l, q)) : p.next file = (.ok l, q) := by
  rw [next, hskip]
  unfold next at h
  cases hr : p'.skip with
  | error => rw [hr] at h; cases h
  | ok r =>
    rw [hr] at h
    dsimp only at h ⊢
    split at h
    next => exact h
    next => cases h
    next => cases h

/-- Behind the last line is the same place when a lexeme has been read. -/
theorem Cursor.below_next {file : Option String} {p q : Cursor} {l : Lexeme}
    (h : p.next file = (.ok l, q)) (more : List Char) : q.below more = p.below more := by
  unfold next at h
  split at h
  next => cases h
  next p' hskip =>
    obtain ⟨gap, -, rfl, -⟩ := Gap.skip_cases rfl hskip
    split at h
    next =>
      cases h
      rw [below_advance, below_advance]
    next => cases h
    next => cases h

/-- The end of a text is passed over when another text begins on the next line. -/
theorem Cursor.skip_above {file : Option String} {p q : Cursor} {l : Lexeme}
    (h : p.next file = (.ok l, q)) (hl : l.token = .finish) (more : List Char) :
    (p.extend ('\n' :: more)).skip = (p.below more).skip := by
  have hfills : Gap.Fills .blank (p.rest ++ ['\n']) := by
    unfold next at h
    split at h
    next => cases h
    next p' hskip =>
      split at h
      next token count hscan =>
        cases h
        obtain rfl : token = .finish := hl
        exact Gap.fills_of_skip_nil hskip (Token.eq_nil_of_scan hscan) rfl
      next => cases h
      next => cases h
  have hrest : (p.extend ('\n' :: more)).rest = (p.rest ++ ['\n']) ++ more := by
    rw [List.append_assoc]
    rfl
  have hpast := Gap.skip_fills hfills more (p.extend ('\n' :: more)) hrest
  rw [List.length_append, List.length_singleton, advance_extend_below] at hpast
  rw [skip, hrest, hpast]
  rfl

namespace Lexeme

variable {file : Option String}

/-- Reading goes on in the same way where the next lexeme is the same. -/
theorem readFrom_congr {p p' : Cursor} {before : List Lexeme} {r : List Lexeme × Lexeme}
    (hnext : ∀ l q, p'.next file = (.ok l, q) → p.next file = (.ok l, q))
    (h : readFrom file p' before = .ok r) : readFrom file p before = .ok r := by
  rw [readFrom] at h
  split at h
  next => cases h
  next l q heq =>
    split at h
    next hl => rw [readFrom_finish (hnext l q heq) hl, h]
    next hl => rw [readFrom_cons (hnext l q heq) hl, h]

/-- **The lexemes of a text that another one follows on the next line** stay the same, and behind them
    come those of the other. -/
theorem readFrom_above {p : Cursor} {before ls : List Lexeme} {finish : Lexeme}
    (h : readFrom file p before = .ok (ls, finish)) {more : List Char} {r : List Lexeme × Lexeme}
    (hmore : readFrom file (p.below more) ls.reverse = .ok r) :
    readFrom file (p.extend ('\n' :: more)) before = .ok r := by
  have hquiet : Quiet ('\n' :: more) := quiet_cons (by decide) (by decide) more
  fun_induction readFrom file p before with
  | case1 p before fault q hnext => cases h
  | case2 p before l q hnext hl =>
    cases h
    rw [List.reverse_reverse] at hmore
    exact readFrom_congr (fun l' q' => Cursor.next_of_skip (Cursor.skip_above hnext hl more)) hmore
  | case3 p before l q hnext hl ih =>
    rw [readFrom_cons (Cursor.next_extend hquiet hnext hl) hl]
    exact ih h (by rwa [Cursor.below_next hnext])

/-- **The lexemes of two texts**, one below the other. -/
theorem read_join {a b : String} {la lb : List Lexeme} {fa fb : Lexeme}
    (ha : read file a = .ok (la, fa)) (hb : read file b = .ok (lb, fb)) :
    read file (a ++ "\n" ++ b) =
      .ok (la ++ lb.map (down (a.toList.count '\n' + 1) (bytes a.toList + 1)),
        fb.down (a.toList.count '\n' + 1) (bytes a.toList + 1)) := by
  obtain ⟨ls, rfl, hread⟩ := readFrom_down hb (a.toList.count '\n' + 1) (bytes a.toList + 1)
  have hbelow : (Cursor.start a.toList).below b.toList =
      (Cursor.start b.toList).down (a.toList.count '\n' + 1) (bytes a.toList + 1) := by
    simp only [Cursor.below, Cursor.down, Cursor.start, Cursor.mk.injEq, true_and, and_true]
    omega
  have hmore := hread la.reverse
  rw [← hbelow, List.reverse_reverse] at hmore
  have hsource : (a ++ "\n" ++ b).toList = a.toList ++ '\n' :: b.toList := by
    simp [String.toList_append]
  rw [read, hsource]
  exact readFrom_above ha hmore

end Lexeme

end Yini
