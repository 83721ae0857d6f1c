import Yini.Token.Lexer

/-!
Gaps: the white space and the comments between two tokens.

`Gap.Fills` says which characters make a gap, and `opensGap` whether one begins.  Passing over gaps
stops exactly behind the characters that fill one (`Gap.skip_of_fills`), and whatever it passes over is
a gap, or the rest of the source (`Gap.skip_cases`).
-/

namespace Yini

/-! ## Bytes -/

/-- The number of bytes of some characters. -/
def bytes : List Char → Nat
  | [] => 0
  | c :: cs => c.utf8Size + bytes cs

@[simp] theorem bytes_nil : bytes [] = 0 := rfl

@[simp] theorem bytes_cons (c : Char) (cs : List Char) : bytes (c :: cs) = c.utf8Size + bytes cs := rfl

/-- The bytes of a text are those of its parts. -/
theorem bytes_append (cs ds : List Char) : bytes (cs ++ ds) = bytes cs + bytes ds := by
  induction cs with
  | nil => simp
  | cons c cs ih => rw [List.cons_append, bytes_cons, bytes_cons, ih, Nat.add_assoc]

namespace Cursor

/-- A character moves the cursor on by its bytes. -/
theorem offset_after (p : Cursor) (c : Char) (rest : List Char) :
    (p.after c rest).offset = p.offset + c.utf8Size := by
  unfold after
  split <;> rfl

/-- Going on by one character more is going past the first one before. -/
theorem advance_cons {p : Cursor} {c : Char} {rest : List Char} (h : p.rest = c :: rest) (n : Nat) :
    p.advance (n + 1) = (p.after c rest).advance n := by
  rw [advance, h]

/-- The bytes before a cursor that has advanced over some characters. -/
theorem offset_advance {cs rest : List Char} {p : Cursor} (h : p.rest = cs ++ rest) :
    (p.advance cs.length).offset = p.offset + bytes cs := by
  induction cs generalizing p with
  | nil => rfl
  | cons c cs ih =>
    rw [List.length_cons, advance_cons (show p.rest = c :: (cs ++ rest) from h), ih (p.rest_after c _), offset_after,
      bytes_cons, Nat.add_assoc]

/-- Going past the characters in front leaves the others. -/
theorem rest_advance_append {cs rest : List Char} {p : Cursor} (h : p.rest = cs ++ rest) :
    (p.advance cs.length).rest = rest := by
  rw [rest_advance, h, List.drop_left]

end Cursor

/-! ## Gaps -/

/-- Whether white space or a comment begins here. -/
def opensGap : List Char → Bool
  | '/' :: '/' :: _ => true
  | '/' :: '*' :: _ => true
  | c :: _ => Text.isBlank c
  | [] => false

/-- Without a slash only white space begins a gap. -/
theorem opensGap_of_ne_slash {c : Char} {cs : List Char} (h : c ≠ '/') :
    opensGap (c :: cs) = Text.isBlank c := by
  unfold opensGap
  split
  next heq => exact absurd (List.cons.inj heq).1 h
  next heq => exact absurd (List.cons.inj heq).1 h
  next heq => rw [(List.cons.inj heq).1]
  next heq => cases heq

namespace Gap

/-- The characters fill a gap from a place in it to its end. -/
inductive Fills : Gap → List Char → Prop
  | done : Fills .blank []
  | blank {c : Char} {cs : List Char} (hc : Text.isBlank c) (h : Fills .blank cs) :
      Fills .blank (c :: cs)
  | lineOpen {cs : List Char} (h : Fills .line cs) : Fills .blank ('/' :: '/' :: cs)
  | lineChar {c : Char} {cs : List Char} (hc : c ≠ '\n') (h : Fills .line cs) :
      Fills .line (c :: cs)
  | lineEnd {cs : List Char} (h : Fills .blank cs) : Fills .line ('\n' :: cs)
  | blockOpen {cs : List Char} (h : ∀ origin, Fills (.block origin) cs) :
      Fills .blank ('/' :: '*' :: cs)
  | blockChar {origin : Cursor} {c : Char} {cs : List Char}
      (hc : ¬(c = '*' ∧ cs.head? = some '/')) (h : Fills (.block origin) cs) :
      Fills (.block origin) (c :: cs)
  | blockEnd {origin : Cursor} {cs : List Char} (h : Fills .blank cs) :
      Fills (.block origin) ('*' :: '/' :: cs)

/-- In which comment in brackets the characters stand makes no difference. -/
theorem Fills.block {origin origin' : Cursor} {cs : List Char} (h : Fills (.block origin) cs) :
    Fills (.block origin') cs := by
  generalize hg : Gap.block origin = g at h
  induction h with
  | blockChar hc h ih => exact .blockChar hc (ih hg)
  | blockEnd h => exact .blockEnd h
  | _ => cases hg

theorem skip_blank_char {c : Char} {cs : List Char} (hc : Text.isBlank c) (p : Cursor) :
    skip .blank (c :: cs) p = skip .blank cs (p.after c cs) := by
  have hslash : c ≠ '/' := by
    rintro rfl
    exact absurd hc (by decide)
  rw [skip, if_pos hc]
  · rintro _ heq _
    exact hslash heq
  · rintro _ heq _
    exact hslash heq

/-- A comment to the end of the line goes on up to the line break. -/
theorem skip_line_char {c : Char} {cs : List Char} (hc : c ≠ '\n') (p : Cursor) :
    skip .line (c :: cs) p = skip .line cs (p.after c cs) := by
  rw [skip]
  rintro rfl
  exact hc rfl

/-- A block comment goes on up to its closing mark. -/
theorem skip_block_char {origin : Cursor} {c : Char} {cs : List Char}
    (hc : ¬(c = '*' ∧ cs.head? = some '/')) (p : Cursor) :
    skip (.block origin) (c :: cs) p = skip (.block origin) cs (p.after c cs) := by
  rw [skip]
  rintro ds rfl rfl
  exact hc ⟨rfl, rfl⟩

/-- Where no gap begins, nothing is passed over. -/
theorem skip_of_not_opensGap {cs : List Char} (h : opensGap cs = false) (p : Cursor) :
    skip .blank cs p = .ok p := by
  cases cs with
  | nil => rfl
  | cons c cs =>
    rw [skip]
    · have hc : Text.isBlank c = false := by
        by_cases hslash : c = '/'
        · rw [hslash]
          decide
        · rwa [opensGap_of_ne_slash hslash] at h
      rw [hc]
      rfl
    · rintro ds rfl rfl
      cases h
    · rintro ds rfl rfl
      cases h

/-- Passing over characters that fill a gap leads behind them, and from there over white space and
    comments again. -/
theorem skip_fills {g : Gap} {cs : List Char} (h : Fills g cs) (rest : List Char) :
    ∀ p : Cursor, p.rest = cs ++ rest →
      skip g (cs ++ rest) p = skip .blank rest (p.advance cs.length) := by
  -- two characters further on, as far as the marks of comments go
  have hpair : ∀ (p : Cursor) (c c' : Char) (cs : List Char), p.rest = c :: c' :: cs →
      ((p.after c (c' :: cs)).after c' cs).rest = cs ∧
        ∀ n, p.advance (n + 1 + 1) = ((p.after c (c' :: cs)).after c' cs).advance n := by
    intro p c c' cs hp
    refine ⟨Cursor.rest_after _ c' cs, fun n => ?_⟩
    rw [Cursor.advance_cons hp, Cursor.advance_cons (p.rest_after c _)]
  induction h with
  | done => exact fun p _ => rfl
  | @blank c cs hc _ ih =>
    intro p hp
    rw [List.cons_append, skip_blank_char hc, ih _ (p.rest_after c _), List.length_cons,
      Cursor.advance_cons (show p.rest = c :: (cs ++ rest) from hp)]
  | @lineOpen cs _ ih =>
    intro p hp
    obtain ⟨hnext, hadvance⟩ := hpair p '/' '/' (cs ++ rest) hp
    rw [List.cons_append, List.cons_append, skip, ih _ hnext, List.length_cons, List.length_cons,
      hadvance]
  | @lineChar c cs hc _ ih =>
    intro p hp
    rw [List.cons_append, skip_line_char hc, ih _ (p.rest_after c _), List.length_cons,
      Cursor.advance_cons (show p.rest = c :: (cs ++ rest) from hp)]
  | @lineEnd cs _ ih =>
    intro p hp
    rw [List.cons_append, skip, ih _ (p.rest_after _ _), List.length_cons,
      Cursor.advance_cons (show p.rest = '\n' :: (cs ++ rest) from hp)]
  | @blockOpen cs _ ih =>
    intro p hp
    obtain ⟨hnext, hadvance⟩ := hpair p '/' '*' (cs ++ rest) hp
    rw [List.cons_append, List.cons_append, skip, ih p _ hnext, List.length_cons, List.length_cons,
      hadvance]
  | @blockChar origin c cs hc h ih =>
    intro p hp
    have hc' : ¬(c = '*' ∧ (cs ++ rest).head? = some '/') := by
      rintro ⟨hstar, hhead⟩
      cases h <;> simp_all
    rw [List.cons_append, skip_block_char hc', ih _ (p.rest_after c _), List.length_cons,
      Cursor.advance_cons (show p.rest = c :: (cs ++ rest) from hp)]
  | @blockEnd origin cs _ ih =>
    intro p hp
    obtain ⟨hnext, hadvance⟩ := hpair p '*' '/' (cs ++ rest) hp
    rw [List.cons_append, List.cons_append, skip, ih _ hnext, List.length_cons, List.length_cons,
      hadvance]

/-- **Passing over a gap** leads exactly behind it. -/
theorem skip_of_fills {g : Gap} {cs : List Char} (h : Fills g cs) {rest : List Char}
    (hrest : opensGap rest = false) (p : Cursor) (hp : p.rest = cs ++ rest) :
    skip g (cs ++ rest) p = .ok (p.advance cs.length) := by
  rw [skip_fills h rest p hp, skip_of_not_opensGap hrest]

/-- **What is passed over is a gap**, or all that was left. -/
theorem skip_cases {g : Gap} {cs : List Char} {p q : Cursor} (hp : p.rest = cs)
    (h : skip g cs p = .ok q) :
    ∃ gap, cs = gap ++ q.rest ∧ q = p.advance gap.length ∧ opensGap q.rest = false ∧
      (Fills g gap ∨ q.rest = []) := by
  -- one character more before what has been passed over
  have hmore : ∀ {p : Cursor} {c : Char} {cs gap : List Char}, p.rest = c :: cs →
      q = (p.after c cs).advance gap.length → q = p.advance (c :: gap).length := by
    intro p c cs gap hp hq
    rw [hq, List.length_cons, Cursor.advance_cons hp]
  fun_induction skip g cs p with
  | case1 p =>
    cases h
    exact ⟨[], by rw [hp]; rfl, rfl, by rw [hp]; rfl, .inl .done⟩
  | case2 cs p ih =>
    obtain ⟨gap, hcs, hq, hopens, hfills⟩ := ih (Cursor.rest_after _ _ _) h
    refine ⟨'/' :: '/' :: gap, by rw [hcs]; rfl, hmore hp (hmore (Cursor.rest_after _ _ _) hq),
      hopens, hfills.imp .lineOpen id⟩
  | case3 cs p ih =>
    obtain ⟨gap, hcs, hq, hopens, hfills⟩ := ih (Cursor.rest_after _ _ _) h
    refine ⟨'/' :: '*' :: gap, by rw [hcs]; rfl, hmore hp (hmore (Cursor.rest_after _ _ _) hq),
      hopens, hfills.imp (fun hfills => .blockOpen fun _ => hfills.block) id⟩
  | case4 c cs p _ _ hc ih =>
    obtain ⟨gap, hcs, hq, hopens, hfills⟩ := ih (Cursor.rest_after _ _ _) h
    exact ⟨c :: gap, by rw [hcs]; rfl, hmore hp hq, hopens, hfills.imp (.blank hc) id⟩
  | case5 c cs p hline hblock hc =>
    cases h
    refine ⟨[], hp.symm, rfl, ?_, .inl .done⟩
    rw [hp, opensGap]
    · simpa using hc
    · rintro ds rfl rfl
      exact hline ds rfl rfl
    · rintro ds rfl rfl
      exact hblock ds rfl rfl
  | case6 p =>
    cases h
    exact ⟨[], by rw [hp]; rfl, rfl, by rw [hp]; rfl, .inr hp⟩
  | case7 cs p ih =>
    obtain ⟨gap, hcs, hq, hopens, hfills⟩ := ih (Cursor.rest_after _ _ _) h
    exact ⟨'\n' :: gap, by rw [hcs]; rfl, hmore hp hq, hopens, hfills.imp .lineEnd id⟩
  | case8 c cs p hc ih =>
    obtain ⟨gap, hcs, hq, hopens, hfills⟩ := ih (Cursor.rest_after _ _ _) h
    exact ⟨c :: gap, by rw [hcs]; rfl, hmore hp hq, hopens, hfills.imp (.lineChar hc) id⟩
  | case9 => cases h
  | case10 origin cs p ih =>
    obtain ⟨gap, hcs, hq, hopens, hfills⟩ := ih (Cursor.rest_after _ _ _) h
    refine ⟨'*' :: '/' :: gap, by rw [hcs]; rfl, hmore hp (hmore (Cursor.rest_after _ _ _) hq),
      hopens, hfills.imp .blockEnd id⟩
  | case11 origin c cs p hend ih =>
    obtain ⟨gap, hcs, hq, hopens, hfills⟩ := ih (Cursor.rest_after _ _ _) h
    refine ⟨c :: gap, by rw [hcs]; rfl, hmore hp hq, hopens, hfills.imp (.blockChar ?_) id⟩
    rintro ⟨hstar, hhead⟩
    obtain ⟨rest, rfl⟩ := List.head?_eq_some_iff.mp hhead
    exact hend (rest ++ q.rest) hstar hcs

end Gap

end Yini
