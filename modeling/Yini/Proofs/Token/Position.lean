import Yini.Proofs.Grammar.Tape
import Yini.Proofs.Token.Joining

/-!
Where lexemes stand.

A cursor behind some characters of a source is known from them alone: `Cursor.behind` counts their bytes,
their line breaks, and the characters since the last line break.  So a source that is cut into lexemes is
written in words, and each lexeme is its word in place (`Word.lexeme`, `Lexeme.eq_of_read`).  All else is
read off that: the order of the lexemes, the gaps between them, and that each can be cut out of the source
and read alone (`Lexeme.describes_of_read`).
-/

namespace Yini

variable {file : Option String} {before cs : List Char} {ws : List Word}

/-! ## Lines and columns -/

/-- The line that some characters end in. -/
def lineAfter (before : List Char) : Nat := 1 + before.count '\n'

/-- The column behind some characters. -/
def columnAfter (before : List Char) : Nat := 1 + (before.reverse.takeWhile (· ≠ '\n')).length

/-- A line break, and nothing else, leads to the next line. -/
theorem lineAfter_concat (before : List Char) (c : Char) :
    lineAfter (before ++ [c]) = lineAfter before + if c = '\n' then 1 else 0 := by
  rw [lineAfter, lineAfter, List.count_append, List.count_singleton, Nat.add_assoc]
  simp only [beq_iff_eq]

/-- A line break leads to the first column, and any other character one column further. -/
theorem columnAfter_concat (before : List Char) (c : Char) :
    columnAfter (before ++ [c]) = if c = '\n' then 1 else columnAfter before + 1 := by
  rw [columnAfter, List.reverse_append, List.reverse_singleton, List.singleton_append,
    List.takeWhile_cons]
  by_cases hc : c = '\n'
  · simp [hc]
  · simp [hc, columnAfter, Nat.add_assoc]

/-- The line is known from the number of line breaks. -/
theorem lineAfter_append (before cs : List Char) :
    lineAfter (before ++ cs) = lineAfter before + cs.count '\n' := by
  rw [lineAfter, lineAfter, List.count_append, Nat.add_assoc]

/-- Characters without a line break lead as many columns further. -/
theorem columnAfter_append (before : List Char) {cs : List Char} (h : '\n' ∉ cs) :
    columnAfter (before ++ cs) = columnAfter before + cs.length := by
  induction cs generalizing before with
  | nil => rw [List.append_nil, List.length_nil, Nat.add_zero]
  | cons c cs ih =>
    have hc : c ≠ '\n' := fun he => h (he ▸ List.mem_cons_self)
    have hcs : '\n' ∉ cs := fun hmem => h (List.mem_cons_of_mem _ hmem)
    have hconcat : before ++ c :: cs = before ++ [c] ++ cs := by rw [List.append_assoc]; rfl
    rw [hconcat, ih _ hcs, columnAfter_concat, if_neg hc, List.length_cons]
    omega

namespace Cursor

/-- The cursor between two parts of a source. -/
def behind (before rest : List Char) : Cursor :=
  ⟨rest, bytes before, lineAfter before, columnAfter before⟩

/-- A cursor behind some characters that passes one more is behind all of these. -/
theorem after_behind (before rest : List Char) (c : Char) :
    (behind before (c :: rest)).after c rest = behind (before ++ [c]) rest := by
  rw [behind, behind, lineAfter_concat, columnAfter_concat, bytes_append, after]
  by_cases hc : c = '\n'
  · rw [if_pos hc, if_pos hc, if_pos hc]
    rfl
  · rw [if_neg hc, if_neg hc, if_neg hc]
    rfl

/-- **Where a cursor gets to** is known from the characters that it has passed over. -/
theorem advance_behind (before cs rest : List Char) :
    (behind before (cs ++ rest)).advance cs.length = behind (before ++ cs) rest := by
  induction cs generalizing before with
  | nil => rw [List.append_nil]; rfl
  | cons c cs ih =>
    have hrest : (behind before (c :: cs ++ rest)).rest = c :: (cs ++ rest) := rfl
    rw [List.length_cons, advance_cons hrest, List.cons_append, after_behind, ih, List.append_assoc]
    rfl

end Cursor

/-! ## Words in place -/

theorem written_cons_chars (w : Word) (ws : List Word) :
    written (w :: ws) = w.chars ++ written ws := List.flatMap_cons

/-- The lexeme of a word that stands behind some characters. -/
def Word.lexeme (before : List Char) (w : Word) : Lexeme :=
  ⟨w.token, lineAfter (before ++ w.gap), columnAfter (before ++ w.gap), bytes (before ++ w.gap),
    bytes (before ++ w.chars)⟩

/-- The lexemes of words behind some characters. -/
def lexemesOf (before : List Char) : List Word → List Lexeme
  | [] => []
  | w :: ws => w.lexeme before :: lexemesOf (before ++ w.chars) ws

/-- The end of a source as a lexeme. -/
def finishOf (source : List Char) : Lexeme :=
  ⟨.finish, lineAfter source, columnAfter source, bytes source, bytes source⟩

/-- Every word is one lexeme. -/
theorem length_lexemesOf (before : List Char) (ws : List Word) :
    (lexemesOf before ws).length = ws.length := by
  induction ws generalizing before with
  | nil => rfl
  | cons w ws ih => rw [lexemesOf, List.length_cons, List.length_cons, ih]

/-- A lexeme is a word behind what is written before it. -/
theorem mem_lexemesOf {l : Lexeme} (h : l ∈ lexemesOf before ws) :
    ∃ front w rest, ws = front ++ w :: rest ∧ l = w.lexeme (before ++ written front) := by
  induction ws generalizing before with
  | nil => cases h
  | cons w ws ih =>
    rcases List.mem_cons.mp h with rfl | h
    · exact ⟨[], w, ws, rfl, by rw [written_nil, List.append_nil]⟩
    · obtain ⟨front, w', rest, rfl, rfl⟩ := ih h
      exact ⟨w :: front, w', rest, rfl, by rw [written_cons_chars, List.append_assoc]⟩

/-- What holds of a word in place and of every one behind it, holds of all lexemes in their order. -/
theorem pairwise_lexemesOf {R : Lexeme → Lexeme → Prop} {ws : List Word} (before : List Char)
    (h : ∀ w ∈ ws, ∀ before mid (w' : Word), R (w.lexeme before) (w'.lexeme (before ++ w.chars ++ mid))) :
    (lexemesOf before ws).Pairwise R := by
  induction ws generalizing before with
  | nil => exact .nil
  | cons w ws ih =>
    refine .cons (fun l hl => ?_) (ih _ fun w hw => h w (List.mem_cons_of_mem _ hw))
    obtain ⟨front, w', rest, -, rfl⟩ := mem_lexemesOf hl
    exact h w List.mem_cons_self before (written front) w'

/-- Where the lexeme before one with a certain number ends. -/
theorem stop_of_getElem? {i stop : Nat}
    (h : (bytes before :: (lexemesOf before ws).map Lexeme.stop)[i]? = some stop) :
    stop = bytes (before ++ written (ws.take i)) := by
  induction i generalizing before ws with
  | zero =>
    cases h
    rw [List.take_zero, written_nil, List.append_nil]
  | succ i ih =>
    cases ws with
    | nil => cases h
    | cons w ws =>
      rw [List.take_succ_cons, written_cons_chars, ← List.append_assoc]
      exact ih h

/-- The lexeme with a certain number is the word with that number in place. -/
theorem lexeme_of_getElem? {i : Nat} {l : Lexeme} (h : (lexemesOf before ws)[i]? = some l) :
    ∃ w rest, ws = ws.take i ++ w :: rest ∧ l = w.lexeme (before ++ written (ws.take i)) := by
  induction ws generalizing before i with
  | nil => cases h
  | cons w ws ih =>
    cases i with
    | zero =>
      cases h
      exact ⟨w, ws, rfl, by rw [List.take_zero, written_nil, List.append_nil]⟩
    | succ i =>
      obtain ⟨w', rest, hws, rfl⟩ := ih h
      refine ⟨w', rest, ?_, ?_⟩
      · rw [List.take_succ_cons, List.cons_append, ← hws]
      · rw [List.take_succ_cons, written_cons_chars, List.append_assoc]

/-- The next word is read, in its place. -/
theorem Cursor.next_word {w : Word} {rest : List Char} (hw : w.Before rest) (file : Option String)
    (before : List Char) : (behind before (w.chars ++ rest)).next file =
      (.ok (w.lexeme before), behind (before ++ w.chars) rest) := by
  have hrest : (behind before (w.chars ++ rest)).rest = w.gap ++ (w.text ++ rest) :=
    List.append_assoc _ _ _
  have hgap : (behind before (w.chars ++ rest)).advance w.gap.length =
      behind (before ++ w.gap) (w.text ++ rest) := by
    rw [Word.chars, List.append_assoc]
    exact advance_behind _ _ _
  rw [next_eq_of_word file hrest hw, hgap, advance_behind, List.append_assoc]
  rfl

/-- The next lexeme is the next word in place. -/
theorem Cursor.next_behind {q : Cursor} {l : Lexeme}
    (h : (behind before cs).next file = (.ok l, q)) (hl : l.token ≠ .finish) :
    ∃ (w : Word) (rest : List Char), cs = w.chars ++ rest ∧ w.Before rest ∧ l = w.lexeme before ∧
      q = behind (before ++ w.chars) rest := by
  obtain ⟨w, hcs, hw, -⟩ := next_cases h hl
  have hcs : cs = w.chars ++ q.rest := hcs.trans (List.append_assoc _ _ _).symm
  have hnext := next_word hw file before
  rw [← hcs, h] at hnext
  obtain ⟨hl, hq⟩ := Prod.mk.inj hnext
  exact ⟨w, q.rest, hcs, hw, Except.ok.inj hl, hq⟩

/-- Where the end of the source is found, nothing but a gap is left. -/
theorem Cursor.finish_behind {q : Cursor} {l : Lexeme}
    (h : (behind before cs).next file = (.ok l, q)) (hl : l.token = .finish) :
    Gap.Fills .blank (cs ++ ['\n']) ∧ l = finishOf (before ++ cs) := by
  unfold next at h
  split at h
  next => cases h
  next p' hskip =>
    split at h
    next token count hscan =>
      cases h
      obtain rfl : token = .finish := hl
      have hnil := Token.eq_nil_of_scan hscan
      obtain ⟨gap, hcs, rfl, -⟩ := Gap.skip_cases rfl hskip
      have hcs : cs = gap ++ [] := by rw [← hnil]; exact hcs
      have hp : (behind before cs).advance gap.length = behind (before ++ gap) [] := by
        rw [hcs]
        exact advance_behind _ _ _
      obtain rfl : count = 0 := by
        rw [hnil] at hscan
        cases hscan
        rfl
      refine ⟨Gap.fills_of_skip_nil hskip hnil rfl, ?_⟩
      rw [hp, hcs, List.append_nil]
      rfl
    next => cases h
    next => cases h

namespace Lexeme

/-- **What is read from some place on** are words in place; the lexemes that were read before stay in front.
    The induction is on the reading, and the words before the cursor say where it stands. -/
theorem eq_of_readFrom {p : Cursor} {early ls : List Lexeme} {finish : Lexeme}
    (h : readFrom file p early = .ok (ls, finish)) (hp : p = .behind before cs) :
    ∃ ws last, cs = written ws ++ last ∧ Cut ws last ∧ Gap.Fills .blank (last ++ ['\n']) ∧
      ls = early.reverse ++ lexemesOf before ws ∧ finish = finishOf (before ++ cs) := by
  fun_induction readFrom file p early generalizing before cs with
  | case1 p early fault q hnext => cases h
  | case2 p early l q hnext hl =>
    cases h
    subst hp
    obtain ⟨hfills, rfl⟩ := Cursor.finish_behind hnext hl
    exact ⟨[], cs, rfl, trivial, hfills, (List.append_nil _).symm, rfl⟩
  | case3 p early l q hnext hl ih =>
    subst hp
    obtain ⟨w, rest, rfl, hw, rfl, hq⟩ := Cursor.next_behind hnext hl
    obtain ⟨ws, last, rfl, hcut, hfills, rfl, rfl⟩ := ih h hq
    refine ⟨w :: ws, last, ?_, ⟨hw, hcut⟩, hfills, ?_, ?_⟩
    · simp only [written_cons, Word.chars, List.append_assoc]
    · rw [List.reverse_cons, List.append_assoc]
      rfl
    · rw [List.append_assoc]

/-- **The lexemes of a source** are the words that it is written in, each in its place. -/
theorem eq_of_read {source : String} {ls : List Lexeme} {finish : Lexeme}
    (h : read file source = .ok (ls, finish)) :
    ∃ ws last, source.toList = written ws ++ last ∧ Cut ws last ∧ Gap.Fills .blank (last ++ ['\n']) ∧
      ls = lexemesOf [] ws ∧ finish = finishOf source.toList :=
  eq_of_readFrom h rfl

/-- Words are read one after the other, each in its place. -/
theorem readFrom_written (file : Option String) (hcut : Cut ws []) (early : List Lexeme) :
    readFrom file (.behind before (written ws)) early =
      .ok (early.reverse ++ lexemesOf before ws, finishOf (before ++ written ws)) := by
  induction ws generalizing before early with
  | nil =>
    have hnext : (Cursor.behind before []).next file = (.ok (finishOf before), .behind before []) := rfl
    rw [written_nil, readFrom_finish hnext rfl, lexemesOf, List.append_nil, List.append_nil]
  | cons w ws ih =>
    have hw : w.Before (written ws) := by
      have hfirst := hcut.1
      rwa [List.append_nil] at hfirst
    have hl : (w.lexeme before).token ≠ .finish := hw.spells.ne_finish
    rw [written_cons_chars, readFrom_cons (Cursor.next_word hw file before) hl, ih hcut.2, List.reverse_cons,
      List.append_assoc, List.append_assoc]
    rfl

end Lexeme

/-! ## What lexemes say about a source -/

/-- **Lexemes describe a source**, up to its end. -/
structure Describes (source : List Char) (ls : List Lexeme) (finish : Lexeme) : Prop where
  /-- The end covers nothing, and stands behind the last byte. -/
  ends : finish.token = .finish ∧ finish.start = bytes source ∧ finish.stop = bytes source
  /-- No other lexeme is the end, and each covers something. -/
  inner : ∀ l ∈ ls, l.token ≠ .finish ∧ l.start < l.stop
  /-- The ranges are in order and do not overlap. -/
  apart : (ls ++ [finish]).Pairwise fun (l l' : Lexeme) => l.stop ≤ l'.start
  /-- The characters before a lexeme give its line and its column. -/
  place : ∀ l ∈ ls ++ [finish], ∃ before, slice? 0 l.start source = some before ∧
    l.line = lineAfter before ∧ l.column = columnAfter before
  /-- White space and comments stand before the first lexeme and between neighbours.  A comment up to
      the end of its line may end with the source. -/
  gaps : ∀ (i stop : Nat) (l : Lexeme), (0 :: ls.map Lexeme.stop)[i]? = some stop →
    (ls ++ [finish])[i]? = some l → ∃ gap, slice? stop l.start source = some gap ∧
      (Gap.Fills .blank gap ∨ l = finish ∧ Gap.Fills .blank (gap ++ ['\n']))
  /-- The characters that a lexeme covers are read to the same token and the end. -/
  alone : ∀ l ∈ ls, ∃ text, slice? l.start l.stop source = some text ∧ ∀ file,
    Lexeme.read file (String.ofList text) =
      .ok ([⟨l.token, 1, 1, 0, l.stop - l.start⟩], finishOf text)

/-- A word is read alone. -/
theorem Lexeme.read_word {w : Word} {rest : List Char} (hw : w.Before rest) (file : Option String) :
    read file (String.ofList w.text) = .ok ([⟨w.token, 1, 1, 0, bytes w.text⟩], finishOf w.text) := by
  have hstarts : opensGap (w.text ++ ([] ++ rest)) = false := hw.starts
  have hspells : Token.Spells w.text w.token ([] ++ rest) := hw.spells
  have halone : Cut [⟨[], w.token, w.text⟩] [] := by
    refine ⟨⟨.done, ?_, ?_⟩, trivial⟩
    · exact not_opensGap_quiet hw.spells.ne_nil hstarts quiet_nil
    · exact hspells.quiet quiet_nil
  have hread : readFrom file (.behind [] (written [⟨[], w.token, w.text⟩])) [] = _ :=
    readFrom_written file halone []
  rw [written_cons_chars, written_nil, List.append_nil] at hread
  rw [read, String.toList_ofList]
  exact hread

theorem bytes_pos {cs : List Char} (h : cs ≠ []) : 0 < bytes cs := by
  obtain ⟨c, cs, rfl⟩ := List.exists_cons_of_ne_nil h
  exact Nat.add_pos_left c.utf8Size_pos _

/-- The first part of a text can be cut out of it. -/
theorem slice?_before (before behind : List Char) :
    slice? 0 (bytes before) (before ++ behind) = some before :=
  slice?_append [] before behind

/-- The lexeme is the word in place, with so much of the source before it and behind it. -/
structure Word.InPlace (source : List Char) (w : Word) (before rest : List Char) (l : Lexeme) : Prop where
  reads : w.Before rest
  lexeme : l = w.lexeme before
  source : source = before ++ (w.gap ++ (w.text ++ rest))

namespace Word.InPlace

variable {source rest last : List Char} {w : Word} {l : Lexeme}

theorem start_eq (h : w.InPlace source before rest l) : l.start = bytes (before ++ w.gap) := by
  rw [h.lexeme]
  rfl

theorem stop_eq (h : w.InPlace source before rest l) : l.stop = bytes (before ++ w.gap ++ w.text) := by
  rw [h.lexeme, List.append_assoc]
  rfl

theorem start_lt_stop (h : w.InPlace source before rest l) : l.start < l.stop := by
  have hpos : 0 < bytes w.text := bytes_pos h.reads.spells.ne_nil
  rw [h.start_eq, h.stop_eq, bytes_append (before ++ w.gap)]
  omega

theorem stop_le (h : w.InPlace source before rest l) : l.stop ≤ bytes source := by
  rw [h.stop_eq, h.source, ← List.append_assoc, ← List.append_assoc, bytes_append _ rest]
  omega

/-- The gap ends where the lexeme begins. -/
theorem slice?_gap (h : w.InPlace source before rest l) :
    slice? (bytes before) l.start source = some w.gap := by
  rw [h.start_eq, h.source]
  exact slice?_append _ _ _

/-- What stands before a lexeme can be cut out of the source. -/
theorem slice?_front (h : w.InPlace source before rest l) :
    slice? 0 l.start source = some (before ++ w.gap) := by
  rw [h.start_eq, h.source, ← List.append_assoc]
  exact slice?_before _ _

/-- **A lexeme can be cut out of the source**, and its text is that of the word. -/
theorem slice?_text (h : w.InPlace source before rest l) :
    slice? l.start l.stop source = some w.text := by
  rw [h.start_eq, h.stop_eq, h.source, ← List.append_assoc]
  exact slice?_append _ _ _

/-- The lexeme is the word read alone, at another place. -/
theorem read_text (h : w.InPlace source before rest l) (file : Option String) :
    Lexeme.read file (String.ofList w.text) =
      .ok ([⟨l.token, 1, 1, 0, l.stop - l.start⟩], finishOf w.text) := by
  have hlength : l.stop - l.start = bytes w.text := by
    rw [h.start_eq, h.stop_eq, bytes_append _ w.text, Nat.add_sub_cancel_left]
  rw [hlength, h.lexeme]
  exact Lexeme.read_word h.reads file

end Word.InPlace

namespace Lexeme

variable {source last : List Char} {l : Lexeme}

/-- Every lexeme of a source has its word in place there. -/
theorem exists_inPlace (hsource : source = written ws ++ last) (hcut : Cut ws last)
    (hl : l ∈ lexemesOf [] ws) : ∃ (w : Word) (before rest : List Char), w.InPlace source before rest l := by
  obtain ⟨front, w, rest, rfl, rfl⟩ := mem_lexemesOf hl
  refine ⟨w, written front, written rest ++ last, (cut_append.mp hcut).2.1, rfl, ?_⟩
  rw [hsource, written_append, written_cons]
  simp only [List.append_assoc]

/-- The lexeme with a certain number stands behind the words before it. -/
theorem inPlace_of_getElem? (hsource : source = written ws ++ last) (hcut : Cut ws last) {i : Nat}
    (hl : (lexemesOf [] ws)[i]? = some l) :
    ∃ (w : Word) (rest : List Char), w.InPlace source (written (ws.take i)) rest l := by
  obtain ⟨w, rest, hws, rfl⟩ := lexeme_of_getElem? hl
  have hwords := hcut
  rw [hws] at hwords
  refine ⟨w, written rest ++ last, (cut_append.mp hwords).2.1, rfl, ?_⟩
  rw [hsource, hws, written_append, written_cons, ← hws]
  simp only [List.append_assoc]

/-- **Lexemes stand apart, in their order**: each stops before the next ones start. -/
theorem apart_lexemesOf (hsource : source = written ws ++ last) (hcut : Cut ws last) :
    (lexemesOf [] ws ++ [finishOf source]).Pairwise fun (l l' : Lexeme) => l.stop ≤ l'.start := by
  refine List.pairwise_append.mpr ⟨pairwise_lexemesOf [] ?_, List.pairwise_singleton _ _, ?_⟩
  · intro w _ before mid w'
    show bytes (before ++ w.chars) ≤ bytes (before ++ w.chars ++ mid ++ w'.gap)
    rw [bytes_append _ w'.gap, bytes_append _ mid]
    omega
  · intro l hl finish hfinish
    obtain ⟨w, before, rest, hplace⟩ := exists_inPlace hsource hcut hl
    rw [List.mem_singleton.mp hfinish]
    exact hplace.stop_le

/-- Between two neighbours stands the gap of the second one, and behind the last one what is left. -/
theorem gap_of_getElem? (hsource : source = written ws ++ last) (hcut : Cut ws last)
    (hfills : Gap.Fills .blank (last ++ ['\n'])) {i stop : Nat}
    (hstop : (0 :: (lexemesOf [] ws).map Lexeme.stop)[i]? = some stop)
    (hl : (lexemesOf [] ws ++ [finishOf source])[i]? = some l) :
    ∃ gap, slice? stop l.start source = some gap ∧
      (Gap.Fills .blank gap ∨ l = finishOf source ∧ Gap.Fills .blank (gap ++ ['\n'])) := by
  have hstops : (bytes [] :: (lexemesOf [] ws).map Lexeme.stop)[i]? = some stop := hstop
  obtain rfl : stop = bytes (written (ws.take i)) := stop_of_getElem? hstops
  rcases Nat.lt_or_ge i (lexemesOf [] ws).length with hi | hi
  · rw [List.getElem?_append_left hi] at hl
    obtain ⟨w, rest, hplace⟩ := inPlace_of_getElem? hsource hcut hl
    exact ⟨w.gap, hplace.slice?_gap, .inl hplace.reads.gap⟩
  · rw [List.getElem?_append_right hi] at hl
    obtain rfl := List.mem_singleton.mp (List.mem_of_getElem? hl)
    rw [length_lexemesOf] at hi
    rw [List.take_of_length_le hi]
    refine ⟨last, ?_, .inr ⟨rfl, hfills⟩⟩
    show slice? (bytes (written ws)) (bytes source) source = some last
    have hslice := slice?_append (written ws) last []
    rwa [List.append_nil, ← hsource] at hslice

end Lexeme

/-- **The positions of lexemes** describe the source that they are read from. -/
theorem Lexeme.describes_of_read {source : String} {ls : List Lexeme} {finish : Lexeme}
    (h : read file source = .ok (ls, finish)) : Describes source.toList ls finish := by
  obtain ⟨ws, last, hsource, hcut, hfills, rfl, rfl⟩ := eq_of_read h
  have hplaced := fun l => exists_inPlace (l := l) hsource hcut
  refine ⟨⟨rfl, rfl, rfl⟩, fun l hl => ?_, apart_lexemesOf hsource hcut, fun l hl => ?_,
    fun i stop l => gap_of_getElem? hsource hcut hfills, fun l hl => ?_⟩
  · obtain ⟨w, before, rest, hplace⟩ := hplaced l hl
    refine ⟨?_, hplace.start_lt_stop⟩
    rw [hplace.lexeme]
    exact hplace.reads.spells.ne_finish
  · rcases List.mem_append.mp hl with hl | hl
    · obtain ⟨w, before, rest, hplace⟩ := hplaced l hl
      refine ⟨before ++ w.gap, hplace.slice?_front, ?_⟩
      rw [hplace.lexeme]
      exact ⟨rfl, rfl⟩
    · rw [List.mem_singleton.mp hl]
      refine ⟨source.toList, ?_, rfl, rfl⟩
      have hwhole := slice?_before source.toList []
      rwa [List.append_nil] at hwhole
  · obtain ⟨w, before, rest, hplace⟩ := hplaced l hl
    exact ⟨w.text, hplace.slice?_text, hplace.read_text⟩

/-- A source with a text in quotes over two lines, characters of several bytes, and comments of both
    kinds, the last of them without the end of its line. -/
def commentedText : String := "/* é */ ä+=\"\\n\n\"// x\n1.5.x // end"

/-- A text of several lines with both kinds of comments. -/
theorem Lexeme.describes_of_read_commentedText : ∃ ls finish,
    read none commentedText = .ok (ls, finish) ∧ Describes commentedText.toList ls finish := by
  have hread : (read none commentedText).toOption.isSome := by decide +kernel
  obtain ⟨r, hr⟩ := Option.isSome_iff_exists.mp hread
  have h := eq_ok_of_toOption hr
  exact ⟨r.1, r.2, h, describes_of_read h⟩

end Yini
