import Yini.Proofs.Grammar.Factor
import Yini.Proofs.Grammar.Origin
import Yini.Proofs.Place
import Yini.Proofs.Token.Joining

/-!
Reading a text inside a larger one.

`Parser.Inside` relates a parser that reads a text to one that reads the same text where other lines stand
above it and a section follows below it.  A rule of the grammar `Carries` over to the larger text if it
ends there with the same result, further down, whenever it ends at all in the text alone.  The two
runs see different tokens only at the end of the text, where the one sees the end and the other perhaps
the bracket of the next section; no rule goes on at either of them.  Every repetition has enough rounds in
both runs, because each round takes a lexeme; so `Carries` counts those that are left.
-/

namespace Yini

/-- A text, and what stands around it in a larger one. -/
structure Margin where
  file : Option String
  text : List Char
  above : List Char
  /-- The number of lines above. -/
  lines : Nat
  below : List Char
  /-- The lexemes below. -/
  more : List Lexeme

/-- The position in the larger text. -/
def Margin.place (k : Margin) : Span → Span := Span.down k.lines

/-! ## Cutting characters by their bytes -/

/-- Dropping the text above and some bytes more is dropping these bytes of the text itself. -/
theorem dropBytes_above (above cs : List Char) (n : Nat) :
    dropBytes (bytes above + n) (above ++ cs) = dropBytes n cs := by
  induction above with
  | nil => rw [bytes_nil, Nat.zero_add, List.nil_append]
  | cons c above ih =>
    have hpos := c.utf8Size_pos
    rw [List.cons_append, bytes_cons, dropBytes]
    · rw [← ih]
      congr 1
      omega
    · omega

/-- What is taken off the front does not depend on the text below. -/
theorem takeBytes_below {cs : List Char} {n : Nat} (h : n ≤ bytes cs) (below : List Char) :
    takeBytes n (cs ++ below) = takeBytes n cs := by
  induction cs generalizing n with
  | nil =>
    rw [bytes_nil, Nat.le_zero] at h
    subst h
    cases below <;> rfl
  | cons c cs ih =>
    cases n with
    | zero => rfl
    | succ n =>
      rw [bytes_cons] at h
      rw [List.cons_append, takeBytes, takeBytes, ih]
      · omega
      · exact Nat.succ_ne_zero n
      · exact Nat.succ_ne_zero n

/-- A piece of a text is cut out of a larger one in the same way. -/
theorem slice_inside {cs : List Char} {start stop : Nat} (hstart : ∃ x y, cs = x ++ y ∧ start = bytes x)
    (hstop : stop ≤ bytes cs) (above below : List Char) :
    takeBytes (stop + bytes above - (start + bytes above))
        (dropBytes (start + bytes above) (above ++ (cs ++ below))) =
      takeBytes (stop - start) (dropBytes start cs) := by
  obtain ⟨x, y, rfl, rfl⟩ := hstart
  rw [bytes_append] at hstop
  have hlength : stop - bytes x ≤ bytes y := by omega
  rw [Nat.add_sub_add_right, Nat.add_comm _ (bytes above), dropBytes_above, List.append_assoc,
    dropBytes_append, dropBytes_append, takeBytes_below hlength]

/-! ## Two parsers -/

namespace Parser

/-- **The second parser reads the text of the first one inside a larger text.** -/
structure Inside (k : Margin) (p p' : Parser) : Prop where
  faces : ∃ scene ws, p.Faces scene ws
  file : p.file = k.file
  sameFile : p'.file = k.file
  text : p.source = k.text
  source : p'.source = k.above ++ (k.text ++ k.below)
  rest : p'.rest = p.rest.map (Lexeme.down k.lines (bytes k.above)) ++ k.more
  finish : p'.finish.token = .finish
  stop : p'.lastStop = p.lastStop + bytes k.above
  mode : p'.schemaMode = p.schemaMode
  /-- A section follows, and not on the same line. -/
  next : ∀ l ∈ k.more.head?, l.token = .mark .openBracket ∧ bytes k.text + bytes k.above < l.start

variable {k : Margin} {p p' : Parser}

/-- The lexeme at the end of the text alone is the end. -/
theorem Inside.end_token (h : p.Inside k p') : p.finish.token = .finish := by
  obtain ⟨scene, ws, hfaces⟩ := h.faces
  exact hfaces.finish

/-- Where a lexeme is left, the other parser has the same one, further down. -/
theorem Inside.current (h : p.Inside k p') (hp : p.rest ≠ []) :
    p'.current = p.current.down k.lines (bytes k.above) := by
  obtain ⟨l, ls, hrest⟩ := List.exists_cons_of_ne_nil hp
  rw [Parser.current, h.rest, Parser.current, hrest]
  rfl

/-- Inside the text both runs see the same token. -/
theorem Inside.token (h : p.Inside k p') (hp : p.rest ≠ []) : p'.current.token = p.current.token := by
  rw [h.current hp]
  rfl

/-- Inside the text a lexeme starts behind the text above, where it starts in the text alone. -/
theorem Inside.start_eq (h : p.Inside k p') (hp : p.rest ≠ []) :
    p'.current.start = p.current.start + bytes k.above := by
  rw [h.current hp]
  rfl

/-- The lexeme that was taken last ends inside the text. -/
theorem Inside.lastStop_le (h : p.Inside k p') : p.lastStop ≤ bytes k.text := by
  obtain ⟨scene, ws, hfaces⟩ := h.faces
  obtain ⟨before, hsource, hbefore⟩ := hfaces.place
  rw [← h.text, hfaces.source, hsource, hbefore, bytes_append]
  exact Nat.le_add_right _ _

/-- A lexeme that is left begins in front of a character. -/
theorem Inside.start (h : p.Inside k p') (hp : p.rest ≠ []) :
    ∃ x y, k.text = x ++ y ∧ p.current.start = bytes x := by
  obtain ⟨scene, ws, hfaces⟩ := h.faces
  obtain ⟨before, hsource, hbefore⟩ := hfaces.place
  cases ws with
  | nil => exact absurd hfaces.rest_nil hp
  | cons w ws =>
    obtain ⟨l, ls, hrest, -, hstart, -⟩ := hfaces.lexeme
    refine ⟨before ++ w.gap, w.text ++ (written ws ++ scene.last), ?_, ?_⟩
    · rw [← h.text, hfaces.source, hsource, written_cons]
      simp only [List.append_assoc]
    · rw [Parser.current, hrest, hstart, hbefore, bytes_append]

/-- Where the text alone sees the end, nothing is left of it. -/
theorem Inside.rest_nil (h : p.Inside k p') (hp : p.current.token = .finish) : p.rest = [] := by
  obtain ⟨scene, ws, hfaces⟩ := h.faces
  exact hfaces.rest_nil_of_finish hp

/-- At the end of the text, the other parser is at the end too, or in front of a section. -/
theorem Inside.current_end (h : p.Inside k p') (hp : p.rest = []) :
    p.current.token = .finish ∧
      (p'.current.token = .finish ∨ p'.current.token = .mark .openBracket ∧ p'.isAdjacent = false) := by
  have hbound := h.lastStop_le
  have hrest := h.rest
  rw [hp, List.map_nil, List.nil_append] at hrest
  refine ⟨?_, ?_⟩
  · rw [Parser.current, hp]
    exact h.end_token
  · cases hmore : k.more with
    | nil =>
      left
      rw [Parser.current, hrest, hmore]
      exact h.finish
    | cons l ls =>
      -- the section below begins behind the text, and the last lexeme ended in the text
      right
      obtain ⟨htoken, hstart⟩ := h.next l (by rw [hmore]; rfl)
      have hcurrent : p'.current = l := by
        rw [Parser.current, hrest, hmore]
      rw [isAdjacent, hcurrent, h.stop]
      refine ⟨htoken, ?_⟩
      simp only [beq_eq_false_iff_ne]
      omega

/-- The parsers take the same lexeme. -/
theorem Inside.advance (h : p.Inside k p') (hp : p.rest ≠ []) : p.advance.Inside k p'.advance := by
  obtain ⟨l, ls, hrest⟩ := List.exists_cons_of_ne_nil hp
  -- the parser of the longer text has the same lexeme in front, further down
  have hrest' : p'.rest = l.down k.lines (bytes k.above) ::
      (ls.map (Lexeme.down k.lines (bytes k.above)) ++ k.more) := by
    rw [h.rest, hrest]
    rfl
  obtain ⟨hls, hstop, hsource, -, hmode, hfile⟩ := advance_of_rest hrest
  obtain ⟨hls', hstop', hsource', hfinish', hmode', hfile'⟩ := advance_of_rest hrest'
  obtain ⟨scene, ws, hfaces⟩ := h.faces
  refine
    { faces := ?faces
      file := hfile.trans h.file
      sameFile := hfile'.trans h.sameFile
      text := hsource.trans h.text
      source := hsource'.trans h.source
      rest := ?rest
      finish := ?finish
      stop := ?stop
      mode := ?mode
      next := h.next }
  case faces =>
    cases ws with
    | nil => exact absurd hfaces.rest_nil hp
    | cons w ws => exact ⟨scene, ws, hfaces.advance⟩
  case rest => rw [hls', hls]
  case finish => rw [hfinish', h.finish]
  case stop =>
    rw [hstop', hstop]
    rfl
  case mode => rw [hmode', hmode, h.mode]

/-- Inside the text both runs see the same gaps. -/
theorem Inside.isAdjacent (h : p.Inside k p') (hp : p.rest ≠ []) : p'.isAdjacent = p.isAdjacent := by
  rw [Parser.isAdjacent, Parser.isAdjacent, h.start_eq hp, h.stop, Bool.eq_iff_iff]
  simp only [beq_iff_eq]
  omega

/-- The lexeme after the next one is the same, or the text ends before it. -/
theorem Inside.second (h : p.Inside k p') (hp : p.rest ≠ []) :
    p'.second = p.second ∨ p.second = .finish ∧ p'.second = .mark .openBracket := by
  obtain ⟨l, ls, hrest⟩ := List.exists_cons_of_ne_nil hp
  have hrest' := h.rest
  rw [hrest] at hrest'
  unfold Parser.second
  rw [hrest, hrest']
  cases ls with
  | cons l' ls => exact .inl rfl
  | nil =>
    cases hmore : k.more with
    | nil => exact .inl (h.finish.trans h.end_token.symm)
    | cons l' ls => exact .inr ⟨h.end_token, (h.next l' (by rw [hmore]; rfl)).1⟩

/-- Behind the next lexeme there is another one, unless the source ends there. -/
theorem advance_rest_ne_nil (hp : p.finish.token = .finish) (hrest : p.rest ≠ [])
    (hsecond : p.second ≠ .finish) : p.advance.rest ≠ [] := by
  intro hnil
  obtain ⟨l, ls, hlexemes⟩ := List.exists_cons_of_ne_nil hrest
  obtain ⟨hls, -⟩ := advance_of_rest hlexemes
  rw [hnil] at hls
  apply hsecond
  rw [Parser.second, hlexemes, ← hls]
  exact hp

/-- Both parsers turn to rules or values. -/
theorem Inside.turn (h : p.Inside k p') (mode : Bool) :
    ({ p with schemaMode := mode } : Parser).Inside k { p' with schemaMode := mode } := by
  obtain ⟨scene, ws, hfaces⟩ := h.faces
  exact ⟨⟨_, ws, hfaces.turn mode⟩, h.file, h.sameFile, h.text, h.source, h.rest, h.finish, h.stop, rfl, h.next⟩

/-- The other parser has the lexemes below left too. -/
theorem Inside.left_eq (h : p.Inside k p') : p'.left = p.left + k.more.length := by
  rw [p.left_eq, p'.left_eq, h.rest, List.length_append, List.length_map]

/-- In the larger text there are at least as many lexemes left. -/
theorem Inside.left_le (h : p.Inside k p') : p.left ≤ p'.left := by
  rw [h.left_eq]
  exact Nat.le_add_right _ _

end Parser

/-! ## Rules that carry over -/

namespace Grammar

variable {α β γ δ : Type} {k : Margin} {m : Nat} {g : α → α} {x x' : Grammar α}

/-- **The rule carries over to the larger text**: where it ends in the text alone, with `m` lexemes left at
    most when it begins, the other rule ends in the larger text, and its result is changed by `g`. -/
def Carries (k : Margin) (m : Nat) (g : α → α) (x x' : Grammar α) : Prop :=
  ∀ p p' a q, p.Inside k p' → p.left ≤ m → x p = .ok a q →
    q.left ≤ p.left ∧ ∃ q', x' p' = .ok (g a) q' ∧ q.Inside k q'

/-- **The rule carries over where a lexeme is left.** -/
def CarriesOn (k : Margin) (m : Nat) (g : α → α) (x x' : Grammar α) : Prop :=
  ∀ p p' a q, p.rest ≠ [] → p.Inside k p' → p.left ≤ m → x p = .ok a q →
    q.left ≤ p.left ∧ ∃ q', x' p' = .ok (g a) q' ∧ q.Inside k q'

/-- A rule that carries over does so in particular where a lexeme is left. -/
theorem Carries.on (h : Carries k m g x x') : CarriesOn k m g x x' := fun p p' a q _ => h p p' a q

/-- The rule fails at the end of a source. -/
def FailsAtEnd (x : Grammar α) : Prop := ∀ p a q, p.current.token = .finish → x p ≠ .ok a q

/-- What begins with a rule that fails at the end fails there. -/
theorem FailsAtEnd.bind (h : FailsAtEnd x) (f : α → Grammar β) : FailsAtEnd (x >>= f) := by
  intro p b q hp hrun
  obtain ⟨a, q₁, ha, -⟩ := bind_eq_ok.mp hrun
  exact h p a q₁ hp ha

/-- Where such a rule gives a result, a lexeme was left. -/
theorem FailsAtEnd.rest_ne_nil (h : FailsAtEnd x) {p p' q : Parser} {a : α} (hp : p.Inside k p')
    (hrun : x p = .ok a q) : p.rest ≠ [] :=
  fun hrest => h p a q (hp.current_end hrest).1 hrun

/-- A rule that fails at the end has nothing to carry over from there. -/
theorem CarriesOn.always (h : CarriesOn k m g x x') (hend : FailsAtEnd x) : Carries k m g x x' :=
  fun p p' a q hp hm hrun => h p p' a q (hend.rest_ne_nil hp hrun) hp hm hrun

/-- **One rule after the other carries over**: the second starts where the first has ended in both runs. -/
theorem Carries.bind {g' : β → β} {f f' : α → Grammar β} (h : Carries k m g x x')
    (hf : ∀ a, Carries k m g' (f a) (f' (g a))) : Carries k m g' (x >>= f) (x' >>= f') := by
  intro p p' b q hp hm hrun
  obtain ⟨a, q₁, ha, hrun⟩ := bind_eq_ok.mp hrun
  obtain ⟨hleft, q₁', ha', hq₁⟩ := h p p' a q₁ hp hm ha
  obtain ⟨hleft', q', hb, hq⟩ := hf a q₁ q₁' b q hq₁ (Nat.le_trans hleft hm) hrun
  exact ⟨Nat.le_trans hleft' hleft, q', by rw [bind_of_ok ha', hb], hq⟩

theorem carries_pure {a a' : α} (h : a' = g a) : Carries k m g (pure a) (pure a') := by
  intro p p' b q hp _ hrun
  cases hrun
  exact ⟨Nat.le_refl _, p', by rw [h]; rfl, hp⟩

/-- A rule that fails carries over to anything. -/
theorem carries_fail {cause : ParseCause} : Carries k m g (fail cause) x' := by
  intro p p' a q _ _ hrun
  cases hrun

theorem carries_fail_bind {cause : ParseCause} {f : β → Grammar α} :
    Carries k m g (fail cause >>= f) x' := by
  intro p p' a q _ _ hrun
  cases hrun

theorem carries_throw {fault : Fault} : Carries k m g (throw fault) x' := by
  intro p p' a q _ _ hrun
  cases hrun

/-! ## Elementary rules -/

section Elementary

variable {g : β → β}

/-- The place of the current lexeme is the same one, further down. -/
theorem carriesOn_here {f f' : Span → Grammar β} (h : ∀ span, CarriesOn k m g (f span) (f' (k.place span))) :
    CarriesOn k m g (here >>= f) (here >>= f') := by
  intro p p' b q hrest hp hm hrun
  have hspan : p'.current.span p'.file = k.place (p.current.span p.file) := by
    rw [hp.current hrest, hp.file, hp.sameFile]
    rfl
  rw [here_bind] at hrun ⊢
  rw [hspan]
  exact h _ p p' b q hrest hp hm hrun

/-- Taking a lexeme leaves one less. -/
theorem carriesOn_bump {f f' : Unit → Grammar β} (h : ∀ n < m, Carries k n g (f ()) (f' ())) :
    CarriesOn k m g (bump >>= f) (bump >>= f') := by
  intro p p' b q hrest hp hm hrun
  have hleft : p.advance.left < p.left := by
    have hpos : 0 < p.left := by
      rw [p.left_eq]
      exact List.length_pos_iff.mpr hrest
    rw [p.left_advance]
    omega
  obtain ⟨hq, hrun'⟩ := h _ (Nat.lt_of_lt_of_le hleft hm) _ _ b q (hp.advance hrest) (Nat.le_refl _) hrun
  exact ⟨Nat.le_trans hq (Nat.le_of_lt hleft), hrun'⟩

/-- Taking two lexemes, where the source does not end behind the first one. -/
theorem carriesOn_bumps {x x' : Grammar β} (h : ∀ n < m, Carries k n g x x') {p p' : Parser} {b : β}
    {q : Parser} (hsecond : p.second ≠ .finish) (hrest : p.rest ≠ []) (hp : p.Inside k p')
    (hm : p.left ≤ m) (hrun : (do bump; bump; x : Grammar β) p = .ok b q) :
    q.left ≤ p.left ∧ ∃ q', (do bump; bump; x' : Grammar β) p' = .ok (g b) q' ∧ q.Inside k q' := by
  have hmore := Parser.advance_rest_ne_nil hp.end_token hrest hsecond
  have hless : p.advance.left ≤ p.left := by
    rw [p.left_advance]
    exact Nat.sub_le _ _
  have hbump : CarriesOn k m g (bump >>= fun _ => x) (bump >>= fun _ => x') := carriesOn_bump h
  obtain ⟨hq, hrun'⟩ := hbump _ _ b q hmore (hp.advance hrest) (Nat.le_trans hless hm) hrun
  exact ⟨Nat.le_trans hq hless, hrun'⟩

/-- The tokens that come next differ only at the end of the text. -/
theorem carries_peek {f f' : Token → Grammar β} (h : ∀ t, CarriesOn k m g (f t) (f' t))
    (hend : ∀ t, t = .finish ∨ t = .mark .openBracket → Carries k m g (f .finish) (f' t)) :
    Carries k m g (peek >>= f) (peek >>= f') := by
  intro p p' b q hp hm hrun
  have hrun : f p.current.token p = .ok b q := hrun
  show _ ∧ ∃ q', f' p'.current.token p' = _ ∧ _
  by_cases hrest : p.rest = []
  · -- the one parser sees the end, and the other perhaps a bracket
    obtain ⟨htoken, htoken'⟩ := hp.current_end hrest
    rw [htoken] at hrun
    exact hend _ (htoken'.imp_right And.left) p p' b q hp hm hrun
  · rw [hp.token hrest]
    exact h _ p p' b q hrest hp hm hrun

/-- A look ahead that sees the same in both texts, and nothing at the end. -/
theorem carries_look (look : Parser → Option String) (f f' : Option String → Grammar β)
    (hlook : ∀ p p', p.Inside k p' → p.rest ≠ [] → look p' = look p)
    (hend : ∀ p p', p.Inside k p' → p.rest = [] → look p = none ∧ look p' = none)
    (hsome : ∀ text p p' b q, look p = some text → p.rest ≠ [] → p.Inside k p' → p.left ≤ m →
      f (some text) p = .ok b q →
      q.left ≤ p.left ∧ ∃ q', f' (some text) p' = .ok (g b) q' ∧ q.Inside k q')
    (hnone : Carries k m g (f none) (f' none)) :
    Carries k m g (get >>= fun p => f (look p)) (get >>= fun p => f' (look p)) := by
  intro p p' b q hp hm hrun
  rw [get_bind] at hrun ⊢
  by_cases hrest : p.rest = []
  · obtain ⟨hseen, hseen'⟩ := hend p p' hp hrest
    rw [hseen] at hrun
    rw [hseen']
    exact hnone p p' b q hp hm hrun
  · rw [hlook p p' hp hrest]
    cases hseen : look p with
    | none =>
      rw [hseen] at hrun
      exact hnone p p' b q hp hm hrun
    | some text =>
      rw [hseen] at hrun
      exact hsome text p p' b q hseen hrest hp hm hrun

/-- A mark is seen in both texts, unless it is the one that opens sections. -/
theorem carries_sees {mark : Mark} (hmark : mark ≠ .openBracket) {f f' : Bool → Grammar β}
    (htrue : CarriesOn k m g (f true) (f' true)) (hfalse : Carries k m g (f false) (f' false)) :
    Carries k m g (sees mark >>= f) (sees mark >>= f') := by
  have hsees : ∀ f : Bool → Grammar β, sees mark >>= f = peek >>= fun t => f (t = .mark mark) :=
    fun f => rfl
  rw [hsees, hsees]
  refine carries_peek (fun t => ?_) ?_
  · by_cases ht : t = .mark mark
    · rw [decide_eq_true ht]
      exact htrue
    · rw [decide_eq_false ht]
      exact hfalse.on
  · rintro t (rfl | rfl)
    · exact hfalse
    · have hother : Token.mark .openBracket ≠ .mark mark := fun h => hmark (Token.mark.inj h).symm
      rw [decide_eq_false hother]
      exact hfalse

/-- A mark that may be there is taken in both runs or in none; at the end there is none in either. -/
theorem carries_eat {mark : Mark} (hmark : mark ≠ .openBracket) {f f' : Bool → Grammar β}
    (htrue : ∀ n < m, Carries k n g (f true) (f' true)) (hfalse : Carries k m g (f false) (f' false)) :
    Carries k m g (eat mark >>= f) (eat mark >>= f') := by
  rw [eat, bind_assoc, bind_assoc]
  refine carries_sees hmark ?_ hfalse
  show CarriesOn k m g (bump >>= fun _ => f true) (bump >>= fun _ => f' true)
  exact carriesOn_bump htrue

/-- A mark that must be there is taken in both runs. -/
theorem carries_expect {mark : Mark} (hmark : mark ≠ .openBracket) {w : Wanted} {f f' : Unit → Grammar β}
    (h : ∀ n < m, Carries k n g (f ()) (f' ())) :
    Carries k m g (expect mark w >>= f) (expect mark w >>= f') := by
  rw [expect, bind_assoc, bind_assoc]
  exact carries_eat hmark h carries_fail_bind

/-- A name that must be there is taken in both runs. -/
theorem carries_expectName {w : Wanted} {f f' : String × Span → Grammar β}
    (h : ∀ name span, ∀ n < m, Carries k n g (f (name, span)) (f' (name, k.place span))) :
    Carries k m g (expectName w >>= f) (expectName w >>= f') := by
  rw [expectName, bind_assoc, bind_assoc]
  refine carries_peek (fun t => ?_) fun t _ => ?_
  · cases t with
    | ident name =>
      show CarriesOn k m g (here >>= fun span => bump >>= fun _ => f (name, span))
        (here >>= fun span => bump >>= fun _ => f' (name, span))
      exact carriesOn_here fun span => carriesOn_bump (h name span)
    | _ => exact Carries.on carries_fail_bind
  · exact carries_fail_bind

/-- Where no lexeme is left, a repetition has no round left.  In the larger text it may have rounds left,
    but it stops by itself at the end and in front of a section. -/
theorem carries_exhausted {b : β} {x' : Grammar β}
    (h : ∀ p', p'.current.token = .finish ∨ p'.current.token = .mark .openBracket →
      x' p' = .ok (g b) p') : Carries k 0 g (pure b) x' := by
  intro p p' b' q hp hm hrun
  cases hrun
  have hrest : p.rest = [] := by
    rw [← List.length_eq_zero_iff, ← p.left_eq]
    exact Nat.le_zero.mp hm
  exact ⟨Nat.le_refl _, p', h p' ((hp.current_end hrest).2.imp_right And.left), hp⟩

/-- The number of lexemes bounds those that are left, in both texts. -/
theorem carries_remaining {f f' : Nat → Grammar β}
    (h : ∀ n n', n ≤ n' → Carries k n g (f n) (f' n')) :
    Carries k m g (remaining >>= f) (remaining >>= f') := by
  intro p p' b q hp _ hrun
  exact h _ _ hp.left_le p p' b q hp (Nat.le_refl _) hrun

end Elementary

/-! ## Atoms -/

variable {n : Nat}

theorem carries_number (digits : String) :
    CarriesOn k m (Value.mapPlaces k.place) (number digits) (number digits) := by
  unfold number
  cases numberOf? digits with
  | none => exact Carries.on carries_fail
  | some a => exact carriesOn_here fun _ => carriesOn_bump fun _ _ => carries_pure rfl

theorem carries_literal (a : Atom) :
    CarriesOn k m (Value.mapPlaces k.place) (literal a) (literal a) :=
  carriesOn_here fun _ => carriesOn_bump fun _ _ => carries_pure rfl

/-- At the end of a text nothing continues a color or a name, and neither does a section that follows. -/
theorem piece_end {p p' : Parser} (h : p.Inside k p') (hp : p.rest = []) :
    piece? p.current.token = none ∧ piece? p'.current.token = none := by
  obtain ⟨htoken, htoken' | ⟨htoken', -⟩⟩ := h.current_end hp
  · rw [htoken, htoken']
    exact ⟨rfl, rfl⟩
  · rw [htoken, htoken']
    exact ⟨rfl, rfl⟩

/-- Goes on with the digits of a color, if a piece follows. -/
def nextDigits (n : Nat) (digits : String) : Option String → Grammar String
  | some text => do bump; hexDigits n (digits ++ text)
  | none => return digits

/-- The pieces of a color carry over round by round: neither run sees one at the end of the text. -/
theorem carries_hexDigits (n : Nat) (digits : String) :
    Carries k m id (hexDigits n digits) (hexDigits n digits) := by
  induction n generalizing m digits with
  | zero => exact carries_pure rfl
  | succ n ih =>
    refine carries_look
      (fun p => if digits.utf8ByteSize < 6 && p.isAdjacent then piece? p.current.token else none)
      (nextDigits n digits) (nextDigits n digits)
      (fun p p' hp hrest => ?_) (fun p p' hp hrest => ?_) (fun text p p' b q _ => ?_) ?_
    · rw [hp.isAdjacent hrest, hp.current hrest]
      rfl
    · obtain ⟨hpiece, hpiece'⟩ := piece_end hp hrest
      rw [hpiece, hpiece']
      exact ⟨ite_self _, ite_self _⟩
    · exact carriesOn_bump (fun _ _ => ih _) p p' b q
    · exact carries_pure rfl

theorem carries_hexColor : CarriesOn k m (Value.mapPlaces k.place) hexColor hexColor := by
  refine carriesOn_here fun span => carriesOn_bump fun _ _ => ?_
  refine (carries_hexDigits 6 "").bind fun digits => ?_
  dsimp only [id]
  cases colorOf? digits with
  | some c => exact carries_pure rfl
  | none =>
    intro p p' a q _ _ hrun
    cases hrun

/-- References to macros and to properties carry over. -/
theorem carries_atReference :
    CarriesOn k m (Value.mapPlaces k.place) atReference atReference := by
  refine carriesOn_here fun span => carriesOn_bump fun _ _ => ?_
  refine carries_eat Mark.noConfusion (fun _ _ => ?_) ?_
  · refine carries_expectName fun sectionName _ _ _ => carries_expect Mark.noConfusion fun _ _ => ?_
    refine carries_expectName fun key _ _ _ => carries_expect Mark.noConfusion fun _ _ => ?_
    exact carries_pure rfl
  · exact carries_expectName fun name _ _ _ => carries_pure rfl

theorem carries_environmentReference :
    CarriesOn k m (Value.mapPlaces k.place) environmentReference environmentReference := by
  refine carriesOn_here fun span => carriesOn_bump fun _ _ => carries_expect Mark.noConfusion fun _ _ => ?_
  refine carries_expectName fun name _ _ _ => carries_expect Mark.noConfusion fun _ _ => ?_
  exact carries_pure rfl

/-- The parts of a key carry over round by round; neither run sees a point at the end. -/
theorem carries_keyParts {n n' : Nat} (hm : m ≤ n) (hn : n ≤ n') (key : String) :
    Carries k m id (keyParts n key) (keyParts n' key) := by
  induction n generalizing m n' key with
  | zero =>
    -- no lexeme is left, and the key does not go on in the section below
    obtain rfl := Nat.le_zero.mp hm
    refine carries_exhausted fun p' htoken => ?_
    cases n' with
    | zero => rfl
    | succ n' =>
      rw [keyParts, eat, bind_assoc, sees_eq]
      rcases htoken with htoken | htoken <;> rw [htoken] <;> rfl
  | succ n ih =>
    obtain ⟨n', rfl⟩ := Nat.exists_eq_add_of_lt hn
    refine carries_eat Mark.noConfusion (fun l hl => ?_) (carries_pure rfl)
    exact carries_expectName fun part _ _ _ => ih (by omega) (by omega) _

/-- References to texts that are translated carry over. -/
theorem carries_localizationReference :
    CarriesOn k m (Value.mapPlaces k.place) localizationReference localizationReference := by
  refine carriesOn_here fun span => carriesOn_bump fun _ _ => carries_expect Mark.noConfusion fun _ _ => ?_
  refine carries_expectName fun first _ _ _ => carries_remaining fun n n' hn => ?_
  refine (carries_keyParts (Nat.le_refl n) hn first).bind fun name => ?_
  exact carries_expect Mark.noConfusion fun _ _ => carries_pure rfl

/-- The parts of a name carry over round by round; neither run sees a point at the end. -/
theorem carries_nameParts {n n' : Nat} (hm : m ≤ n) (hn : n ≤ n') (name : String) :
    Carries k m id (nameParts n name) (nameParts n' name) := by
  induction n generalizing m n' name with
  | zero =>
    obtain rfl := Nat.le_zero.mp hm
    refine carries_exhausted fun p' htoken => ?_
    cases n' with
    | zero => rfl
    | succ n' =>
      -- where the shorter run has come to its end, the longer one sees a bracket or the end too
      have hpoint : p'.current.token ≠ .mark .point := by
        rcases htoken with htoken | htoken <;> rw [htoken] <;> exact fun h => by cases h
      rw [nameParts_eq, get_bind, if_neg hpoint]
      rfl
  | succ n ih =>
    obtain ⟨n', rfl⟩ : ∃ l, n' = l + 1 := ⟨n' - 1, by omega⟩
    rw [nameParts_eq, nameParts_eq]
    refine carries_look
      (fun p => if p.current.token = .mark .point then piece? p.second else none)
      (nextPart n name) (nextPart n' name) (fun p p' hp hrest => ?_) (fun p p' hp hrest => ?_)
      (fun text p p' b q hseen hrest hp hleft hrun => ?_) ?_
    · rw [hp.token hrest]
      rcases hp.second hrest with hsecond | ⟨hsecond, hsecond'⟩
      · rw [hsecond]
      · rw [hsecond, hsecond']
        rfl
    · obtain ⟨htoken, htoken'⟩ := hp.current_end hrest
      have hpoint : p.current.token ≠ .mark .point := by
        rw [htoken]
        exact Token.noConfusion
      have hpoint' : p'.current.token ≠ .mark .point := by
        rcases htoken' with htoken' | ⟨htoken', -⟩ <;> rw [htoken'] <;> exact fun h => by cases h
      exact ⟨if_neg hpoint, if_neg hpoint'⟩
    · refine carriesOn_bumps (fun l hl => ih (by omega) (by omega) _) ?_ hrest hp hleft hrun
      -- the point is not the last lexeme: behind it a part of the name has been seen
      intro hsecond
      rw [hsecond] at hseen
      split at hseen <;> cases hseen
    · exact carries_pure rfl

/-! ## Values with parts -/

section Parts

variable {expression : Grammar Value}
  (h : ∀ m, Carries k m (Value.mapPlaces k.place) expression expression)

include h

/-- Each round of a list takes a comma, so there is always one round left. -/
theorem carries_itemsFrom {close : Mark} (hclose : close ≠ .openBracket) {n n' : Nat} (hm : m < n)
    (hn : n ≤ n') (before : List Value) :
    Carries k m (List.map (Value.mapPlaces k.place)) (itemsFrom expression close n before)
      (itemsFrom expression close n' (before.map (Value.mapPlaces k.place))) := by
  induction n generalizing m n' before with
  | zero => exact absurd hm (Nat.not_lt_zero m)
  | succ n ih =>
    obtain ⟨n', rfl⟩ : ∃ l, n' = l + 1 := ⟨n' - 1, by omega⟩
    refine carries_sees hclose (Carries.on (carries_pure (List.map_reverse ..).symm)) ?_
    refine (h m).bind fun v => carries_eat Mark.noConfusion (fun l hl => ?_) ?_
    · exact ih (by omega) (by omega) (v :: before)
    · exact carries_pure (List.map_reverse (l := v :: before)).symm

/-- Lists of items carry over, if their items do. -/
theorem carries_items {close : Mark} (hclose : close ≠ .openBracket) :
    Carries k m (List.map (Value.mapPlaces k.place)) (items expression close) (items expression close) :=
  carries_remaining fun _ _ hn =>
    carries_itemsFrom h hclose (Nat.lt_succ_self _) (Nat.succ_le_succ hn) []

/-- A list in the larger text is a sequence there. -/
theorem carries_array : CarriesOn k m (Value.mapPlaces k.place) (array expression) (array expression) := by
  refine carriesOn_here fun span => carriesOn_bump fun _ _ => ?_
  refine (carries_items h Mark.noConfusion).bind fun vs => carries_expect Mark.noConfusion fun _ _ => ?_
  exact carries_pure (by rw [Value.mapPlaces, Value.mapItemPlaces_eq_map])

/-- Fields in the larger text. -/
def placeFields (k : Margin) (fields : Entries Value) : Entries Value :=
  fields.map fun e => (e.1, e.2.mapPlaces k.place)

/-- Fields carry over round by round, with those that have been read; each round takes a lexeme. -/
theorem carries_fieldsFrom {n n' : Nat} (hm : m < n) (hn : n ≤ n') (before : Entries Value)
    (trailing : Bool) :
    Carries k m (Prod.map (placeFields k) id) (fieldsFrom expression n before trailing)
      (fieldsFrom expression n' (placeFields k before) trailing) := by
  induction n generalizing m n' before trailing with
  | zero => exact absurd hm (Nat.not_lt_zero m)
  | succ n ih =>
    obtain ⟨n', rfl⟩ : ∃ l, n' = l + 1 := ⟨n' - 1, by omega⟩
    refine carries_sees Mark.noConfusion (Carries.on (carries_pure rfl)) ?_
    refine carries_expectName fun key span l hl => carries_expect Mark.noConfusion fun l' hl' => ?_
    refine (h l').bind fun v => ?_
    have hinsert : (placeFields k before).insert key (v.mapPlaces k.place) =
        placeFields k (before.insert key v) := (Entries.map_insert _ before key v).symm
    dsimp only
    rw [hinsert]
    refine carries_eat Mark.noConfusion (fun l'' hl'' => ?_) (carries_pure rfl)
    refine carries_sees Mark.noConfusion ?_ ?_
    · exact Carries.on (ih (by omega) (by omega) _ true)
    · exact ih (by omega) (by omega) _ false

/-- Maps and structs carry over, if their values do. -/
theorem carries_record :
    CarriesOn k m (Value.mapPlaces k.place) (record expression) (record expression) := by
  refine carriesOn_here fun span => carriesOn_bump fun _ _ => carries_remaining fun n n' hn => ?_
  refine (carries_fieldsFrom h (Nat.lt_succ_self n) (Nat.succ_le_succ hn) [] false).bind ?_
  rintro ⟨fields, trailing⟩
  refine carries_expect Mark.noConfusion fun _ _ => carries_pure ?_
  -- whether a record is a map depends on its fields, and not on where they are
  have hempty : (placeFields k fields).isEmpty = fields.isEmpty := List.isEmpty_map
  show Value.record (if trailing || (placeFields k fields).isEmpty then .map else .struct) _ _ = _
  rw [hempty, Value.mapPlaces, Value.mapFieldPlaces_eq_map]
  rfl

/-- Parentheses carry over, if what stands in them does. -/
theorem carries_groupOrSet :
    CarriesOn k m (Value.mapPlaces k.place) (groupOrSet expression) (groupOrSet expression) := by
  refine carriesOn_here fun span => carriesOn_bump fun l _ => ?_
  refine carries_eat Mark.noConfusion (fun _ _ => carries_pure rfl) ?_
  refine (h l).bind fun first => carries_eat Mark.noConfusion (fun _ _ => ?_) ?_
  · refine (carries_items h Mark.noConfusion).bind fun vs => carries_expect Mark.noConfusion fun _ _ => ?_
    exact carries_pure (by rw [Value.mapPlaces, Value.mapItemPlaces_eq_map, List.map_cons])
  · exact carries_expect Mark.noConfusion fun _ _ => carries_pure rfl

omit h in
/-- A constructor does not look at places. -/
theorem construct_place {name : String} {vs : List Value} {span : Span} {v : Value} (f : Span → Span)
    (hv : construct name vs span = .ok v) :
    construct name (vs.map (Value.mapPlaces f)) (f span) = .ok (v.mapPlaces f) := by
  have hbare : (vs.map (Value.mapPlaces f)).map Value.bare = vs.map Value.bare := by
    rw [List.map_map]
    exact List.map_congr_left fun v _ => Value.bare_mapPlaces v
  rcases construct_cases hv with ⟨a, rfl, hmade⟩ | ⟨kind, rfl, hmade⟩
  · exact hmade _ _ hbare
  · rw [hmade, Value.mapPlaces, Value.mapItemPlaces_eq_map]

/-- The text of a deferred expression is cut out of the larger text in the same way. -/
theorem carries_dyna (hend : FailsAtEnd expression) (span : Span) :
    CarriesOn k m (Value.mapPlaces k.place) (dyna expression span) (dyna expression (k.place span)) := by
  refine carriesOn_bump fun n _ => carries_sees Mark.noConfusion (Carries.on carries_fail_bind) ?_
  intro p p' v q hp hleft hrun
  rw [if_neg Bool.false_ne_true] at hrun ⊢
  dsimp only at hrun ⊢
  rw [get_bind] at hrun ⊢
  obtain ⟨u, q₁, hu, hrun⟩ := bind_eq_ok.mp hrun
  obtain ⟨hleft₁, q₁', hu', hq₁⟩ := h n p p' u q₁ hp hleft hu
  rw [get_bind] at hrun
  rw [bind_of_ok hu', get_bind]
  have hrest := hend.rest_ne_nil hp hu
  have hslice := slice_inside (hp.start hrest) hq₁.lastStop_le k.above k.below
  have hstart := hp.start_eq hrest
  -- what is left is taken in both texts, and the same characters are cut out
  have hclose : Carries k n (Value.mapPlaces k.place)
      (do
        expect .closeParen .dynaClose
        return .atom (.dyna (String.ofList (Text.trim (takeBytes (q₁.lastStop - p.current.start)
          (dropBytes p.current.start (← get).source))))) span)
      (do
        expect .closeParen .dynaClose
        return .atom (.dyna (String.ofList (Text.trim (takeBytes (q₁'.lastStop - p'.current.start)
          (dropBytes p'.current.start (← get).source))))) (k.place span)) := by
    refine carries_expect Mark.noConfusion fun _ _ => ?_
    intro r r' v' t hr _ hv'
    cases hv'
    refine ⟨Nat.le_refl _, r', ?_, hr⟩
    rw [get_bind, hr.source, hstart, hq₁.stop, hslice, hr.text]
    rfl
  obtain ⟨hleft₂, hrun'⟩ := hclose q₁ q₁' v q hq₁ (Nat.le_trans hleft₁ hleft) hrun
  exact ⟨Nat.le_trans hleft₂ hleft₁, hrun'⟩

/-- Constructors carry over, if their arguments do. -/
theorem carries_constructor (hend : FailsAtEnd expression) (name : String) (span : Span) :
    CarriesOn k m (Value.mapPlaces k.place) (constructor expression name span)
      (constructor expression name (k.place span)) := by
  unfold constructor
  split
  · exact carries_dyna h hend span
  · refine carriesOn_bump fun _ _ => (carries_items h Mark.noConfusion).bind fun vs => ?_
    refine carries_expect Mark.noConfusion fun _ _ => ?_
    -- arguments that fit in the one text fit in the other
    cases hv : construct name vs span with
    | ok v =>
      rw [Margin.place, construct_place _ hv]
      exact carries_pure rfl
    | error fault => exact carries_throw

/-- What begins with a name carries over, if the expressions in it do. -/
theorem carries_named (hend : FailsAtEnd expression) (first : String) :
    CarriesOn k m (Value.mapPlaces k.place) (named expression first) (named expression first) := by
  refine carriesOn_here fun span => carriesOn_bump fun _ _ => carries_sees Mark.noConfusion ?_ ?_
  · exact carries_constructor h hend first span
  · refine carries_remaining fun n n' hn => (carries_nameParts (Nat.le_refl n) hn first).bind fun name => ?_
    exact carries_sees Mark.noConfusion (Carries.on carries_fail_bind) (carries_pure rfl)

/-- What begins a factor carries over, if the expressions in it do. -/
theorem carries_primary (hend : FailsAtEnd expression) :
    Carries k m (Value.mapPlaces k.place) (primary expression) (primary expression) := by
  rw [primary_eq]
  refine carries_peek (fun t => ?_) fun _ _ => carries_fail
  unfold primaryOf
  split
  · exact carries_number _
  · exact carries_literal _
  · exact carries_literal _
  · exact carries_array h
  · exact carries_record h
  · exact carries_groupOrSet h
  · exact carries_hexColor
  · exact carries_atReference
  · exact carries_environmentReference
  · exact carries_localizationReference
  · exact carries_named h hend _
  · exact carries_fail.on

end Parts

/-! ## Expressions -/

/-- A chain carries over round by round: neither the end nor the bracket of a section is an operator. -/
theorem carries_chainFrom {op? : Token → Option BinaryOp} {operand : Grammar Value}
    (hop : op? .finish = none ∧ op? (.mark .openBracket) = none)
    (h : ∀ m, Carries k m (Value.mapPlaces k.place) operand operand) {n n' : Nat} (hm : m ≤ n)
    (hn : n ≤ n') (left : Value) :
    Carries k m (Value.mapPlaces k.place) (chainFrom op? operand n left)
      (chainFrom op? operand n' (left.mapPlaces k.place)) := by
  induction n generalizing m n' left with
  | zero =>
    obtain rfl := Nat.le_zero.mp hm
    refine carries_exhausted fun p' htoken => ?_
    cases n' with
    | zero => rfl
    | succ n' =>
      -- no rounds are left to the shorter run, and the longer one has no operator to go on with
      have hnone : op? p'.current.token = none := by
        rcases htoken with htoken | htoken <;> rw [htoken]
        · exact hop.1
        · exact hop.2
      unfold chainFrom
      rw [peek_eq, hnone]
      rfl
  | succ n ih =>
    obtain ⟨n', rfl⟩ : ∃ l, n' = l + 1 := ⟨n' - 1, by omega⟩
    refine carries_peek (fun t => ?_) fun t ht => ?_
    · cases op? t with
      | none => exact Carries.on (carries_pure rfl)
      | some op =>
        refine carriesOn_bump fun l hl => (h l).bind fun right => ?_
        rw [Value.span_mapPlaces]
        exact ih (by omega) (by omega) (.binary left op right left.span)
    · have hnone : op? t = none := by
        rcases ht with rfl | rfl
        · exact hop.1
        · exact hop.2
      rw [hop.1, hnone]
      exact carries_pure rfl

theorem carries_chain {op? : Token → Option BinaryOp} {operand : Grammar Value}
    (hop : op? .finish = none ∧ op? (.mark .openBracket) = none)
    (h : ∀ m, Carries k m (Value.mapPlaces k.place) operand operand) (m : Nat) :
    Carries k m (Value.mapPlaces k.place) (chain op? operand) (chain op? operand) :=
  (h m).bind fun left => carries_remaining fun n _ hn =>
    carries_chainFrom hop h (Nat.le_refl n) hn left

theorem failsAtEnd_factor (n : Nat) : FailsAtEnd (factor n) := by
  intro p v q hp hrun
  cases n with
  | zero => cases hrun
  | succ n =>
    rw [factor, sees_eq, hp, primary_eq] at hrun
    have hfail : primaryOf (expressionOf (factor n)) p.current.token p = .ok v q := hrun
    rw [hp] at hfail
    cases hfail

/-- At the end of a source there is no value. -/
theorem failsAtEnd_expressionOf (n : Nat) : FailsAtEnd (expressionOf (factor n)) :=
  ((failsAtEnd_factor n).bind _).bind _

/-- **Factors carry over.**  The induction is on the levels that may be opened. -/
theorem carries_factor (n : Nat) : ∀ m, Carries k m (Value.mapPlaces k.place) (factor n) (factor n) := by
  induction n with
  | zero => exact fun _ => carries_fail
  | succ n ih =>
    intro m
    have hneg (m : Nat) (span : Span) : Carries k m (Value.mapPlaces k.place)
        (do return .neg (← factor n) span) (do return .neg (← factor n) (k.place span)) :=
      (ih m).bind fun _ => carries_pure rfl
    have hexpression : ∀ m, Carries k m (Value.mapPlaces k.place) (expressionOf (factor n))
        (expressionOf (factor n)) :=
      carries_chain ⟨rfl, rfl⟩ (carries_chain ⟨rfl, rfl⟩ ih)
    refine carries_sees Mark.noConfusion ?_ (carries_primary hexpression (failsAtEnd_expressionOf n))
    refine carriesOn_here fun span => carriesOn_bump fun l _ => carries_peek (fun t => ?_) fun t ht => ?_
    · cases t with
      | number digits =>
        dsimp only
        split
        · exact carriesOn_bump fun _ _ => carries_pure rfl
        · exact (hneg l span).on
      | _ => exact (hneg l span).on
    · rcases ht with rfl | rfl <;> exact hneg l span

/-- **Expressions carry over to the larger text.** -/
theorem carries_expression (m : Nat) : Carries k m (Value.mapPlaces k.place) expression expression :=
  carries_chain ⟨rfl, rfl⟩ (carries_chain ⟨rfl, rfl⟩ (carries_factor maxNesting)) m

/-! ## Rules of schemas -/

/-- The type of the elements, behind the name of a type of lists. -/
def elementSuffix (name : String) : Grammar String := do
  bump
  let element ← expectName .elementType
  expect .closeBracket .elementClose
  return name ++ "[" ++ element.1 ++ "]"

/-- The type of the elements follows the name at once, or there is none. -/
theorem elementType_eq (name : String) (p : Parser) : elementType name p =
    if p.current.token = .mark .openBracket ∧ p.isAdjacent = true then elementSuffix name p else .ok name p := by
  rw [elementType, sees_eq, get_bind]
  simp only [Bool.and_eq_true, decide_eq_true_eq]
  split <;> rfl

theorem carries_elementSuffix (name : String) : CarriesOn k m id (elementSuffix name) (elementSuffix name) :=
  carriesOn_bump fun _ _ => carries_expectName fun _ _ _ _ =>
    carries_expect Mark.noConfusion fun _ _ => carries_pure rfl

/-- A bracket that opens the next section does not stand right behind the last lexeme, so it gives no type
    of elements. -/
theorem carries_elementType (name : String) :
    Carries k m id (elementType name) (elementType name) := by
  intro p p' a q hp hm hrun
  rw [elementType_eq] at hrun ⊢
  by_cases hrest : p.rest = []
  · obtain ⟨htoken, htoken'⟩ := hp.current_end hrest
    have hclosed : ¬(p.current.token = .mark .openBracket ∧ p.isAdjacent = true) := by
      rw [htoken]
      exact fun h => by cases h.1
    have hclosed' : ¬(p'.current.token = .mark .openBracket ∧ p'.isAdjacent = true) := by
      rintro ⟨hopen, hadjacent⟩
      rcases htoken' with htoken' | ⟨-, hapart⟩
      · rw [htoken'] at hopen
        cases hopen
      · rw [hapart] at hadjacent
        cases hadjacent
    rw [if_neg hclosed] at hrun
    cases hrun
    exact ⟨Nat.le_refl _, p', if_neg hclosed', hp⟩
  · rw [hp.token hrest, hp.isAdjacent hrest]
    split at hrun
    next hopen =>
      rw [if_pos hopen]
      exact carries_elementSuffix name p p' a q hrest hp hm hrun
    next hopen =>
      rw [if_neg hopen]
      cases hrun
      exact ⟨Nat.le_refl _, p', rfl, hp⟩

/-- A rule in the larger text. -/
def placeRule (k : Margin) (r : Rule) : Rule where
  marks := r.marks
  fallback := r.fallback.map (Value.mapPlaces k.place)
  lower := r.lower.map (Value.mapPlaces k.place)
  upper := r.upper.map (Value.mapPlaces k.place)

/-- Adds the mark that begins with a word to a rule.  Two words are bounds, if `=` comes second. -/
def wordMark (r : Rule) (word : String) (second : Token) : Grammar Rule := do
  bump
  if word = "e" then return { r with marks := { r.marks with whenEmpty := .refuse } }
  else if word = "min" ∧ second = .mark .assign then
    bump
    let v ← expression
    return { r with lower := some v }
  else if word = "max" ∧ second = .mark .assign then
    bump
    let v ← expression
    return { r with upper := some v }
  else
    let typeName ← elementType word
    return { r with marks := { r.marks with typeName := some typeName } }

/-- The expression behind a mark takes one of the three places of a rule. -/
theorem carries_markValue {f f' : Value → Rule} (hf : ∀ v, f' (v.mapPlaces k.place) = placeRule k (f v)) :
    Carries k m (placeRule k) (do return f (← expression)) (do return f' (← expression)) :=
  (carries_expression m).bind fun v => carries_pure (hf v)

/-- A mark of a rule that is a word carries over, though two tokens are looked at. -/
theorem carries_wordMark (r : Rule) (word : String) {p p' : Parser} {r' : Rule} {q : Parser}
    (hrest : p.rest ≠ []) (hp : p.Inside k p') (hm : p.left ≤ m)
    (hrun : wordMark r word p.second p = .ok r' q) :
    q.left ≤ p.left ∧ ∃ q', wordMark (placeRule k r) word p'.second p' = .ok (placeRule k r') q' ∧
      q.Inside k q' := by
  have hsecond : p'.second = .mark .assign ↔ p.second = .mark .assign := by
    rcases hp.second hrest with hsecond | ⟨hsecond, hsecond'⟩
    · rw [hsecond]
    · rw [hsecond, hsecond']
      constructor <;> exact fun h => by cases h
  -- where `=` comes second, the source does not end there
  have hgoes : p.second = .mark .assign → p.second ≠ .finish := by
    intro hassign
    rw [hassign]
    exact Token.noConfusion
  unfold wordMark at hrun ⊢
  simp only [hsecond]
  by_cases hempty : word = "e"
  · simp only [if_pos hempty] at hrun ⊢
    refine (?_ : CarriesOn k m (placeRule k) _ _) p p' r' q hrest hp hm hrun
    exact carriesOn_bump fun _ _ => carries_pure rfl
  simp only [if_neg hempty] at hrun ⊢
  by_cases hlower : word = "min" ∧ p.second = .mark .assign
  · simp only [if_pos hlower] at hrun ⊢
    exact carriesOn_bumps (fun _ _ => carries_markValue fun _ => rfl) (hgoes hlower.2) hrest hp hm hrun
  simp only [if_neg hlower] at hrun ⊢
  by_cases hupper : word = "max" ∧ p.second = .mark .assign
  · simp only [if_pos hupper] at hrun ⊢
    exact carriesOn_bumps (fun _ _ => carries_markValue fun _ => rfl) (hgoes hupper.2) hrest hp hm hrun
  simp only [if_neg hupper] at hrun ⊢
  refine (?_ : CarriesOn k m (placeRule k) _ _) p p' r' q hrest hp hm hrun
  exact carriesOn_bump fun _ _ => (carries_elementType word).bind fun _ => carries_pure rfl

theorem carries_ruleMark (r : Rule) :
    Carries k m (placeRule k) (ruleMark r) (ruleMark (placeRule k r)) := by
  refine carries_peek (fun t => ?_) fun _ _ => carries_fail
  dsimp only
  split
  · exact carriesOn_bump fun _ _ => carries_pure rfl
  · exact carriesOn_bump fun _ _ => carries_pure rfl
  · exact carriesOn_bump fun _ _ => carries_pure rfl
  · exact carriesOn_bump fun _ _ => carries_markValue fun _ => rfl
  · exact fun p p' r' q => carries_wordMark r _
  · exact carries_fail.on

/-- The marks of a rule carry over round by round, with those that have been read. -/
theorem carries_ruleMarks {n n' : Nat} (hm : m < n) (hn : n ≤ n') (r : Rule) :
    Carries k m (placeRule k) (ruleMarks n r) (ruleMarks n' (placeRule k r)) := by
  induction n generalizing m n' r with
  | zero => exact absurd hm (Nat.not_lt_zero m)
  | succ n ih =>
    obtain ⟨n', rfl⟩ : ∃ l, n' = l + 1 := ⟨n' - 1, by omega⟩
    refine (carries_ruleMark r).bind fun r' => carries_eat Mark.noConfusion (fun l hl => ?_) (carries_pure rfl)
    exact ih (by omega) (by omega) r'

theorem failsAtEnd_ruleMark (r : Rule) : FailsAtEnd (ruleMark r) := by
  intro p r' q hp hrun
  unfold ruleMark at hrun
  rw [peek_eq, hp] at hrun
  cases hrun

theorem failsAtEnd_rule : FailsAtEnd rule := by
  intro p v q hp hrun
  exact ((failsAtEnd_ruleMark {}).bind _).bind _ p v q hp hrun

/-- **Rules of schemas carry over to the larger text.** -/
theorem carries_rule : Carries k m (Value.mapPlaces k.place) rule rule := by
  refine CarriesOn.always ?_ failsAtEnd_rule
  refine carriesOn_here fun span => Carries.on (carries_remaining fun n n' hn => ?_)
  refine (carries_ruleMarks (Nat.lt_succ_self n) (Nat.succ_le_succ hn) {}).bind fun r => carries_pure ?_
  rw [Rule.toValue, Rule.toValue, Value.mapPlaces]
  simp only [Value.mapOptionPlaces_eq_map]
  rfl

/-! ## Sections -/

/-- The names of parents carry over round by round, with those that have been read. -/
theorem carries_parentsFrom {n n' : Nat} (hm : m < n) (hn : n ≤ n') (before : List String) :
    Carries k m id (parentsFrom n before) (parentsFrom n' before) := by
  induction n generalizing m n' before with
  | zero => exact absurd hm (Nat.not_lt_zero m)
  | succ n ih =>
    obtain ⟨n', rfl⟩ : ∃ l, n' = l + 1 := ⟨n' - 1, by omega⟩
    refine carries_expectName fun name span l hl => ?_
    refine carries_eat Mark.noConfusion (fun l' hl' => ?_) (carries_pure rfl)
    exact ih (by omega) (by omega) _

theorem carries_parents : Carries k m id parents parents :=
  carries_eat Mark.noConfusion (fun _ _ => carries_remaining fun n _ hn =>
    carries_parentsFrom (Nat.lt_succ_self n) (Nat.succ_le_succ hn) []) (carries_pure rfl)

/-- A body in the larger text. -/
def placeBody (k : Margin) (b : Body) : Body where
  properties := b.properties.mapValues (Value.mapPlaces k.place)
  keySpans := b.keySpans.mapValues k.place
  registry := b.registry.map (Value.mapPlaces k.place)

section Sections

variable {value : Grammar Value} (h : ∀ m, Carries k m (Value.mapPlaces k.place) value value)

include h

/-- A body ends at the end of the text, or in front of a section. -/
theorem carries_bodyFrom {n n' : Nat} (hm : m < n) (hn : n ≤ n') (b : Body) :
    Carries k m (placeBody k) (bodyFrom value n b) (bodyFrom value n' (placeBody k b)) := by
  induction n generalizing m n' b with
  | zero => exact absurd hm (Nat.not_lt_zero m)
  | succ n ih =>
    obtain ⟨n', rfl⟩ : ∃ l, n' = l + 1 := ⟨n' - 1, by omega⟩
    refine carries_peek (fun t => ?_) fun t ht => ?_
    · split
      · exact Carries.on (carries_pure rfl)
      · exact Carries.on (carries_pure rfl)
      · -- one more value for the registry
        refine carriesOn_bump fun l hl => (carries_expression l).bind fun v => ?_
        exact ih (by omega) (by omega) { b with registry := v :: b.registry }
      · -- a property, with the place of its name
        rename_i key
        refine carriesOn_here fun span => carriesOn_bump fun l hl => ?_
        refine carries_expect Mark.noConfusion fun l' hl' => (h l').bind fun v => ?_
        have hbody : ({ placeBody k b with
            properties := (placeBody k b).properties.insert key (v.mapPlaces k.place)
            keySpans := (placeBody k b).keySpans.insert key (k.place span) } : Body) =
            placeBody k { b with
              properties := b.properties.insert key v, keySpans := b.keySpans.insert key span } := by
          simp only [placeBody, Table.mapValues_insert]
        rw [hbody]
        exact ih (by omega) (by omega) _
      · exact carries_fail.on
    · rcases ht with rfl | rfl <;> exact carries_pure rfl

/-- A section carries over, if the values in it do. -/
theorem carries_sectionWith (name : String) (ps : List String) (span : Span) :
    Carries k m (Section.mapPlaces k.place) (sectionWith value name ps span)
      (sectionWith value name ps (k.place span)) := by
  refine carries_remaining fun n n' hn => ?_
  refine (carries_bodyFrom h (Nat.lt_succ_self n) (Nat.succ_le_succ hn) {}).bind fun b => carries_pure ?_
  rw [placeBody, ← List.map_reverse]
  rfl

end Sections

end Grammar

end Yini
