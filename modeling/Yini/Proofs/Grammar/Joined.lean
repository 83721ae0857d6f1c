import Yini.Proofs.Grammar.Inside
import Yini.Proofs.Grammar.Sections

/-!
Documents one below the other.

A text below another one is read as it is read alone: its sections are declared in the document that stands
above, and their places are further down (`Grammar.sectionsFrom_inside`).  The text above ends where the
one below begins, in front of the bracket of its first section.  So reading both in one is reading them
one by one and inserting the sections of the second into the document of the first
(`Document.ofSource_join`).
-/

namespace Yini

namespace Margin

variable (file : Option String) (a b : String)

/-- The first text, with the other one below. -/
def upper (more : List Lexeme) : Margin where
  file := file
  text := a.toList
  above := []
  lines := 0
  below := '\n' :: b.toList
  more := more

/-- The second text, with the other one above. -/
def lower : Margin where
  file := file
  text := b.toList
  above := a.toList ++ ['\n']
  lines := a.toList.count '\n' + 1
  below := []
  more := []

end Margin

namespace Grammar

variable {k : Margin} {m : Nat} {base d : Document}

/-- The document read from above with the sections of the text merged in, at their places in the larger
    text. -/
def under (k : Margin) (base d : Document) : Document := base.merge (d.mapPlaces k.place)

theorem under_empty : under k base .empty = base := rfl

/-- The text above all others is read as it is read alone. -/
theorem under_upper {file : Option String} {a b : String} {more : List Lexeme} (hd : d.IsNamed) :
    under (.upper file a b more) .empty d = d := by
  have hplace : d.mapPlaces (Margin.upper file a b more).place = d := Document.mapPlaces_id (fun _ => rfl) d
  rw [under, hplace, Document.empty_merge hd]

/-- A section comes into the lower document before or after that is put below the upper one. -/
theorem under_insertSection (hd : d.IsNamed) (s : Section) :
    (under k base d).insertSection (s.mapPlaces k.place) = under k base (d.insertSection s) := by
  rw [under, under, Document.mapPlaces_insertSection, Document.merge_insertSection _ (hd.mapPlaces _)]

/-- A schema comes into the lower document before or after that is put below the upper one. -/
theorem under_insertSchema (hd : d.IsNamed) (s : Section) :
    (under k base d).insertSchema (s.mapPlaces k.place) = under k base (d.insertSchema s) := by
  rw [under, under, Document.mapPlaces_insertSchema, Document.merge_insertSchema _ (hd.mapPlaces _)]

/-! ## One section -/

/-- A section with a name of its own is read into the document below the upper one. -/
theorem carries_namedSection (hd : d.IsNamed) :
    Carries k m (under k base) (namedSection d) (namedSection (under k base d)) := by
  refine carries_expectName fun name span _ _ => carries_expect Mark.noConfusion fun l _ => ?_
  refine carries_parents.bind fun ps => ?_
  intro p p' d' q hp hm hrun
  rw [get_bind] at hrun ⊢
  -- both parsers read rules, or both read values
  rw [hp.mode]
  split at hrun
  next hmode =>
    rw [if_pos hmode]
    refine (?_ : Carries k l (under k base) _ _) p p' d' q hp hm hrun
    exact (carries_sectionWith (fun _ => carries_rule) name ps span).bind fun s =>
      carries_pure (under_insertSchema hd s)
  next hmode =>
    rw [if_neg hmode]
    refine (?_ : Carries k l (under k base) _ _) p p' d' q hp hm hrun
    exact (carries_sectionWith carries_expression name ps span).bind fun s =>
      carries_pure (under_insertSection hd s)

/-- A section with a special name is read into the document below the upper one. -/
theorem carries_specialSection (hd : d.IsNamed) :
    CarriesOn k m (under k base) (specialSection d) (specialSection (under k base d)) := by
  have hturn (l : Nat) (mode : Bool) : Carries k l (under k base)
      (do modify ({ · with schemaMode := mode }); return d)
      (do modify ({ · with schemaMode := mode }); return under k base d) := by
    intro p p' d' q hp hm hrun
    cases hrun
    exact ⟨Nat.le_refl _, _, rfl, hp.turn mode⟩
  refine carriesOn_here fun span => carriesOn_bump fun _ _ => carries_expectName fun name _ _ _ => ?_
  refine carries_expect Mark.noConfusion fun l _ => ?_
  dsimp only
  split
  · -- behind a marker comes the end of the text or the bracket of a section
    refine carries_peek (fun t => ?_) fun t ht => ?_
    · split
      · exact (hturn l _).on
      · exact (hturn l _).on
      · exact Carries.on carries_fail_bind
    · rcases ht with rfl | rfl <;> exact hturn l _
  · split
    · refine (carries_sectionWith carries_expression _ [] span).bind fun s => carries_pure ?_
      exact under_insertSection hd s
    · exact carries_throw

/-- The next section, behind its bracket. -/
def nextSection (d : Document) : Grammar Document := do
  if ← sees .hash then specialSection d else namedSection d

/-- **The next section is read into the document below the upper one.** -/
theorem carries_nextSection (hd : d.IsNamed) :
    Carries k m (under k base) (nextSection d) (nextSection (under k base d)) :=
  carries_sees Mark.noConfusion (carries_specialSection hd) (carries_namedSection hd)

/-- Sections are declared under their names. -/
theorem isNamed_nextSection {scene : Scene} {ws : List Word} {p q : Parser} {d' : Document} (hd : d.IsNamed)
    (hp : p.Faces scene ws) (hrun : nextSection d p = .ok d' q) : d'.IsNamed := by
  rw [nextSection, sees_bind hp] at hrun
  split at hrun
  next hhash =>
    obtain ⟨_, _, -, rfl | ⟨s, rfl, -⟩⟩ := specialSection_cases hp (by simpa using hhash) hrun
    · exact hd
    · exact hd.insertSection s
  next =>
    obtain ⟨_, s, -, ⟨rfl, -⟩ | ⟨rfl, -⟩⟩ := namedSection_cases hp hrun
    · exact hd.insertSection s
    · exact hd.insertSchema s

/-! ## All sections -/

variable {p q : Parser} {e : Document} {n : Nat}

/-- At the end of the source the document is complete. -/
theorem sectionsFrom_finish (h : p.current.token = .finish) (n : Nat) (d : Document) :
    sectionsFrom (n + 1) d p = .ok d p := by
  unfold sectionsFrom
  rw [peek_eq, h]
  rfl

/-- Behind an opening bracket the next section is read, and then the others. -/
theorem sectionsFrom_open (h : p.current.token = .mark .openBracket) (n : Nat) (d : Document) :
    sectionsFrom (n + 1) d p = (nextSection d >>= sectionsFrom n) p.advance := by
  unfold sectionsFrom nextSection
  rw [peek_eq, h, bind_assoc, sees_eq]
  show (bump >>= _) p = _
  rw [bump_bind, sees_eq]
  split <;> rfl

/-- Sections are read until the source ends. -/
theorem sectionsFrom_cases (h : sectionsFrom (n + 1) d p = .ok e q) :
    p.current.token = .finish ∧ e = d ∧ q = p ∨ p.current.token = .mark .openBracket := by
  unfold sectionsFrom at h
  rw [peek_eq] at h
  generalize p.current.token = t at h
  split at h
  next =>
    cases h
    exact .inl ⟨rfl, rfl, rfl⟩
  next => exact .inr rfl
  next => cases h

/-- **A text is read inside a larger one as it is read alone**, up to its end. -/
theorem sectionsFrom_inside (base : Document) {n' : Nat} {p' : Parser} (hd : d.IsNamed) (hp : p.Inside k p')
    (hn : p.left < n) (hn' : p'.left < n') (hrun : sectionsFrom n d p = .ok e q) :
    q.rest = [] ∧ ∃ l q', q.Inside k q' ∧ q'.left < l ∧
      sectionsFrom n' (under k base d) p' = sectionsFrom l (under k base e) q' := by
  -- on the bound of the run alone; every section takes lexemes, so the other bound holds out as well
  induction n generalizing n' d p p' with
  | zero => exact absurd hn (Nat.not_lt_zero _)
  | succ n ih =>
    obtain ⟨n', rfl⟩ : ∃ l, n' = l + 1 := ⟨n' - 1, by omega⟩
    rcases sectionsFrom_cases hrun with ⟨hfinish, rfl, rfl⟩ | hopen
    · -- the text ends, whatever the other parser has below
      exact ⟨hp.rest_nil hfinish, n' + 1, p', hp, hn', rfl⟩
    · have hrest : p.rest ≠ [] := by
        intro hnil
        rw [(hp.current_end hnil).1] at hopen
        cases hopen
      have hopen' : p'.current.token = .mark .openBracket := (hp.token hrest).trans hopen
      rw [sectionsFrom_open hopen] at hrun
      rw [sectionsFrom_open hopen']
      obtain ⟨d₁, p₁, hnext, hrun⟩ := bind_eq_ok.mp hrun
      obtain ⟨scene, ws, hfaces⟩ := (hp.advance hrest).faces
      have hd₁ := isNamed_nextSection hd hfaces hnext
      have hcarries : Carries k p.left (under k base) _ _ := carries_nextSection hd
      have hless := p.left_advance
      obtain ⟨hleft, p₁', hnext', hp₁⟩ := hcarries _ _ d₁ p₁ (hp.advance hrest) (by omega) hnext
      rw [bind_of_ok hnext']
      have hall := hp.left_eq
      have hall₁ := hp₁.left_eq
      have hpos : 0 < p.left := by
        rw [p.left_eq]
        exact List.length_pos_iff.mpr hrest
      exact ih hd₁ hp₁ (by omega) (by omega) hrun

/-- In front of a section it does not matter where the last lexeme ended. -/
theorem sectionsFrom_lastStop {stop : Nat} (hfinish : p.finish.token = .finish)
    (hrun : sectionsFrom (n + 1) d { p with lastStop := stop } = .ok e q) :
    ∃ q', sectionsFrom (n + 1) d p = .ok e q' := by
  rcases sectionsFrom_cases hrun with ⟨hend, rfl, -⟩ | hopen
  · have hend' : p.current.token = .finish := hend
    exact ⟨p, sectionsFrom_finish hend' n e⟩
  · have hopen' : p.current.token = .mark .openBracket := hopen
    have hadvance : ({ p with lastStop := stop } : Parser).advance = p.advance := by
      obtain ⟨file, source, rest, finish, lastStop, schemaMode, left, left_eq⟩ := p
      cases rest with
      | nil =>
        rw [Parser.current, hfinish] at hopen
        cases hopen
      | cons l ls => rfl
    rw [sectionsFrom_open hopen, hadvance] at hrun
    exact ⟨q, (sectionsFrom_open hopen' n d).trans hrun⟩

/-- A document begins with the bracket of a section, unless it is empty. -/
theorem head_of_document {ws : List Word} {scene : Scene} (hp : p.Faces scene ws) (hrun : document p = .ok e q) :
    ∀ l ∈ p.rest.head?, l.token = .mark .openBracket := by
  intro l hl
  have hcurrent : p.current = l := by
    rw [Parser.current]
    cases hrest : p.rest with
    | nil =>
      rw [hrest] at hl
      cases hl
    | cons l' ls =>
      rw [hrest] at hl
      exact Option.some.inj hl
  rw [← hcurrent]
  rcases sectionsFrom_cases hrun with ⟨hend, -⟩ | hopen
  · rw [hp.rest_nil_of_finish hend] at hl
    cases hl
  · exact hopen

end Grammar

/-! ## Two texts -/

namespace Parser

variable {file : Option String} {a b : String} {p p' q r : Parser}

/-- The lexemes of the second text in both. -/
def sunk (a : String) (p : Parser) : List Lexeme :=
  p.rest.map (Lexeme.down (a.toList.count '\n' + 1) (bytes a.toList + 1))

/-- The lexemes of both texts are those of the first one, and below them those of the second. -/
theorem inside_upper (ha : ofSource file a = .ok p) (hb : ofSource file b = .ok p')
    (hopen : ∀ l ∈ p'.rest.head?, l.token = .mark .openBracket) :
    ∃ r, ofSource file (a ++ "\n" ++ b) = .ok r ∧ p.Inside (.upper file a b (p'.sunk a)) r := by
  obtain ⟨ws, last, hfaces⟩ := faces_ofSource ha
  obtain ⟨ws', last', hfaces'⟩ := faces_ofSource hb
  obtain ⟨la, fa, hreadA, rfl⟩ := ofSource_eq_ok ha
  obtain ⟨lb, fb, hreadB, rfl⟩ := ofSource_eq_ok hb
  have hsource : (a ++ "\n" ++ b).toList = a.toList ++ '\n' :: b.toList := by
    simp [String.toList_append]
  refine ⟨_, ofSource_of_read (Lexeme.read_join hreadA hreadB),
    { faces := ⟨_, ws, hfaces⟩
      file := rfl
      sameFile := rfl
      text := rfl
      source := hsource
      rest := ?rest
      finish := hfaces'.finish
      stop := rfl
      mode := rfl
      next := ?next }⟩
  case rest =>
    -- nothing stands above the first text
    have hstay : la.map (Lexeme.down 0 (bytes [])) = la := la.map_id
    show la ++ _ = la.map (Lexeme.down 0 (bytes [])) ++ _
    rw [hstay]
    rfl
  case next =>
    intro l hl
    have hl : (lb.map (Lexeme.down _ _)).head? = some l := hl
    rw [List.head?_map] at hl
    obtain ⟨l', hl', rfl⟩ := Option.map_eq_some_iff.mp hl
    refine ⟨hopen l' hl', ?_⟩
    show bytes a.toList + bytes [] < l'.start + (bytes a.toList + 1)
    rw [bytes_nil]
    omega

/-- Where the first text ends, the second one begins. -/
theorem inside_lower (hb : ofSource file b = .ok p') (hq : q.Inside (.upper file a b (p'.sunk a)) r)
    (hrest : q.rest = []) (hmode : q.schemaMode = false) :
    p'.Inside (.lower file a b) { r with lastStop := bytes a.toList + 1 } := by
  obtain ⟨ws, last, hfaces⟩ := faces_ofSource hb
  obtain ⟨lb, fb, hread, rfl⟩ := ofSource_eq_ok hb
  -- the line break between the texts is the one byte that neither of them has
  have habove : bytes (a.toList ++ ['\n']) = bytes a.toList + 1 := by
    rw [bytes_append]
    rfl
  refine
    { faces := ⟨_, ws, hfaces⟩
      file := rfl
      sameFile := hq.sameFile
      text := rfl
      source := ?source
      rest := ?rest
      finish := hq.finish
      stop := ?stop
      mode := hq.mode.trans hmode
      next := nofun }
  case source =>
    show r.source = a.toList ++ ['\n'] ++ (b.toList ++ [])
    rw [hq.source, List.append_nil, List.append_assoc]
    rfl
  case rest =>
    show r.rest = lb.map (Lexeme.down _ (bytes (a.toList ++ ['\n']))) ++ []
    rw [hq.rest, hrest, habove, List.append_nil]
    rfl
  case stop =>
    show bytes a.toList + 1 = 0 + bytes (a.toList ++ ['\n'])
    rw [habove, Nat.zero_add]

end Parser

/-- **Reading two texts in one is reading them one by one** and inserting the sections of the second into
    the document of the first, at places further down.  The first one has to end where values are read. -/
theorem Document.ofSource_join {file : Option String} {a b : String} {p q : Parser} {d e : Document}
    (ha : Parser.ofSource file a = .ok p) (hd : Grammar.document p = .ok d q) (hmode : q.schemaMode = false)
    (hb : Document.ofSource file b = .ok e) :
    Document.ofSource file (a ++ "\n" ++ b) =
      .ok (d.insertDocument (e.mapPlaces (Span.down (a.toList.count '\n' + 1)))) := by
  obtain ⟨p', q', hp', he⟩ := ofSource_eq_ok.mp hb
  obtain ⟨-, hdNamed⟩ := ofSource_shape (ofSource_eq_ok.mpr ⟨p, q, ha, hd⟩)
  obtain ⟨heMacros, -⟩ := ofSource_shape hb
  obtain ⟨ws, last, hfaces⟩ := Parser.faces_ofSource hp'
  obtain ⟨r, hr, hupper⟩ := Parser.inside_upper ha hp' (Grammar.head_of_document hfaces he)
  -- the first text is read where it stands, and its document is merged into the empty one
  obtain ⟨hrest, n, r₁, hend, hn, hfirst⟩ := Grammar.sectionsFrom_inside .empty isNamed_empty hupper
    (Nat.lt_succ_self _) (Nat.lt_succ_self r.left) hd
  -- the second text begins where the first one ends
  have hlower := Parser.inside_lower hp' hend hrest hmode
  obtain ⟨hrest', n', r₂, hend', hn', hsecond⟩ :=
    Grammar.sectionsFrom_inside d isNamed_empty hlower (Nat.lt_succ_self _) hn he
  have hfinish : r₂.current.token = .finish := by
    have hnothing : r₂.rest = [] := by
      rw [hend'.rest, hrest']
      rfl
    rw [Parser.current, hnothing]
    exact hend'.finish
  obtain ⟨n, rfl⟩ := Nat.exists_eq_succ_of_ne_zero (Nat.ne_zero_of_lt hn)
  obtain ⟨n', rfl⟩ := Nat.exists_eq_succ_of_ne_zero (Nat.ne_zero_of_lt hn')
  rw [Grammar.sectionsFrom_finish hfinish, Grammar.under_empty] at hsecond
  obtain ⟨r₃, hthird⟩ := Grammar.sectionsFrom_lastStop hend.finish hsecond
  rw [Grammar.under_empty, Grammar.under_upper hdNamed, hthird] at hfirst
  have hmacros : (e.mapPlaces (Span.down (a.toList.count '\n' + 1))).macros = ∅ := by
    rw [mapPlaces, heMacros]
    rfl
  rw [← merge_eq_insertDocument d hmacros]
  exact ofSource_eq_ok.mpr ⟨r, r₃, hr, hfirst⟩

/-- A text that ends in a comment. -/
def upperText : String := "[A] : B\nx = 1 // last"

/-- A text that declares a section of `upperText` again, and a schema. -/
def lowerText : String := "[A]\ny = x\n[#schema]\n[S]\nk = !"

/-- The property on the second line of the lower text is on the fourth line of both. -/
theorem Document.ofSource_join_commented : ∃ p q d e, Parser.ofSource none upperText = .ok p ∧
    Grammar.document p = .ok d q ∧ q.schemaMode = false ∧ Document.ofSource none lowerText = .ok e ∧
      Document.ofSource none (upperText ++ "\n" ++ lowerText) =
        .ok (d.insertDocument (e.mapPlaces (Span.down 2))) ∧
      (e.get? "A" "y").map (·.span.line) = some 2 ∧
      ((d.insertDocument (e.mapPlaces (Span.down 2))).get? "A" "y").map (·.span.line) = some 4 := by
  have hupper : ((Parser.ofSource none upperText).toOption.bind fun p =>
      (Grammar.document >>= fun _ => get).run' p).map Parser.schemaMode = some false := by decide +kernel
  have hlower : ((Document.ofSource none lowerText).toOption.filter fun e =>
      (e.get? "A" "y").map (·.span.line) = some 2).isSome := by decide +kernel
  have hboth : ((Document.ofSource none (upperText ++ "\n" ++ lowerText)).toOption.bind (·.get? "A" "y")).map
      (·.span.line) = some 4 := by decide +kernel
  obtain ⟨q, hq, hmode⟩ := Option.map_eq_some_iff.mp hupper
  obtain ⟨p, hp, hq⟩ := Option.bind_eq_some_iff.mp hq
  obtain ⟨d, hd⟩ : ∃ d, Grammar.document p = .ok d q := by
    unfold EStateM.run' at hq
    split at hq
    next hrun =>
      cases hq
      obtain ⟨d, q₁, hd, hget⟩ := bind_eq_ok.mp hrun
      cases hget
      exact ⟨d, hd⟩
    next => cases hq
  obtain ⟨e, he⟩ := Option.isSome_iff_exists.mp hlower
  obtain ⟨he, hsecond⟩ := Option.filter_eq_some_iff.mp he
  have ha := eq_ok_of_toOption hp
  have hb := eq_ok_of_toOption he
  have hjoin := ofSource_join ha hd hmode hb
  refine ⟨p, q, d, e, ha, hd, hmode, hb, hjoin, by simpa using hsecond, ?_⟩
  rw [hjoin] at hboth
  exact hboth

end Yini
