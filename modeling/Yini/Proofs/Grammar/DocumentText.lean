import Yini.Document.Text
import Yini.Proofs.Grammar.RuleText
import Yini.Proofs.Resolve.Legible

/-!
The text of a document is read as that document, but for negative numbers and places, unless values
are nested too deep in it (`ofSource_text`).

Line by line: the entries of a section are shown by words that are read into its body (`Lines`), the
header and the lines of a section by words that are read as the section (`IsSection`), and the sections
one after the other by words that are read into a document (`ReadsAs`).
-/

namespace Yini

/-- The section that the text of a section stands for. -/
def Section.spelled (s : Section) : Section where
  name := s.name
  parents := s.parents
  properties := s.properties.mapValues Value.spelled
  registry := s.registry.map Value.spelled

/-! ## Characters -/

/-- The parents of a section as they are written in its header. -/
def parentsText (parents : List String) : List Char :=
  if parents.isEmpty then [] else ' ' :: ':' :: ' ' :: [',', ' '].intercalate (parents.map String.toList)

namespace Section

/-- The header of a section as it is written. -/
def headerText (s : Section) : List Char := '[' :: (s.name.toList ++ ']' :: parentsText s.parents)

/-- The lines of a section below its header as they are written. -/
def lineTexts (s : Section) : List (List Char) :=
  s.properties.entries.map (fun e => e.1.toList ++ ' ' :: '=' :: ' ' :: e.2.text.toList) ++
    s.registry.map fun v => '+' :: '=' :: ' ' :: v.text.toList

/-- A section as it is written, without the end of its last line. -/
def blockText (s : Section) : List Char := s.headerText ++ s.lineTexts.flatMap ('\n' :: ·)

/-- The ends of lines behind them are ends of lines before them, but for the first one. -/
theorem cons_flatMap_append (c : Char) (texts : List (List Char)) :
    c :: texts.flatMap (· ++ [c]) = texts.flatMap (c :: ·) ++ [c] := by
  induction texts with
  | nil => rfl
  | cons text texts ih =>
    rw [List.flatMap_cons, List.flatMap_cons, List.append_assoc, List.singleton_append, ih]
    simp

/-- The text of a section ends with a line break. -/
theorem toList_text (s : Section) : s.text.toList = s.blockText ++ ['\n'] := by
  have hheader : s.header.toList = s.headerText ++ ['\n'] := by
    simp only [header, headerText, parentsText, String.toList_append]
    split
    · simp
    · simp [String.toList_append, String.toList_intercalate]
  have hlines : (String.join (s.properties.entries.map propertyLine)
      ++ String.join (s.registry.map registryLine)).toList = s.lineTexts.flatMap (· ++ ['\n']) := by
    simp [lineTexts, propertyLine, registryLine, String.toList_append, String.toList_join,
      List.flatMap_map]
  rw [text, String.append_assoc, String.toList_append, hlines, hheader, List.append_assoc,
    List.singleton_append, cons_flatMap_append, blockText, List.append_assoc]

end Section

namespace Grammar

variable {k : Scene} {p q : Parser} {w : Word} {ws ws' rest : List Word} {v : Value}

/-- A phrase is read at its own place. -/
theorem Yields.gives {g : Grammar Value} {follow : List Word → Prop} (h : Yields True g follow ws v)
    (hfollow : follow rest) (hp : p.Faces k (ws ++ rest)) :
    Gives True (fun u q => u.bare = v ∧ q.Faces k rest) (g p) := by
  obtain ⟨gap, hgap⟩ := exists_regap ws
  have hp' : p.Faces k (regap gap ws ++ rest) := by rwa [hgap]
  exact h hfollow hp'

/-- Words are read to the same value when they are indented. -/
theorem Yields.indent {g : Grammar Value} {follow : List Word → Prop} (h : Yields True g follow ws v)
    (gap : List Char) : Yields True g follow (indent gap ws) v := by
  intro k p gap' rest hfollow hp
  obtain ⟨gap'', hgap⟩ := exists_regap_of_indent gap ws
  rw [hgap, regap_regap] at hp
  exact h hfollow hp

/-! ## Entries -/

/-- An entry of a section. -/
inductive Entry where
  | property (key : String) (v : Value)
  | element (v : Value)

/-- The body without places. -/
def Body.bare (b : Body) : Body where
  properties := b.properties.mapValues Value.bare
  registry := b.registry.map Value.bare

/-- The body with one more entry. -/
def Body.add (b : Body) : Entry → Body
  | .property key v => { b with properties := b.properties.insert key v }
  | .element v => { b with registry := v :: b.registry }

/-- The words begin another section behind a gap, or there are none. -/
def OpensSection (rest : List Word) : Prop :=
  rest = [] ∨ ∃ w ws, rest = w :: ws ∧ w.gap ≠ [] ∧ w.token = .mark .openBracket

theorem OpensSection.endsEntry (h : OpensSection rest) : EndsEntry rest := by
  rcases h with rfl | ⟨w, ws, rfl, hgap, hw⟩
  · exact .finish
  · exact .next hgap (.inr (.inr hw))

/-- Entries on lines of their own. -/
inductive Lines (value : Grammar Value) : List Word → List Entry → Prop
  | nil : Lines value [] []
  | property {name assign : Word} {key : String} {v : Value} {ws ws' : List Word} {es : List Entry}
      (hgap : name.gap ≠ []) (hname : name.token = .ident key) (hassign : assign.token = .mark .assign)
      (h : Yields True value EndsEntry ws v) (hrest : Lines value ws' es) :
      Lines value (name :: assign :: (ws ++ ws')) (.property key v :: es)
  | element {w : Word} {v : Value} {ws ws' : List Word} {es : List Entry} (hgap : w.gap ≠ [])
      (hw : w.token = .mark .append) (h : Yields True expression EndsEntry ws v) (hrest : Lines value ws' es) :
      Lines value (w :: (ws ++ ws')) (.element v :: es)

/-- Whatever line follows, an entry ends before it. -/
theorem Lines.endsEntry {value : Grammar Value} {es : List Entry} (h : Lines value ws es)
    (hrest : OpensSection rest) : EndsEntry (ws ++ rest) := by
  cases h with
  | nil => exact hrest.endsEntry
  | property hgap hname => exact .next hgap (.inl ⟨_, hname⟩)
  | element hgap hw => exact .next hgap (.inr (.inl hw))

/-- **Lines are read** up to the next section. -/
theorem Lines.gives {value : Grammar Value} {es : List Entry} (h : Lines value ws es)
    (hrest : OpensSection rest) {bound : Nat} (hbound : ws.length < bound)
    (hp : p.Faces k (ws ++ rest)) (b : Body) :
    Gives True (fun b' q => b'.bare = es.foldl Body.add b.bare ∧ q.Faces k rest) (bodyFrom value bound b p) := by
  induction h generalizing bound p b with
  | nil =>
    obtain ⟨bound, rfl⟩ := Nat.exists_eq_succ_of_ne_zero (Nat.ne_zero_of_lt hbound)
    rw [bodyFrom, peek_bind hp]
    rcases hrest with rfl | ⟨w, ws, rfl, -, hw⟩
    · exact ⟨rfl, hp⟩
    · rw [List.nil_append, front_cons, hw]
      exact ⟨rfl, hp⟩
  | @property name assign key v ws ws' es hgap hname hassign h hlines ih =>
    obtain ⟨bound, rfl⟩ := Nat.exists_eq_succ_of_ne_zero (Nat.ne_zero_of_lt hbound)
    rw [List.cons_append, List.cons_append, List.append_assoc] at hp
    have hbound' : ws'.length < bound := by
      simp only [List.length_cons, List.length_append] at hbound
      omega
    rw [bodyFrom, peek_bind hp, front_cons, hname]
    show Gives _ _ ((here >>= _) p)
    rw [here_bind, bump_bind, expect_bind hp.advance, front_cons, if_pos hassign]
    refine (h.gives (hlines.endsEntry hrest) hp.advance.advance).bind ?_
    rintro u q ⟨hu, hq⟩
    -- only the place of the key is new, and the body without its places does not have it
    have hadd : ∀ spans, Body.bare ⟨b.properties.insert key u, spans, b.registry⟩
        = b.bare.add (.property key v) := by
      intro spans
      rw [Body.bare, Table.mapValues_insert, hu]
      rfl
    rw [List.foldl_cons, ← hadd]
    exact ih hbound' hq _
  | @element w v ws ws' es hgap hw h hlines ih =>
    obtain ⟨bound, rfl⟩ := Nat.exists_eq_succ_of_ne_zero (Nat.ne_zero_of_lt hbound)
    rw [List.cons_append, List.append_assoc] at hp
    have hbound' : ws'.length < bound := by
      simp only [List.length_cons, List.length_append] at hbound
      omega
    rw [bodyFrom, peek_bind hp, front_cons, hw]
    show Gives _ _ ((bump >>= _) p)
    rw [bump_bind]
    refine (h.gives (hlines.endsEntry hrest) hp.advance).bind ?_
    rintro u q ⟨hu, hq⟩
    -- entries are put in front while they are read, and the registry is turned round at the end
    have hadd : Body.bare { b with registry := u :: b.registry } = b.bare.add (.element v) := by
      rw [Body.bare, List.map_cons, hu]
      rfl
    rw [List.foldl_cons, ← hadd]
    exact ih hbound' hq _

/-- The text of an entry, without the end of its line. -/
inductive LineText (value : Grammar Value) : List Char → Entry → Prop
  | property {key : String} {text : List Char} {v : Value} (hkey : IsName key) (h : EntryText value text v) :
      LineText value (key.toList ++ ' ' :: '=' :: ' ' :: text) (.property key v)
  | element {text : List Char} {v : Value} (h : EntryText expression text v) :
      LineText value ('+' :: '=' :: ' ' :: text) (.element v)

/-- Lines begin with a line break, so they are quiet. -/
theorem quiet_lines (texts : List (List Char)) : Quiet (texts.flatMap ('\n' :: ·)) := by
  cases texts with
  | nil => exact quiet_nil
  | cons text texts => exact quiet_cons (by decide) (by decide) _

/-- Lines are shown one after the other. -/
theorem shown_lines {value : Grammar Value} {texts : List (List Char)} {es : List Entry}
    (h : List.Forall₂ (LineText value) texts es) :
    ∃ ws, Shown (texts.flatMap ('\n' :: ·)) ws ∧ Lines value ws es := by
  induction h with
  | nil => exact ⟨[], .nil, .nil⟩
  | @cons text e texts es h _ ih =>
    obtain ⟨ws', hshown', hlines⟩ := ih
    have hquiet := quiet_lines texts
    rw [List.flatMap_cons]
    cases h with
    | @property key text v hkey h =>
      obtain ⟨ws, hne, hshown, hyields⟩ := h
      -- key, equals sign and value have blanks between them; the line break stands before the key
      have hassign := ((hshown.indent [' '] hne (by decide)).behind_mark (m := .assign)
        (by decide)).indent [' '] (List.cons_ne_nil _ _) (by decide)
      have hline := (hkey.shown.append hassign (quiet_blank (by decide) _)).indent ['\n']
        (List.cons_ne_nil _ _) (by decide)
      exact ⟨_, hline.append hshown' hquiet, .property (by simp [nameWord]) rfl rfl (hyields.indent [' '])
        hlines⟩
    | @element text v h =>
      obtain ⟨ws, hne, hshown, hyields⟩ := h
      have hline := ((hshown.indent [' '] hne (by decide)).behind_mark (m := .append)
        (by decide)).indent ['\n'] (List.cons_ne_nil _ _) (by decide)
      exact ⟨_, hline.append hshown' hquiet, .element (by simp [Mark.word]) rfl (hyields.indent [' ']) hlines⟩

/-! ## Headers -/

/-- Names with commas between them. -/
inductive Names : List Word → List String → Prop
  | last {w : Word} {name : String} (hw : w.token = .ident name) : Names [w] [name]
  | cons {w comma : Word} {ws : List Word} {name : String} {names : List String}
      (hw : w.token = .ident name) (hcomma : comma.token = .mark .comma) (hrest : Names ws names) :
      Names (w :: comma :: ws) (name :: names)

/-- **The names of parents are read one after the other**, behind those that have been read. -/
theorem Names.gives {names : List String} (h : Names ws names) (hrest : front rest ≠ .mark .comma)
    {bound : Nat} (hbound : ws.length < bound) (hp : p.Faces k (ws ++ rest)) (before : List String) :
    Gives True (fun ps q => ps = before.reverse ++ names ∧ q.Faces k rest) (parentsFrom bound before p) := by
  induction h generalizing bound p before with
  | @last w name hw =>
    obtain ⟨bound, rfl⟩ := Nat.exists_eq_succ_of_ne_zero (Nat.ne_zero_of_lt hbound)
    have hp : p.Faces k (w :: rest) := hp
    rw [parentsFrom, expectName_bind hp (by rw [front_cons, hw])]
    dsimp only
    rw [eat_bind hp.advance, if_neg hrest]
    exact ⟨List.reverse_cons, hp.advance⟩
  | @cons w comma ws name names hw hcomma _ ih =>
    obtain ⟨bound, rfl⟩ := Nat.exists_eq_succ_of_ne_zero (Nat.ne_zero_of_lt hbound)
    have hp : p.Faces k (w :: comma :: (ws ++ rest)) := hp
    have hbound' : ws.length < bound := by
      simp only [List.length_cons] at hbound
      omega
    rw [parentsFrom, expectName_bind hp (by rw [front_cons, hw])]
    dsimp only
    rw [eat_bind hp.advance, front_cons, if_pos hcomma, if_pos rfl, List.append_cons,
      ← List.reverse_cons]
    exact ih hbound' hp.advance.advance _

/-- The parents of a section behind a colon, or nothing. -/
inductive Parents : List Word → List String → Prop
  | none : Parents [] []
  | some {w : Word} {ws : List Word} {names : List String} (hw : w.token = .mark .colon)
      (h : Names ws names) : Parents (w :: ws) names

/-- The list of parents is read, up to the end of the header. -/
theorem Parents.gives {names : List String} (h : Parents ws names) (hrest : EndsEntry rest)
    (hp : p.Faces k (ws ++ rest)) :
    Gives True (fun ps q => ps = names ∧ q.Faces k rest) (parents p) := by
  cases h with
  | none =>
    have hp : p.Faces k rest := hp
    rw [parents, eat_bind hp, if_neg (hrest.ne_mark (by decide))]
    exact ⟨rfl, hp⟩
  | @some w ws names hw h =>
    have hp : p.Faces k (w :: (ws ++ rest)) := hp
    have hbound : ws.length < (ws ++ rest).length + 1 := by
      rw [List.length_append]
      omega
    rw [parents, eat_bind hp, front_cons, if_pos hw, if_pos rfl, remaining_bind hp.advance]
    exact h.gives (hrest.ne_mark (by decide)) hbound hp.advance []

/-! ## Sections -/

/-- The entries of a section in the order in which they are written. -/
def entries (s : Section) : List Entry :=
  s.properties.entries.map (fun e => .property e.1 e.2) ++ s.registry.map .element

/-- The entries of a section make what it holds. -/
theorem foldl_entries (s : Section) :
    (entries s).foldl Body.add {} = { properties := s.properties, registry := s.registry.reverse } := by
  have hproperties : ∀ (es : Entries Value) (b : Body),
      (es.map fun e => Entry.property e.1 e.2).foldl Body.add b
        = { b with properties := b.properties.insertAll es } := by
    intro es
    induction es with
    | nil => exact fun _ => rfl
    | cons e es ih => exact fun b => ih _
  have hregistry : ∀ (vs : List Value) (b : Body), (vs.map Entry.element).foldl Body.add b
      = { b with registry := vs.reverse ++ b.registry } := by
    intro vs
    induction vs with
    | nil => exact fun _ => rfl
    | cons v vs ih =>
      intro b
      rw [List.map_cons, List.foldl_cons, ih, List.reverse_cons, List.append_assoc]
      rfl
  have hall : (∅ : Table Value).insertAll s.properties.entries = s.properties := s.properties.ofList_entries
  rw [entries, List.foldl_append, hproperties, hregistry, List.append_nil, hall]

/-- **The lines of a section are read as the section**, but for places and the spelling of negative numbers.
    -/
theorem Lines.gives_section {value : Grammar Value} {s : Section} (h : Lines value ws (entries s.spelled))
    (hrest : OpensSection rest) (hp : p.Faces k (ws ++ rest)) (span : Span) :
    Gives True (fun t q => t.bare = s.spelled ∧ q.Faces k rest)
      (sectionWith value s.name s.parents span p) := by
  have hbound : ws.length < (ws ++ rest).length + 1 := by
    rw [List.length_append]
    omega
  rw [sectionWith, remaining_bind hp]
  refine (h.gives hrest hbound hp {}).bind ?_
  rintro b q ⟨hb, hq⟩
  refine ⟨?_, hq⟩
  have hempty : Body.bare {} = {} := rfl
  rw [hempty, foldl_entries] at hb
  have hproperties : b.properties.mapValues Value.bare = s.spelled.properties :=
    congrArg Body.properties hb
  have hregistry : b.registry.map Value.bare = s.spelled.registry.reverse := congrArg Body.registry hb
  show ({ name := s.name, parents := s.parents, properties := b.properties.mapValues Value.bare,
          registry := b.registry.reverse.map Value.bare } : Section) = s.spelled
  rw [hproperties, List.map_reverse, hregistry, List.reverse_reverse]
  rfl

/-- The document with one more section, of rules or of values. -/
def declareAs (rules : Bool) (d : Document) (s : Section) : Document :=
  if rules then d.insertSchema s else d.insertSection s

/-- What a property of a section holds. -/
def propertyRule (rules : Bool) : Grammar Value := if rules then rule else expression

/-- **The words are a section**, from its opening bracket on. -/
def IsSection (rules : Bool) (ws : List Word) (t : Section) : Prop :=
  ∃ opening ws', ws = opening :: ws' ∧ opening.token = .mark .openBracket ∧
    ∀ {k p rest} (d : Document), k.mode = rules → OpensSection rest → p.Faces k (ws' ++ rest) →
      Gives True (fun d' q => d'.bare = declareAs rules d.bare t ∧ q.Faces k rest)
        ((if front (ws' ++ rest) = .mark .hash then specialSection d else namedSection d) p)

/-- A section with a name of its own. -/
theorem isSection_named {rules : Bool} {s : Section} {opening name close : Word}
    (hopening : opening.token = .mark .openBracket) (hname : name.token = .ident s.name)
    (hclose : close.token = .mark .closeBracket) (hparents : Parents ws s.parents)
    (hlines : Lines (propertyRule rules) ws' (entries s.spelled)) :
    IsSection rules (opening :: name :: close :: (ws ++ ws')) s.spelled := by
  refine ⟨opening, _, rfl, hopening, fun {k p rest} d hmode hrest hp => ?_⟩
  rw [List.cons_append, List.cons_append, List.append_assoc] at hp ⊢
  have hends := hlines.endsEntry hrest
  rw [front_cons, hname, if_neg Token.noConfusion, namedSection,
    expectName_bind hp (by rw [front_cons, hname])]
  dsimp only
  rw [expect_bind hp.advance, front_cons, if_pos hclose]
  refine (hparents.gives hends hp.advance.advance).bind ?_
  rintro ps q ⟨hps, hq⟩
  rw [hps, get_bind, hq.mode, hmode]
  cases rules with
  | true =>
    refine (hlines.gives_section hrest hq _).bind ?_
    rintro t q ⟨ht, hq⟩
    refine ⟨?_, hq⟩
    rw [Document.bare_insertSchema, ht]
    rfl
  | false =>
    refine (hlines.gives_section hrest hq _).bind ?_
    rintro t q ⟨ht, hq⟩
    refine ⟨?_, hq⟩
    rw [Document.bare_insertSection, ht]
    rfl

/-- The words of a special name in a header. -/
structure SpecialName (name : String) (hash word close : Word) : Prop where
  hash : hash.token = .mark .hash
  word : word.token = .ident name
  close : close.token = .mark .closeBracket

theorem SpecialName.front {name : String} {hash word close : Word} (h : SpecialName name hash word close) :
    front (hash :: word :: close :: ws) = .mark .hash := by
  rw [front_cons, h.hash]

/-- A section with a special name, which holds values. -/
theorem isSection_special {s : Section} {name : String} {opening hash word close : Word}
    (hopening : opening.token = .mark .openBracket) (hheader : SpecialName name hash word close)
    (hword : name = "define" ∨ name = "include") (hname : s.name = "#" ++ name) (hparents : s.parents = [])
    (hlines : Lines expression ws (entries s.spelled)) :
    IsSection false (opening :: hash :: word :: close :: ws) s.spelled := by
  refine ⟨opening, _, rfl, hopening, fun {k p rest} d _ hrest hp => ?_⟩
  rw [List.cons_append, List.cons_append, List.cons_append] at hp ⊢
  have hmarker : ¬(name = "schema" ∨ name = "end_schema") := by
    rcases hword with rfl | rfl <;> decide
  rw [if_pos hheader.front, specialSection, here_bind, bump_bind,
    expectName_bind hp.advance (by rw [front_cons, hheader.word])]
  dsimp only
  rw [expect_bind hp.advance.advance, front_cons, if_pos hheader.close, if_neg hmarker, if_pos hword]
  have hsection := hlines.gives_section hrest hp.advance.advance.advance (p.current.span p.file)
  rw [hname, hparents] at hsection
  refine hsection.bind ?_
  rintro t q ⟨ht, hq⟩
  refine ⟨?_, hq⟩
  rw [Document.bare_insertSection, ht]
  rfl

/-- A marker changes the kind of the sections to come. -/
theorem SpecialName.gives_marker {name : String} {hash word close : Word}
    (h : SpecialName name hash word close) (hname : name = "schema" ∨ name = "end_schema")
    (hrest : OpensSection rest) (hp : p.Faces k (hash :: word :: close :: rest)) (d : Document) :
    Gives True (fun d' q => d' = d ∧ q.Faces { k with mode := name = "schema" } rest)
      (specialSection d p) := by
  have hfaces := hp.advance.advance.advance.turn (name = "schema")
  rw [specialSection, here_bind, bump_bind, expectName_bind hp.advance (by rw [front_cons, h.word])]
  dsimp only
  rw [expect_bind hp.advance.advance, front_cons, if_pos h.close, if_pos hname,
    peek_bind hp.advance.advance.advance]
  rcases hrest with rfl | ⟨w, ws, rfl, -, hw⟩
  · exact ⟨rfl, hfaces⟩
  · rw [front_cons, hw]
    exact ⟨rfl, hfaces⟩

/-! ## Sections one after the other -/

/-- Sections and markers one after the other, first of rules or of values. -/
inductive Sections : Bool → List Word → List (Bool × Section) → Prop
  | nil (rules : Bool) : Sections rules [] []
  | next {rules : Bool} {ws ws' : List Word} {t : Section} {ts : List (Bool × Section)}
      (h : IsSection rules ws t) (hopens : OpensSection ws') (hrest : Sections rules ws' ts) :
      Sections rules (ws ++ ws') ((rules, t) :: ts)
  | marker {rules : Bool} {name : String} {opening hash word close : Word} {ws : List Word}
      {ts : List (Bool × Section)} (hopening : opening.token = .mark .openBracket)
      (h : SpecialName name hash word close) (hname : name = "schema" ∨ name = "end_schema")
      (hopens : OpensSection ws) (hrest : Sections (name = "schema") ws ts) :
      Sections rules (opening :: hash :: word :: close :: ws) ts

/-- **Sections are read** one after the other. -/
theorem Sections.gives {rules : Bool} {ts : List (Bool × Section)} (h : Sections rules ws ts)
    {bound : Nat} (hbound : ws.length < bound) (hmode : k.mode = rules) (hp : p.Faces k ws)
    (d : Document) : Gives True (fun d' _ => d'.bare = ts.foldl (fun d t => declareAs t.1 d t.2) d.bare)
      (sectionsFrom bound d p) := by
  induction h generalizing bound k p d with
  | nil =>
    obtain ⟨bound, rfl⟩ := Nat.exists_eq_succ_of_ne_zero (Nat.ne_zero_of_lt hbound)
    rw [sectionsFrom, peek_bind hp]
    rfl
  | @next rules ws ws' t ts h hopens _ ih =>
    obtain ⟨bound, rfl⟩ := Nat.exists_eq_succ_of_ne_zero (Nat.ne_zero_of_lt hbound)
    obtain ⟨opening, ws, rfl, hopening, h⟩ := h
    have hp : p.Faces k (opening :: (ws ++ ws')) := hp
    have hbound' : ws'.length < bound := by
      simp only [List.cons_append, List.length_cons, List.length_append] at hbound
      omega
    rw [sectionsFrom, peek_bind hp, front_cons, hopening]
    show Gives _ _ ((bump >>= _) p)
    rw [bump_bind, sees_bind hp.advance]
    have hsection := h d hmode hopens hp.advance
    -- behind the bracket it is the mark of special names that decides which rule reads the section
    by_cases hhash : front (ws ++ ws') = .mark .hash
    · rw [if_pos hhash] at hsection
      rw [if_pos (decide_eq_true hhash)]
      refine hsection.bind ?_
      rintro d' q ⟨hd', hq⟩
      rw [List.foldl_cons, ← hd']
      exact ih hbound' hmode hq d'
    · rw [if_neg hhash] at hsection
      rw [if_neg (by simpa using hhash)]
      refine hsection.bind ?_
      rintro d' q ⟨hd', hq⟩
      rw [List.foldl_cons, ← hd']
      exact ih hbound' hmode hq d'
  | @marker rules name opening hash word close ws ts hopening h hname hopens _ ih =>
    obtain ⟨bound, rfl⟩ := Nat.exists_eq_succ_of_ne_zero (Nat.ne_zero_of_lt hbound)
    have hbound' : ws.length < bound := by
      simp only [List.length_cons] at hbound
      omega
    rw [sectionsFrom, peek_bind hp, front_cons, hopening]
    show Gives _ _ ((bump >>= _) p)
    rw [bump_bind, sees_bind hp.advance, if_pos (decide_eq_true h.front)]
    refine (h.gives_marker hname hopens hp.advance d).bind ?_
    rintro d' q ⟨hd', hq⟩
    rw [hd']
    exact ih hbound' rfl hq d

/-! ## Texts of sections -/

/-- The names of parents stay when their words are indented. -/
theorem Names.indent {names : List String} (h : Names ws names) (gap : List Char) :
    Names (indent gap ws) names := by
  cases h with
  | last hw => exact .last hw
  | cons hw hcomma hrest => exact .cons hw hcomma hrest

/-- Names with commas between them are shown by their words. -/
theorem shown_names {names : List String} (hne : names ≠ []) (h : ∀ name ∈ names, IsName name) :
    ∃ ws, ws ≠ [] ∧ Shown ([',', ' '].intercalate (names.map String.toList)) ws ∧ Names ws names := by
  induction names with
  | nil => exact absurd rfl hne
  | cons name names ih =>
    have hname := (h name List.mem_cons_self).shown
    cases names with
    | nil => exact ⟨_, List.cons_ne_nil _ _, by rwa [List.map_singleton, List.intercalate_singleton], .last rfl⟩
    | cons second names =>
      obtain ⟨ws, hne, hshown, hnames⟩ :=
        ih (List.cons_ne_nil _ _) fun name hname => h name (List.mem_cons_of_mem _ hname)
      have hmore := (hshown.indent [' '] hne (by decide)).behind_mark (m := .comma) (by decide)
      refine ⟨nameWord name :: Mark.comma.word :: indent [' '] ws, List.cons_ne_nil _ _, ?_,
        .cons rfl rfl (hnames.indent _)⟩
      have hjoin : [',', ' '].intercalate ((name :: second :: names).map String.toList) = name.toList ++
          [',', ' '] ++ [',', ' '].intercalate ((second :: names).map String.toList) :=
        List.intercalate_cons_of_ne_nil (List.cons_ne_nil _ _)
      rw [hjoin, List.append_assoc]
      exact hname.append hmore (quiet_cons (by decide) (by decide) _)

/-- The text of the parents is shown by words that are read as these. -/
theorem shown_parents {parents : List String} (h : ∀ parent ∈ parents, IsName parent) :
    ∃ ws, Quiet (parentsText parents) ∧ Shown (parentsText parents) ws ∧ Parents ws parents := by
  by_cases hne : parents = []
  · subst hne
    exact ⟨[], quiet_nil, .nil, .none⟩
  · obtain ⟨ws, hws, hshown, hnames⟩ := shown_names hne h
    have hcolon := ((hshown.indent [' '] hws (by decide)).behind_mark (m := .colon) (by decide)).indent
      [' '] (List.cons_ne_nil _ _) (by decide)
    rw [parentsText, if_neg (by simpa using hne)]
    exact ⟨_, quiet_blank (by decide) _, hcolon, .some rfl (hnames.indent _)⟩

/-- The text of a section without the end of its last line, and the section that is read. -/
def SectionText (rules : Bool) (text : List Char) (t : Section) : Prop :=
  ∃ ws, Shown text ws ∧ IsSection rules ws t

/-- The lines of a section are those of its entries. -/
theorem forall₂_lineTexts {value : Grammar Value} {s : Section} {P Q : Value → Prop} (h : s.Legible P Q)
    (hproperties : ∀ e ∈ s.properties.entries, EntryText value e.2.text.toList e.2.spelled)
    (hregistry : ∀ v ∈ s.registry, EntryText expression v.text.toList v.spelled) :
    List.Forall₂ (LineText value) s.lineTexts (entries s.spelled) := by
  have hentries : entries s.spelled = s.properties.entries.map (fun e => Entry.property e.1 e.2.spelled)
      ++ s.registry.map fun v => Entry.element v.spelled := by
    rw [entries, Section.spelled, Table.mapValues, List.map_map, List.map_map]
    rfl
  rw [hentries]
  refine List.rel_append ?_ ?_
  · rw [List.forall₂_map_left_iff, List.forall₂_map_right_iff]
    exact List.forall₂_same.mpr fun e he => .property (h.names e he) (hproperties e he)
  · rw [List.forall₂_map_left_iff, List.forall₂_map_right_iff]
    exact List.forall₂_same.mpr fun v hv => .element (hregistry v hv)

/-- A section with a name of its own is shown by words that are the section. -/
theorem sectionText_named {rules : Bool} {s : Section} {P Q : Value → Prop} (h : s.Legible P Q)
    (hname : IsName s.name)
    (hlines : List.Forall₂ (LineText (propertyRule rules)) s.lineTexts (entries s.spelled)) :
    SectionText rules s.blockText s.spelled := by
  obtain ⟨ws, hquiet, hshown, hparents⟩ := shown_parents h.parents
  obtain ⟨ws', hshown', hlines⟩ := shown_lines hlines
  have hbehind := (hshown.append hshown' (quiet_lines _)).behind_mark (m := .closeBracket) (by decide)
  have hheader := (hname.shown.append hbehind (quiet_cons (by decide) (by decide) _)).behind_mark
    (m := .openBracket) (by decide)
  refine ⟨Mark.openBracket.word :: nameWord s.name :: Mark.closeBracket.word :: (ws ++ ws'), ?_,
    isSection_named rfl rfl rfl hparents hlines⟩
  rw [Section.blockText, Section.headerText]
  simpa [Mark.text] using hheader

/-- The words of a special header. -/
theorem shown_special {name : String} (hname : IsName name) {text : List Char} (h : Shown text ws) :
    Shown ('[' :: '#' :: (name.toList ++ ']' :: text))
      (Mark.openBracket.word :: Mark.hash.word :: nameWord name :: Mark.closeBracket.word :: ws) :=
  ((hname.shown.append (h.behind_mark (m := .closeBracket) (by decide))
    (quiet_cons (by decide) (by decide) _)).behind_mark (m := .hash) (by decide)).behind_mark
      (m := .openBracket) (by decide)

theorem isName_define : IsName "define" :=
  isName_ofList 'd' ['e', 'f', 'i', 'n', 'e'] rfl rfl (by decide) (by decide) rfl

theorem isName_include : IsName "include" :=
  isName_ofList 'i' ['n', 'c', 'l', 'u', 'd', 'e'] rfl rfl (by decide) (by decide) rfl

theorem isName_schema : IsName "schema" :=
  isName_ofList 's' ['c', 'h', 'e', 'm', 'a'] rfl rfl (by decide) (by decide) rfl

theorem isName_endSchema : IsName "end_schema" :=
  isName_ofList 'e' ['n', 'd', '_', 's', 'c', 'h', 'e', 'm', 'a'] rfl rfl (by decide) (by decide) rfl

/-- **The text of a section with a special name** is read as that section. -/
theorem sectionText_special {s : Section} {name : String} (hword : name = "define" ∨ name = "include")
    (hname : s.name = "#" ++ name) (hparents : s.parents = [])
    (hlines : List.Forall₂ (LineText expression) s.lineTexts (entries s.spelled)) :
    SectionText false s.blockText s.spelled := by
  obtain ⟨ws, hshown, hlines⟩ := shown_lines hlines
  have hisName : IsName name := by
    rcases hword with rfl | rfl
    · exact isName_define
    · exact isName_include
  refine ⟨Mark.openBracket.word :: Mark.hash.word :: nameWord name :: Mark.closeBracket.word :: ws, ?_,
    isSection_special rfl ⟨rfl, rfl, rfl⟩ hword hname hparents hlines⟩
  have hblock : s.blockText = '[' :: '#' :: (name.toList ++ ']' :: s.lineTexts.flatMap ('\n' :: ·)) := by
    simp [Section.blockText, Section.headerText, parentsText, hname, hparents, String.toList_append]
  rw [hblock]
  exact shown_special hisName hshown

/-- **The text of a section of values.** -/
theorem sectionText_values {s : Section} (h : s.LegibleValues) (hfinite : ∀ v ∈ s.contents, v.isFinite) :
    SectionText false s.blockText s.spelled := by
  have hlines : List.Forall₂ (LineText expression) s.lineTexts (entries s.spelled) :=
    forall₂_lineTexts h.toLegible
      (fun e he => entryText_expression (h.properties e he) (hfinite _ (Section.mem_contents_of_property he)))
      fun v hv => entryText_expression (h.signed v hv) (hfinite v (Section.mem_contents_of_entry hv))
  rcases h.header with hname | ⟨hname | hname, hparents⟩
  · exact sectionText_named h.toLegible hname hlines
  · exact sectionText_special (.inl rfl) hname hparents hlines
  · exact sectionText_special (.inr rfl) hname hparents hlines

/-- **The text of a section of rules.** -/
theorem sectionText_rules {s : Section} (h : s.LegibleRules) (hfinite : ∀ v ∈ s.contents, v.isFinite) :
    SectionText true s.blockText s.spelled :=
  sectionText_named h.toLegible h.header <| forall₂_lineTexts h.toLegible
    (fun e he => entryText_rule (h.properties e he) (hfinite _ (Section.mem_contents_of_property he)))
    fun v hv => entryText_expression (h.registry v hv).signed (hfinite v (Section.mem_contents_of_entry hv))

/-! ## Texts of documents -/

/-- A section stays one when its words are indented. -/
theorem IsSection.indent {rules : Bool} {t : Section} (h : IsSection rules ws t) (gap : List Char) :
    IsSection rules (indent gap ws) t := by
  obtain ⟨opening, ws', rfl, hopening, h⟩ := h
  exact ⟨{ opening with gap := gap ++ opening.gap }, ws', rfl, hopening, h⟩

theorem IsSection.front {rules : Bool} {t : Section} (h : IsSection rules ws t) :
    front ws = .mark .openBracket := by
  obtain ⟨opening, ws', rfl, hopening, -⟩ := h
  exact hopening

/-- Sections stay when their words are indented. -/
theorem Sections.indent {rules : Bool} {ts : List (Bool × Section)} (h : Sections rules ws ts)
    (gap : List Char) : Sections rules (indent gap ws) ts := by
  cases h with
  | nil => exact .nil rules
  | @next _ ws ws' t ts h hopens hrest =>
    rw [indent_append (by obtain ⟨opening, ws', rfl, -⟩ := h; exact List.cons_ne_nil _ _)]
    exact .next (h.indent gap) hopens hrest
  | marker hopening h hname hopens hrest => exact .marker hopening h hname hopens hrest

/-- A special header without parents as it is written. -/
def markerText (name : String) : List Char := '[' :: '#' :: (name.toList ++ [']'])

/-- The text is written in words that are sections, and white space behind them. -/
def ReadsAs (rules : Bool) (text : List Char) (ts : List (Bool × Section)) : Prop :=
  ∃ ws shown blank, text = shown ++ blank ∧ blank.all Text.isBlank ∧ Shown shown ws ∧
    (ws = [] ∨ front ws = .mark .openBracket) ∧ Sections rules ws ts

namespace ReadsAs

variable {rules rules' : Bool} {text sep more : List Char} {ts ts' : List (Bool × Section)}

theorem nil (rules : Bool) : ReadsAs rules [] [] := ⟨[], [], [], rfl, rfl, .nil, .inl rfl, .nil rules⟩

/-- Words that stand for something before sections, with white space between them. -/
theorem behind (hshown : Shown text ws) (hfront : front ws = .mark .openBracket) (hsep : sep ≠ [])
    (hblank : sep.all Text.isBlank) (hmore : ReadsAs rules' more ts)
    (hws : ∀ ws', OpensSection ws' → Sections rules' ws' ts → Sections rules (ws ++ ws') ts') :
    ReadsAs rules (text ++ (sep ++ more)) ts' := by
  obtain ⟨ws', shown, blank, rfl, htail, hshown', hopens, hsections⟩ := hmore
  -- white space before words is a gap, and with no words to come it is left at the end
  rcases hopens with rfl | hopens
  · obtain rfl : shown = [] := hshown'.written.symm
    refine ⟨ws, text, sep ++ blank, rfl, ?_, hshown, .inr hfront, ?_⟩
    · rw [List.all_append, hblank, htail]
      rfl
    · simpa using hws [] (.inl rfl) hsections
  · obtain ⟨w, ws', rfl, hw⟩ := cons_of_front hopens Token.noConfusion
    have hnext : OpensSection (indent sep (w :: ws')) :=
      .inr ⟨_, _, rfl, List.append_ne_nil_of_left_ne_nil hsep _, hw⟩
    obtain ⟨c, hc⟩ := List.exists_cons_of_ne_nil hsep
    have hquiet : Quiet (sep ++ shown) := by
      obtain ⟨cs, rfl⟩ := hc
      exact quiet_blank (List.all_eq_true.mp hblank c List.mem_cons_self) _
    refine ⟨ws ++ indent sep (w :: ws'), text ++ (sep ++ shown), blank, by simp, htail,
      hshown.append (hshown'.indent sep (List.cons_ne_nil _ _) hblank) hquiet, ?_,
      hws _ hnext (hsections.indent sep)⟩
    obtain ⟨opening, ws, rfl, hopening⟩ := cons_of_front hfront Token.noConfusion
    exact .inr hopening

/-- Sections before others of the same kind. -/
theorem sections {ss : List Section} (h : ∀ s ∈ ss, SectionText rules s.blockText s.spelled)
    (hsep : sep ≠ []) (hblank : sep.all Text.isBlank) (hmore : ReadsAs rules more ts) :
    ReadsAs rules (ss.flatMap (·.blockText ++ sep) ++ more) (ss.map (rules, ·.spelled) ++ ts) := by
  induction ss with
  | nil => exact hmore
  | cons s ss ih =>
    obtain ⟨ws, hshown, hsection⟩ := h s List.mem_cons_self
    rw [List.flatMap_cons, List.append_assoc, List.append_assoc]
    exact behind hshown hsection.front hsep hblank (ih fun s hs => h s (List.mem_cons_of_mem _ hs))
      fun ws' hopens hsections => .next hsection hopens hsections

/-- A marker before sections of the kind that it announces. -/
theorem marker {name : String} (hisName : IsName name) (hname : name = "schema" ∨ name = "end_schema")
    (hmore : ReadsAs (name = "schema") more ts) :
    ReadsAs rules (markerText name ++ '\n' :: more) ts :=
  behind (shown_special hisName .nil) rfl (List.cons_ne_nil '\n' []) (by decide) hmore
    fun ws' hopens hsections => .marker rfl ⟨rfl, rfl, rfl⟩ hname hopens hsections

/-- The text can be written in words but for the white space at its end. -/
theorem shown_trimEnd (h : ReadsAs rules text ts) : ∃ ws, Shown (Text.trimEnd text) ws ∧ Sections rules ws ts := by
  obtain ⟨ws, shown, blank, rfl, hblank, hshown, -, hsections⟩ := h
  refine ⟨ws, ?_, hsections⟩
  have hlast : ∀ c, shown.getLast? = some c → Text.isBlank c = false := by
    rw [← hshown.written]
    exact fun c hc => (hshown.cut quiet_nil).not_isBlank_last hc
  rwa [Text.trimEnd_append hblank, Text.trimEnd_eq_self hlast]

end ReadsAs

end Grammar

namespace Document

variable {d : Document}

/-- The document that the text of a document stands for: its macros are properties of `[#define]`. -/
def spelled (d : Document) : Document where
  sections := d.sections.mapValues Section.spelled
  macros := ∅
  schemas := d.schemas.mapValues Section.spelled

/-- Spelling negative numbers as operations keeps sections under their names. -/
theorem named_spelled {t : Table Section} (h : Named t) : Named (t.mapValues Section.spelled) := by
  intro k s hs
  rw [Table.get?_mapValues] at hs
  obtain ⟨t, ht, rfl⟩ := Option.map_eq_some_iff.mp hs
  exact h k t ht

open Grammar in
/-- Sections that are declared one after the other make a document. -/
theorem foldl_declareAs (h : d.IsNamed) :
    (d.sections.values.map (false, ·.spelled) ++ d.schemas.values.map (true, ·.spelled)).foldl
      (fun d t => declareAs t.1 d t.2) Document.empty = d.spelled := by
  have hnamed : d.spelled.IsNamed := ⟨named_spelled h.sections, named_spelled h.schemas⟩
  have hvalues : ∀ t : Table Section, (t.mapValues Section.spelled).values = t.values.map Section.spelled := by
    intro t
    rw [Table.values, Table.values, Table.mapValues, List.map_map, List.map_map]
    rfl
  rw [← empty_merge hnamed, merge_eq_insertDocument _ rfl, insertDocument, spelled, hvalues, hvalues,
    List.foldl_append, List.foldl_map, List.foldl_map, List.foldl_map, List.foldl_map]
  rfl

open Grammar in
/-- The text of the schema sections, between their markers. -/
theorem readsAs_schemasText (h : d.Legible) (hfinite : ∀ v ∈ d.values, v.isFinite) :
    ReadsAs false d.schemasText.toList (d.schemas.values.map (true, ·.spelled)) := by
  have hschemas : ∀ s ∈ d.schemas.values, SectionText true s.blockText s.spelled := by
    intro s hs
    obtain ⟨n, hn⟩ := Table.mem_values_iff.mp hs
    exact sectionText_rules (h.schemas n s hn) fun v hv => hfinite v (mem_values_of_schema hn hv)
  rw [schemasText]
  split
  next hempty =>
    have hnone : d.schemas.entries = [] := List.isEmpty_iff.mp hempty
    rw [Table.values, hnone]
    exact .nil false
  next =>
    have hclosing : ReadsAs true (markerText "end_schema" ++ ['\n']) [] :=
      .marker isName_endSchema (.inr rfl) (.nil _)
    have hrules : ReadsAs true _ _ := .sections hschemas (List.cons_ne_nil '\n' []) (by decide) hclosing
    have hopening : ReadsAs false _ _ := .marker isName_schema (.inl rfl) hrules
    rw [List.append_nil] at hopening
    have htext : ("[#schema]\n" ++ String.join (d.schemas.values.map Section.text)
        ++ "[#end_schema]\n").toList
          = markerText "schema" ++ '\n' :: (d.schemas.values.flatMap (·.blockText ++ ['\n']) ++
            (markerText "end_schema" ++ ['\n'])) := by
      simp [markerText, String.toList_append, String.toList_join, List.flatMap_map, Section.toList_text]
    rwa [htext]

open Grammar in
/-- The text of a document before white space is cut off at its end. -/
theorem readsAs_text (h : d.Legible) (hfinite : ∀ v ∈ d.values, v.isFinite) (hmacros : d.macrosText = "") :
    ReadsAs false
      (d.macrosText ++ String.join (d.sections.values.map (·.text ++ "\n")) ++ d.schemasText).toList
      (d.sections.values.map (false, ·.spelled) ++ d.schemas.values.map (true, ·.spelled)) := by
  have hsections : ∀ s ∈ d.sections.values, SectionText false s.blockText s.spelled := by
    intro s hs
    obtain ⟨n, hn⟩ := Table.mem_values_iff.mp hs
    exact sectionText_values (h.sections n s hn) fun v hv => hfinite v (mem_values_of_section hn hv)
  have htext : (d.macrosText ++ String.join (d.sections.values.map (·.text ++ "\n"))
      ++ d.schemasText).toList
        = d.sections.values.flatMap (·.blockText ++ ['\n', '\n']) ++ d.schemasText.toList := by
    rw [hmacros, String.empty_append, String.toList_append, String.toList_join, List.flatMap_map]
    simp [String.toList_append, Section.toList_text]
  rw [htext]
  exact .sections hsections (List.cons_ne_nil _ _) (by decide) (readsAs_schemasText h hfinite)

open Grammar in
/-- **The text of a document is read as that document**, but for its places and for negative numbers,
    unless a value in it is nested too deep. -/
theorem ofSource_text (h : d.Legible) (hfinite : ∀ v ∈ d.values, v.isFinite)
    (hmacros : d.macrosText = "") (file : Option String) :
    (∃ fault, ofSource file d.text = .error fault ∧ fault.code = 217) ∨
      ∃ e, ofSource file d.text = .ok e ∧ e.bare = d.spelled := by
  obtain ⟨ws, hshown, hsections⟩ := (readsAs_text h hfinite hmacros).shown_trimEnd
  have htext : d.text.toList = written ws := by
    rw [text, String.toList_ofList, hshown.written]
  obtain ⟨p, hp, hfaces⟩ := Parser.ofSource_of_words file htext (hshown.cut quiet_nil)
  have hgives := hsections.gives (Nat.lt_succ_self _) rfl hfaces .empty
  rw [ofSource, hp]
  dsimp only
  rw [Grammar.document, remaining_bind hfaces]
  cases hrun : sectionsFrom (ws.length + 1) .empty p with
  | error fault q =>
    rw [hrun] at hgives
    exact .inl ⟨fault, rfl, hgives.2⟩
  | ok e q =>
    rw [hrun] at hgives
    refine .inr ⟨e, rfl, ?_⟩
    rw [← foldl_declareAs h.named]
    exact hgives

end Document

end Yini
