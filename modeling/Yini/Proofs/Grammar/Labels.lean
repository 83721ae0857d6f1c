import Mathlib.Data.Set.Insert
import Yini.Proofs.Grammar.Height
import Yini.Proofs.Token.Position

/-!
Where the names of sections and properties are written.

A document keeps with each section the place of its header, and with each property the place of its
name.  Both are places of lexemes, and lexemes come one after the other: while a source is read
(`Drawn`), the names that have been recorded are apart from each other, and before all that is still to
come.  So in a document that is read no two names overlap (`Document.charted_of_ofSource`).
-/

namespace Yini

/-! ## Charts -/

/-- A name that is written in a text: that of a section, in its header, or that of a property. -/
structure Label where
  sectionName : String
  key : Option String

/-- The name as it is written. -/
def Label.text (l : Label) : String := l.key.getD l.sectionName

/-- How many columns the name takes. -/
def Label.width (l : Label) : Nat := l.text.toList.length

/-- Names, with the places where they are written. -/
abbrev Chart : Type := Set (Label × Span)

/-- Whether a position is behind so many characters that begin at a span of the same file. -/
def Span.Before (width : Nat) (s t : Span) : Prop :=
  s.line < t.line ∨ s.line = t.line ∧ s.column + width ≤ t.column

theorem Span.Before.mono {width width' : Nat} {s t : Span} (h : s.Before width t) (hle : width' ≤ width) :
    s.Before width' t :=
  h.imp_right fun h => ⟨h.1, by omega⟩

theorem Span.Before.trans {width width' : Nat} {s t u : Span} (h : s.Before width t)
    (h' : t.Before width' u) : s.Before (width + width') u := by
  unfold Before at h h' ⊢
  omega

namespace Chart

variable {C D : Chart}

/-- **No two names overlap.** -/
def Apart (C : Chart) : Prop :=
  ∀ e ∈ C, ∀ f ∈ C, e.1 ≠ f.1 → e.2.file = f.2.file →
    e.2.Before e.1.width f.2 ∨ f.2.Before f.1.width e.2

theorem Apart.mono (h : D.Apart) (hsub : C ⊆ D) : C.Apart :=
  fun e he f hf => h e (hsub he) f (hsub hf)

/-- A name that is behind all others may be added. -/
theorem Apart.insert (h : C.Apart) {l : Label} {s : Span} (hs : ∀ e ∈ C, e.2.Before e.1.width s) :
    Apart (Insert.insert (l, s) C) := by
  rintro e (rfl | he) f (rfl | hf) hne hfile
  · exact absurd rfl hne
  · exact .inr (hs f hf)
  · exact .inl (hs e he)
  · exact h e he f hf hne hfile

end Chart

namespace Section

variable {s t : Section} {key : Option String} {span : Span}

/-- Where a name of a section is written: its own, or that of one of its properties. -/
def place? (s : Section) : Option String → Option Span
  | none => some s.span
  | some k => s.keySpans.get? k

/-- The names of a section. -/
def chart (s : Section) : Chart := {e | e.1.sectionName = s.name ∧ s.place? e.1.key = some e.2}

/-- A declaration that is merged in moves some names to where it has them. -/
theorem place?_merge (h : (s.merge t).place? key = some span) :
    s.place? key = some span ∨ t.place? key = some span := by
  cases key with
  | none => exact .inl h
  | some k =>
    have hget : (s.keySpans.insertAll t.keySpans.entries).get? k = some span := h
    rw [Table.get?_insertAll] at hget
    exact (Option.or_eq_some_iff.mp hget).symm.imp_left And.right

end Section

namespace Document

/-- The names of the sections of a document. -/
def chart (d : Document) : Chart :=
  {e | ∃ s, d.sections.get? e.1.sectionName = some s ∧ s.place? e.1.key = some e.2}

/-- In the empty document no names are written. -/
theorem chart_empty : empty.chart = ∅ := by
  refine Set.eq_empty_iff_forall_notMem.mpr ?_
  rintro e ⟨s, hs, -⟩
  cases hs

/-- Inserting a section brings in no other names than its own. -/
theorem chart_insertSection (d : Document) (s : Section) : (d.insertSection s).chart ⊆ d.chart ∪ s.chart := by
  rintro e ⟨u, hu, hplace⟩
  rcases get?_declare_cases hu with hu | ⟨hname, rfl | ⟨first, hfirst, rfl⟩⟩
  · exact .inl ⟨u, hu, hplace⟩
  · exact .inr ⟨hname.symm, hplace⟩
  · rcases Section.place?_merge hplace with hplace | hplace
    · exact .inl ⟨first, hfirst, hplace⟩
    · exact .inr ⟨hname.symm, hplace⟩

/-- Whether the names of a document are apart, and all in one file. -/
structure Charted (file : Option String) (d : Document) : Prop where
  apart : d.chart.Apart
  named : ∀ e ∈ d.chart, e.2.file = file

end Document

/-! ## The order of lexemes -/

/-- How many columns a token takes at least. -/
def Token.width : Token → Nat
  | ident name => name.toList.length
  | _ => 1

theorem Token.Spells.width_le {text rest : List Char} {t : Token} (h : Spells text t rest) :
    t.width ≤ text.length := by
  have hpos := List.length_pos_of_ne_nil h.ne_nil
  cases h with
  | @word c cs =>
    unfold ofWord
    split
    · exact hpos
    split
    · exact hpos
    · rw [width, String.toList_ofList]
  | _ => exact hpos

/-- One lexeme is before another one. -/
def Lexeme.Before (file : Option String) (l l' : Lexeme) : Prop :=
  (l.span file).Before l.token.width (l'.span file)

/-- What stands behind some characters is on a later line, or that many columns further. -/
theorem before_append (file : Option String) (before cs : List Char) :
    Span.Before cs.length ⟨file, lineAfter before, columnAfter before⟩
      ⟨file, lineAfter (before ++ cs), columnAfter (before ++ cs)⟩ := by
  show lineAfter before < lineAfter (before ++ cs) ∨ lineAfter before = lineAfter (before ++ cs) ∧
    columnAfter before + cs.length ≤ columnAfter (before ++ cs)
  rw [lineAfter_append]
  by_cases hbreak : '\n' ∈ cs
  · have hcount := List.count_pos_iff.mpr hbreak
    exact .inl (by omega)
  · rw [List.count_eq_zero.mpr hbreak, columnAfter_append before hbreak]
    exact .inr ⟨rfl, Nat.le_refl _⟩

/-- **Lexemes are read in order.** -/
theorem Lexeme.pairwise_before {file : Option String} {source : String} {ls : List Lexeme} {finish : Lexeme}
    (h : read file source = .ok (ls, finish)) : ls.Pairwise (Before file) := by
  obtain ⟨ws, last, -, hcut, -, rfl, -⟩ := eq_of_read h
  -- between the beginnings of two words stands the whole text of the first one
  refine pairwise_lexemesOf [] fun w hw before mid w' => ?_
  obtain ⟨front, back, rfl⟩ := List.append_of_mem hw
  have hwidth := (cut_append.mp hcut).2.1.spells.width_le
  have hsplit : before ++ w.chars ++ mid ++ w'.gap = before ++ w.gap ++ (w.text ++ mid ++ w'.gap) := by
    simp only [Word.chars, List.append_assoc]
  show Span.Before w.token.width ⟨file, lineAfter (before ++ w.gap), columnAfter (before ++ w.gap)⟩
    ⟨file, lineAfter (before ++ w.chars ++ mid ++ w'.gap),
      columnAfter (before ++ w.chars ++ mid ++ w'.gap)⟩
  rw [hsplit]
  refine (before_append file _ _).mono ?_
  rw [List.length_append, List.length_append]
  omega

/-! ## Reading -/

/-- **While a source is read**, the names that have been recorded are apart, and before all lexemes to
    come. -/
structure Drawn (file : Option String) (C : Chart) (p : Parser) : Prop where
  sameFile : p.file = file
  finish : p.finish.token = .finish
  order : p.rest.Pairwise (Lexeme.Before file)
  named : ∀ e ∈ C, e.2.file = file
  ahead : ∀ e ∈ C, ∀ l ∈ p.rest, e.2.Before e.1.width (l.span file)
  apart : C.Apart

namespace Drawn

variable {file : Option String} {C D : Chart} {p q : Parser} {l : Label} {name : String}

theorem mono (h : Drawn file D p) (hsub : C ⊆ D) : Drawn file C p where
  sameFile := h.sameFile
  finish := h.finish
  order := h.order
  named e he := h.named e (hsub he)
  ahead e he := h.ahead e (hsub he)
  apart := h.apart.mono hsub

/-- The mode of the parser makes no difference to what has been drawn. -/
theorem turn (mode : Bool) (h : Drawn file C p) : Drawn file C { p with schemaMode := mode } :=
  ⟨h.sameFile, h.finish, h.order, h.named, h.ahead, h.apart⟩

/-- Going on to the next lexeme leaves what has been drawn behind. -/
theorem advance (h : Drawn file C p) : Drawn file C p.advance where
  sameFile := by rw [Parser.file_advance, h.sameFile]
  finish := by rw [Parser.finish_advance, h.finish]
  order := by
    rw [Parser.rest_advance]
    exact h.order.sublist (List.tail_sublist _)
  named := h.named
  ahead e he l hl := by
    rw [Parser.rest_advance] at hl
    exact h.ahead e he l (List.mem_of_mem_tail hl)
  apart := h.apart

/-- Where the source has not ended, the current lexeme is still to come. -/
theorem current_mem (h : Drawn file C p) (hp : p.current.token ≠ .finish) : p.current ∈ p.rest := by
  unfold Parser.current at hp ⊢
  cases hrest : p.rest with
  | nil =>
    rw [hrest] at hp
    exact absurd h.finish hp
  | cons x ls => exact List.mem_cons_self

/-- The next lexeme is before those behind it. -/
theorem current_before (h : Drawn file C p) : ∀ y ∈ p.advance.rest, p.current.Before file y := by
  intro y hy
  have horder := h.order
  rw [Parser.rest_advance] at hy
  unfold Parser.current
  cases hrest : p.rest with
  | nil =>
    rw [hrest] at hy
    cases hy
  | cons x ls =>
    rw [hrest] at hy horder
    exact List.rel_of_pairwise_cons horder hy

/-- The name that begins with the next lexeme is recorded, once the parser has left it. -/
theorem record (h : Drawn file C p) (hp : p.current.token ≠ .finish) (hq : Drawn file C q)
    (hwidth : ∀ y ∈ q.rest, (p.current.span file).Before l.width (y.span file)) :
    Drawn file (insert (l, p.current.span p.file) C) q := by
  rw [h.sameFile]
  refine ⟨hq.sameFile, hq.finish, hq.order, ?_, ?_, h.apart.insert fun e he => ?_⟩
  · rintro e (rfl | he)
    · rfl
    · exact h.named e he
  · rintro e (rfl | he)
    · exact hwidth
    · exact hq.ahead e he
  · exact h.ahead e he p.current (h.current_mem hp)

/-- A name is recorded when it is taken. -/
theorem take (h : Drawn file C p) (hp : p.current.token = .ident name) (hl : l.text = name) :
    Drawn file (insert (l, p.current.span p.file) C) p.advance := by
  have hp' : p.current.token ≠ .finish := by rw [hp]; exact Token.noConfusion
  refine h.record hp' h.advance fun y hy => ?_
  have hbefore := h.current_before y hy
  rwa [Lexeme.Before, hp, Token.width, ← hl] at hbefore

/-- A special name is recorded when its two parts are taken.  There may be a gap between them, and so
    the name takes at least as many columns as its text. -/
theorem take_special (h : Drawn file C p) (hp : p.current.token = .mark .hash)
    (hname : p.advance.current.token = .ident name) (hl : l.text = "#" ++ name) :
    Drawn file (insert (l, p.current.span p.file) C) p.advance.advance := by
  have hp' : p.current.token ≠ .finish := by rw [hp]; exact Token.noConfusion
  have hname' : p.advance.current.token ≠ .finish := by rw [hname]; exact Token.noConfusion
  have hwidth : l.width = 1 + name.toList.length := by
    rw [Label.width, hl, String.toList_append, List.length_append]
    rfl
  have hsign := h.current_before _ (h.advance.current_mem hname')
  rw [Lexeme.Before, hp] at hsign
  refine h.record hp' h.advance.advance fun y hy => ?_
  have hbefore := h.advance.current_before y hy
  rw [Lexeme.Before, hname] at hbefore
  rw [hwidth]
  exact hsign.trans hbefore

end Drawn

namespace Grammar

variable {α β : Type} {file : Option String} {C : Chart} {x : Grammar α} {D : α → Chart}

/-- The pace of reading while no name is recorded. -/
def charting (file : Option String) (C : Chart) : Pace := .steady (Drawn file C) .advance .turn

/-- **A rule records names**: from the chart before it leads to that of its result. -/
def Draws (file : Option String) (C : Chart) (x : Grammar α) (D : α → Chart) : Prop :=
  ∀ p a q, Drawn file C p → x p = .ok a q → Drawn file (D a) q

theorem Draws.apply {p q : Parser} {a : α} (hp : Drawn file C p) (hrun : x p = .ok a q)
    (h : Draws file C x D) : Drawn file (D a) q := h p a q hp hrun

/-- **One rule after the other draws what both draw.** -/
theorem Draws.bind {f : α → Grammar β} {E : β → Chart} (h : Draws file C x D)
    (hf : ∀ a, Draws file (D a) (f a) E) : Draws file C (x >>= f) E := by
  intro p b q hp hrun
  obtain ⟨a, p₁, ha, hrun⟩ := bind_eq_ok.mp hrun
  exact hf a p₁ b q (h p a p₁ hp ha) hrun

theorem Draws.mono {C' : Chart} (h : Draws file C x D) (hsub : C ⊆ C') : Draws file C' x D :=
  fun p a q hp hrun => h p a q (hp.mono hsub) hrun

theorem draws_pure {a : α} (h : D a ⊆ C) : Draws file C (pure a) D := by
  intro p b q hp hrun
  cases hrun
  exact hp.mono h

theorem draws_fail {cause : ParseCause} : Draws file C (fail cause) D :=
  fun _ _ _ _ hrun => by cases hrun

/-- What records no names keeps the chart. -/
theorem Leads.draws {Q : α → Nat → Prop} (h : Leads (charting file C) x Q) : Draws file C x fun _ => C := by
  intro p a q hp hrun
  obtain ⟨j, hq, -⟩ := h 0 p a q hp hrun
  exact hq

/-- Values are read at every pace. -/
def Uncharted (value : Grammar Value) : Prop := ∀ K, Leads K value fun _ _ => True

theorem uncharted_expression : Uncharted expression := fun _ =>
  (leads_expression (fun _ _ _ => trivial) defers_any).imp fun _ _ _ => trivial

theorem uncharted_rule : Uncharted rule := fun K =>
  (leads_rule (uncharted_expression K)).imp fun _ _ _ => trivial

/-- A name that is taken is recorded. -/
theorem draws_expectName {w : Wanted} (label : String → Label) (hl : ∀ name, (label name).text = name) :
    Draws file C (expectName w) fun r => insert (label r.1, r.2) C := by
  intro p r q hp hrun
  rw [expectName, peek_eq] at hrun
  generalize hname : p.current.token = t at hrun
  split at hrun
  next name =>
    cases hrun
    exact hp.take hname (hl name)
  next => cases hrun

/-! ## Sections -/

/-- A section with the names of a body. -/
def Body.sketch (name : String) (span : Span) (b : Body) : Section :=
  { name, span, keySpans := b.keySpans }

/-- A new property brings in its own name only. -/
theorem chart_sketch_insert (name : String) (span : Span) (b : Body) (key : String) (v : Value)
    (place : Span) :
    Section.chart (Body.sketch name span
        { b with properties := b.properties.insert key v, keySpans := b.keySpans.insert key place }) ⊆
      insert (⟨name, some key⟩, place) (b.sketch name span).chart := by
  rintro ⟨⟨n, k⟩, s⟩ ⟨hn, hplace⟩
  obtain rfl : n = name := hn
  cases k with
  | none => exact .inr ⟨rfl, hplace⟩
  | some k =>
    have hget : (b.keySpans.insert key place).get? k = some s := hplace
    by_cases hk : key = k
    · subst hk
      rw [Table.get?_insert_self] at hget
      cases hget
      exact .inl rfl
    · rw [Table.get?_insert_of_ne _ hk] at hget
      exact .inr ⟨rfl, hget⟩

/-- The names of a body are recorded one after the other. -/
theorem draws_bodyFrom {value : Grammar Value} (hvalue : Uncharted value) (name : String) (span : Span)
    (bound : Nat) (b : Body) : Draws file (C ∪ (b.sketch name span).chart) (bodyFrom value bound b)
      fun b => C ∪ (b.sketch name span).chart := by
  induction bound generalizing b with
  | zero => exact draws_pure subset_rfl
  | succ bound ih =>
    intro p b' q hp hrun
    rw [bodyFrom, peek_eq] at hrun
    generalize hkey : p.current.token = t at hrun
    split at hrun
    next =>
      cases hrun
      exact hp
    next =>
      cases hrun
      exact hp
    next =>
      have hentry : Draws file (C ∪ (b.sketch name span).chart) expression fun _ =>
          C ∪ (b.sketch name span).chart := (uncharted_expression _).draws
      exact hentry.bind (fun v => ih { b with registry := v :: b.registry }) p.advance b' q hp.advance hrun
    next key =>
      rw [here_bind, bump_bind] at hrun
      -- the name is recorded as soon as it is taken, and its value is read behind it
      have htaken := hp.take (l := ⟨name, some key⟩) hkey rfl
      generalize p.current.span p.file = place at htaken hrun
      refine Draws.apply (D := fun b => C ∪ (b.sketch name span).chart) htaken hrun ?_
      refine (passes_expect _ _).draws.bind fun _ => (hvalue _).draws.bind fun v => (ih _).mono ?_
      rw [← Set.union_insert]
      exact Set.union_subset_union_right C (chart_sketch_insert name span b key v place)
    next => cases hrun

/-- A section has the name of its header, which has been recorded, and those of its body. -/
theorem draws_sectionWith {value : Grammar Value} (hvalue : Uncharted value) (name : String)
    (ps : List String) (span : Span) : Draws file (insert (⟨name, none⟩, span) C)
      (sectionWith value name ps span) fun s => C ∪ s.chart := by
  -- before its body a section has the name of its header only
  have hstart : C ∪ (Body.sketch name span {}).chart ⊆ insert (⟨name, none⟩, span) C := by
    rintro ⟨⟨n, k⟩, s⟩ (he | ⟨hn, hplace⟩)
    · exact .inr he
    · obtain rfl : n = name := hn
      cases k with
      | none =>
        cases hplace
        exact .inl rfl
      | some k => cases hplace
  refine passes_remaining.draws.bind fun bound => ?_
  exact ((draws_bodyFrom hvalue name span (bound + 1) {}).mono hstart).bind fun b => draws_pure subset_rfl

/-! ## Documents -/

variable {d : Document}

/-- A section with a name of its own is drawn into the document. -/
theorem draws_namedSection : Draws file d.chart (namedSection d) Document.chart := by
  refine (draws_expectName (fun name => ⟨name, none⟩) fun _ => rfl).bind ?_
  rintro ⟨name, span⟩
  refine (passes_expect _ _).draws.bind fun _ => passes_parents.draws.bind fun ps => ?_
  refine passes_get.draws.bind fun p => ?_
  split
  · refine (draws_sectionWith uncharted_rule name ps span).bind fun s => draws_pure ?_
    exact Set.subset_union_left
  · refine (draws_sectionWith uncharted_expression name ps span).bind fun s => draws_pure ?_
    exact Document.chart_insertSection d s

/-- The name of a special section begins with its `#`. -/
theorem drawn_specialSection {p q : Parser} {d' : Document} (hp : Drawn file d.chart p)
    (hhash : p.current.token = .mark .hash) (hrun : specialSection d p = .ok d' q) :
    Drawn file d'.chart q := by
  rw [specialSection, here_bind, bump_bind, expectName, bind_assoc, peek_eq] at hrun
  generalize hname : p.advance.current.token = t at hrun
  split at hrun
  next name =>
    have htaken := hp.take_special (l := ⟨"#" ++ name, none⟩) hhash hname rfl
    generalize p.current.span p.file = span at htaken hrun
    rw [bind_assoc, here_bind, bind_assoc, bump_bind, pure_bind] at hrun
    refine Draws.apply htaken hrun ?_
    refine (passes_expect _ _).draws.bind fun _ => ?_
    split
    · have hsame : Draws file (insert (⟨"#" ++ name, none⟩, span) d.chart) (pure d) Document.chart :=
        draws_pure (Set.subset_insert _ _)
      refine passes_peek.draws.bind fun t => ?_
      split
      · exact (passes_turn _).draws.bind fun _ => hsame
      · exact (passes_turn _).draws.bind fun _ => hsame
      · exact draws_fail.bind fun _ => hsame
    · split
      · refine (draws_sectionWith uncharted_expression _ [] span).bind fun s => draws_pure ?_
        exact Document.chart_insertSection d s
      · intro p a q _ hrun
        cases hrun
  next => cases hrun

/-- **The sections of a document are drawn one after the other**: each begins behind those before it. -/
theorem draws_sectionsFrom (bound : Nat) (d : Document) :
    Draws file d.chart (sectionsFrom bound d) Document.chart := by
  induction bound generalizing d with
  | zero => exact draws_pure subset_rfl
  | succ bound ih =>
    intro p d' q hp hrun
    rw [sectionsFrom, peek_eq] at hrun
    generalize p.current.token = t at hrun
    split at hrun
    next =>
      cases hrun
      exact hp
    next =>
      rw [bump_bind, sees_eq] at hrun
      split at hrun
      next hhash =>
        obtain ⟨d₁, p₁, hsection, hrun⟩ := bind_eq_ok.mp hrun
        have hp₁ := drawn_specialSection hp.advance (of_decide_eq_true hhash) hsection
        exact ih d₁ p₁ d' q hp₁ hrun
      next => exact (draws_namedSection.bind fun d₁ => ih d₁) p.advance d' q hp.advance hrun
    next => cases hrun

end Grammar

/-- **In a document that is read no two names overlap**, and all stand in its file. -/
theorem Document.charted_of_ofSource {file : Option String} {text : String} {d : Document}
    (h : ofSource file text = .ok d) : d.Charted file := by
  obtain ⟨p, q, hp, hrun⟩ := ofSource_eq_ok.mp h
  obtain ⟨ws, last, hfaces⟩ := Parser.faces_ofSource hp
  obtain ⟨ls, finish, hread, rfl⟩ := Parser.ofSource_eq_ok hp
  have hstart : Drawn file Document.empty.chart (.start file text.toList ls finish) := by
    rw [chart_empty]
    refine ⟨rfl, hfaces.finish, Lexeme.pairwise_before hread, ?_, ?_, ?_⟩
    · exact fun e he => he.elim
    · exact fun e he => he.elim
    · exact fun e he => he.elim
  have hend : Grammar.Draws file Document.empty.chart Grammar.document Document.chart :=
    Grammar.passes_remaining.draws.bind fun bound => Grammar.draws_sectionsFrom (bound + 1) .empty
  have hdrawn := hend _ d q hstart hrun
  exact ⟨hdrawn.apart, hdrawn.named⟩

end Yini
