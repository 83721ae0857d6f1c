import Yini.Proofs.Grammar.Legible
import Yini.Value.Text

/-!
Texts in words.

A text is *shown* by words if it is what they are written in, and they are cut right whatever quiet
characters follow (`Shown`).  Such words can be put one after the other where the second text begins
quietly (`Shown.append`), or behind a mark (`Shown.behind_mark`).  Here are the words of names, of
quoted texts and of numerals.
-/

namespace Yini

/-! ## Words one after the other -/

/-- A quiet text stays so when another quiet one follows. -/
theorem Quiet.append {cs ds : List Char} (h : Quiet cs) (hds : Quiet ds) : Quiet (cs ++ ds) := by
  cases cs with
  | nil => exact hds
  | cons c cs => exact h

/-- **The words that a text is written in**, before anything quiet. -/
structure Shown (text : List Char) (ws : List Word) : Prop where
  written : written ws = text
  cut : ∀ {last : List Char}, Quiet last → Cut ws last

/-- The words with more of a gap before the first one. -/
def indent (gap : List Char) : List Word → List Word
  | [] => []
  | w :: ws => { w with gap := gap ++ w.gap } :: ws

/-- Indented words have another gap before the first one, and nothing else has changed. -/
theorem exists_regap_of_indent (gap : List Char) (ws : List Word) :
    ∃ gap', indent gap ws = regap gap' ws := by
  cases ws with
  | nil => exact ⟨[], rfl⟩
  | cons w ws => exact ⟨gap ++ w.gap, rfl⟩

/-- Only no words become none when they are indented. -/
theorem indent_eq_nil {gap : List Char} {ws : List Word} : indent gap ws = [] ↔ ws = [] := by
  cases ws <;> simp [indent]

/-- Only the first words are indented when others follow. -/
theorem indent_append {ws : List Word} (hne : ws ≠ []) (gap : List Char) (ws' : List Word) :
    indent gap (ws ++ ws') = indent gap ws ++ ws' := by
  cases ws with
  | nil => exact absurd rfl hne
  | cons => rfl

namespace Shown

variable {text text' gap : List Char} {ws ws' : List Word}

theorem nil : Shown [] [] := ⟨rfl, fun _ => trivial⟩

/-- **Texts one after the other** are shown by their words one after the other, if the second text is quiet.
    -/
theorem append (h : Shown text ws) (h' : Shown text' ws') (hquiet : Quiet text') :
    Shown (text ++ text') (ws ++ ws') where
  written := by rw [written_append, h.written, h'.written]
  cut hlast := cut_append.mpr ⟨h.cut (by rw [h'.written]; exact hquiet.append hlast), h'.cut hlast⟩

/-- A parser of the text faces the words. -/
theorem ofSource (h : Shown text ws) (file : Option String) :
    ∃ p, Parser.ofSource file (String.ofList text) = .ok p ∧ p.Faces ⟨text, [], false⟩ ws := by
  have hwritten : (String.ofList text).toList = Yini.written ws := by rw [String.toList_ofList, h.written]
  obtain ⟨p, hp, hfaces⟩ := Parser.ofSource_of_words file hwritten (h.cut quiet_nil)
  rw [String.toList_ofList] at hfaces
  exact ⟨p, hp, hfaces⟩

/-- White space may stand before words. -/
theorem indent (h : Shown text ws) (gap : List Char) (hne : ws ≠ []) (hgap : gap.all Text.isBlank) :
    Shown (gap ++ text) (Yini.indent gap ws) := by
  obtain ⟨w, ws, rfl⟩ := List.exists_cons_of_ne_nil hne
  refine ⟨?_, fun hlast => ?_⟩
  · rw [← h.written]
    simp only [Yini.indent, written_cons, List.append_assoc]
  · obtain ⟨⟨hfills, hstarts, hspells⟩, hcut⟩ := h.cut hlast
    refine ⟨⟨?_, hstarts, hspells⟩, hcut⟩
    clear h
    induction gap with
    | nil => exact hfills
    | cons c gap ih =>
      rw [List.all_cons, Bool.and_eq_true] at hgap
      exact .blank hgap.1 (ih hgap.2)

end Shown

/-! ## Marks -/

/-- A mark without a gap before it. -/
def Mark.word (m : Mark) : Word := ⟨[], .mark m, m.text.toList⟩

/-- Most marks end wherever they stand. -/
theorem Mark.before {m : Mark} (hm : m ∉ [.plus, .slash]) (rest : List Char) :
    m.word.Before rest := by
  refine ⟨.done, ?_, ?_⟩
  · cases m <;> first | exact absurd hm (by decide) |
      exact (opensGap_of_ne_slash (by decide)).trans (by decide)
  · cases m with
    | append => exact .append rest
    | plus => exact absurd hm (by decide)
    | _ => exact .mark rfl fun hplus => absurd hplus (by decide)

/-- A mark ends before what is quiet. -/
theorem Mark.before_quiet (m : Mark) {rest : List Char} (hrest : Quiet rest) : m.word.Before rest := by
  have hnot : ∀ c ∈ ['.', '=', '/', '*'], rest.head? ≠ some c := fun c hc hhead =>
    (hrest c hhead).2 hc
  by_cases hm : m ∈ [Mark.plus, Mark.slash]
  · simp only [List.mem_cons, List.not_mem_nil, or_false] at hm
    rcases hm with rfl | rfl
    · exact ⟨.done, (opensGap_of_ne_slash (by decide)).trans (by decide),
        .mark rfl fun _ => hnot '=' (by decide)⟩
    · refine ⟨.done, ?_, .mark rfl fun hplus => absurd hplus (by decide)⟩
      cases rest with
      | nil => rfl
      | cons c rest =>
        show opensGap ('/' :: c :: rest) = false
        rw [opensGap]
        · decide
        · rintro ds - heq
          exact hnot '/' (by decide) (congrArg List.head? heq)
        · rintro ds - heq
          exact hnot '*' (by decide) (congrArg List.head? heq)
  · exact m.before hm rest

/-- Most marks are quiet themselves. -/
theorem Mark.quiet {m : Mark} (hm : m ∉ [.point, .assign, .slash, .star]) : Quiet m.text.toList := by
  cases m <;> first | exact absurd hm (by decide) | exact quiet_cons (by decide) (by decide) _

theorem quiet_blank {c : Char} (hc : Text.isBlank c = true) (cs : List Char) : Quiet (c :: cs) := by
  refine quiet_cons (Bool.eq_false_iff.mpr fun h => ?_) (fun hmem => ?_) cs
  · rw [Text.not_isBlank_of_continuesName h] at hc
    cases hc
  · simp only [List.mem_cons, List.not_mem_nil, or_false] at hmem
    rcases hmem with rfl | rfl | rfl | rfl <;> exact absurd hc (by decide)

namespace Shown

variable {text : List Char} {ws : List Word} {m : Mark}

theorem mark (m : Mark) : Shown m.text.toList [m.word] :=
  ⟨by simp [Mark.word], fun hlast => ⟨m.before_quiet hlast, trivial⟩⟩

/-- Words behind a mark. -/
theorem behind_mark (h : Shown text ws) (hm : m ∉ [.plus, .slash]) :
    Shown (m.text.toList ++ text) (m.word :: ws) :=
  ⟨by rw [written_cons, h.written]; rfl, fun hlast => ⟨m.before hm _, h.cut hlast⟩⟩

/-- Words before a mark. -/
theorem before_mark (h : Shown text ws) (hm : m ∉ [.point, .assign, .slash, .star]) :
    Shown (text ++ m.text.toList) (ws ++ [m.word]) :=
  h.append (mark m) (Mark.quiet hm)

end Shown

/-! ## Single tokens -/

/-- No gap begins with a token that is no mark. -/
theorem Token.Spells.starts {text rest more : List Char} {t : Token} (h : Spells text t rest)
    (ht : ∀ m, t ≠ .mark m) : opensGap (text ++ more) = false := by
  have hname : ∀ {c : Char} (cs : List Char), Text.continuesName c = true →
      opensGap (c :: cs) = false := by
    intro c cs hc
    rw [opensGap_of_ne_slash]
    · exact Text.not_isBlank_of_continuesName hc
    · rintro rfl
      exact absurd hc (by decide)
  have hdigits : ∀ {digits more : List Char}, digits ≠ [] → (∀ c ∈ digits, c.isDigit) →
      opensGap (digits ++ more) = false := by
    intro digits more hne hdigits
    obtain ⟨c, cs, rfl⟩ := List.exists_cons_of_ne_nil hne
    exact hname _ (Text.continuesName_of_isDigit (hdigits c List.mem_cons_self))
  cases h with
  | append => exact absurd rfl (ht _)
  | mark => exact absurd rfl (ht _)
  | string => exact (opensGap_of_ne_slash (by decide)).trans (by decide)
  | whole hne hall => exact hdigits hne hall
  | decimal hne _ hall =>
    rw [List.append_assoc]
    exact hdigits hne hall
  | word _ _ hstart => exact hname _ (Text.continuesName_of_startsName hstart)

/-- A token that stands alone. -/
theorem Shown.token {text : List Char} {t : Token} (h : Token.Spells text t [])
    (ht : ∀ m, t ≠ .mark m) : Shown text [⟨[], t, text⟩] where
  written := by simp
  cut hlast := ⟨⟨.done, h.starts ht, Token.Spells.quiet (by rwa [List.append_nil]) hlast⟩, trivial⟩

/-- A name as a word. -/
def nameWord (s : String) : Word := ⟨[], .ident s, s.toList⟩

/-- The word of a name ends where no character follows that continues a name. -/
theorem IsName.before {s : String} (h : IsName s) {rest : List Char}
    (hrest : ∀ c, rest.head? = some c → Text.continuesName c = false) : (nameWord s).Before rest :=
  ⟨.done, Token.Spells.starts h fun _ => Token.noConfusion, spells_ident_iff.mpr ⟨rfl, h, hrest⟩⟩

theorem IsName.shown {s : String} (h : IsName s) : Shown s.toList [nameWord s] :=
  .token h fun _ => Token.noConfusion

/-! ## Quoted texts -/

/-- **Escaped characters are read back**, whatever has been read before them. -/
theorem scanString_escape (cs rest acc : List Char) (n : Nat) :
    Token.scanString (cs.flatMap escape ++ rest) acc n
      = Token.scanString rest (cs.reverse ++ acc) (n + (cs.flatMap escape).length) := by
  have hchar : ∀ (c : Char) (rest acc : List Char) (n : Nat),
      Token.scanString (escape c ++ rest) acc n
        = Token.scanString rest (c :: acc) (n + (escape c).length) := by
    intro c rest acc n
    unfold escape
    split
    case h_6 c hquote hslash _ _ _ =>
      rw [List.singleton_append, Token.scanString]
      · rfl
      · exact hquote
      · exact fun _ _ h _ => hslash h
    all_goals rfl
  induction cs generalizing acc n with
  | nil => rfl
  | cons c cs ih =>
    rw [List.flatMap_cons, List.append_assoc, hchar, ih, List.reverse_cons, List.append_assoc,
      List.length_append, Nat.add_assoc]
    rfl

/-- A quoted text: its characters, escaped, between two quotation marks. -/
theorem toList_quote (s : String) : (quote s).toList = '"' :: (s.toList.flatMap escape ++ ['"']) := by
  rw [quote, String.toList_ofList]
  rfl

/-- **A quoted text** is one word. -/
theorem shown_quote (s : String) :
    Shown (quote s).toList [⟨[], .string s, (quote s).toList⟩] := by
  refine .token ?_ fun _ => Token.noConfusion
  have hscan : Token.scanString (s.toList.flatMap escape ++ ['"']) [] 1
      = some (s.toList, 1 + (s.toList.flatMap escape ++ ['"']).length) := by
    rw [scanString_escape, Token.scanString, List.append_nil, List.reverse_reverse,
      List.length_append]
    rfl
  have hspells : Token.Spells _ _ [] := .string hscan
  rwa [String.ofList_toList, ← toList_quote] at hspells

/-! ## Numerals -/

/-- Digits are one word. -/
theorem shown_digits {digits : List Char} (hne : digits ≠ []) (hdigits : ∀ c ∈ digits, c.isDigit) :
    Shown digits [⟨[], .number (String.ofList digits), digits⟩] :=
  .token (.whole hne hdigits (fun _ h => by cases h) fun _ _ h => by cases h) fun _ => Token.noConfusion

/-- Digits with a point between them are one word. -/
theorem shown_decimal {whole fraction : List Char} (hne : whole ≠ []) (hfraction : fraction ≠ [])
    (hdigits : ∀ c ∈ whole, c.isDigit) (hfractions : ∀ c ∈ fraction, c.isDigit) :
    Shown (whole ++ '.' :: fraction)
      [⟨[], .number (String.ofList (whole ++ '.' :: fraction)), whole ++ '.' :: fraction⟩] :=
  .token (.decimal hne hfraction hdigits hfractions fun _ h => by cases h) fun _ => Token.noConfusion

end Yini
