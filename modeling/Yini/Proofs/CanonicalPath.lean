import Mathlib.Data.List.DropRight
import Mathlib.Data.List.Induction
import Mathlib.Data.List.Infix
import Yini.Proofs.Path

/-!
Canonical paths.

What a normal path looks like is said of its text alone (`Path.IsNormal`).  The texts of places look so
(`Location.IsTidy.isNormal_text`), and a text that looks so is the text of the place where it leads
(`Path.IsNormal.text_location`).  So normalizing a path gives the one normal text that leads where the path
leads (`Path.normalize_eq_iff`), and two paths have the same one exactly when they lead to the same place
(`Path.normalize_canonical`).

The normal text can also be worked out on texts, without places: each component of the path is put behind
the text so far, or takes the last name away from it, and what the text so far ends with is read from it
again each time (`Path.advance`).  The text so far is then the text of the place so far
(`Location.IsTidy.advance_text`), which carries the induction over the components (`Path.foldl_advance`).
-/

namespace Yini

/-! ## Texts that look normal -/

namespace Path

/-- Two lists of pieces are joined by one more separator. -/
theorem intercalate_append {ps qs : List (List Char)} (hps : ps ≠ []) (hqs : qs ≠ []) :
    ['/'].intercalate (ps ++ qs) = ['/'].intercalate ps ++ '/' :: ['/'].intercalate qs := by
  induction ps with
  | nil => exact absurd rfl hps
  | cons p ps ih =>
    cases ps with
    | nil =>
      rw [List.singleton_append, List.intercalate_cons_of_ne_nil hqs, List.intercalate_singleton,
        List.append_assoc, List.singleton_append]
    | cons p' ps =>
      have hne : p' :: ps ++ qs ≠ [] := List.cons_ne_nil _ _
      rw [List.cons_append, List.intercalate_cons_of_ne_nil hne, ih (List.cons_ne_nil _ _),
        List.intercalate_cons_of_ne_nil (List.cons_ne_nil _ _), List.append_assoc, List.append_assoc,
        List.append_assoc]

/-- The pieces of a text with separators between them are the text. -/
theorem intercalate_pieces (cs : List Char) : ['/'].intercalate (pieces cs) = cs := by
  induction cs with
  | nil => rfl
  | cons c cs ih =>
    rw [pieces]
    split
    next hc => rw [List.intercalate_cons_of_ne_nil (pieces_ne_nil cs), ih, hc]; rfl
    next =>
      split
      next hnil => exact absurd hnil (pieces_ne_nil cs)
      next p ps hcs =>
        rw [hcs] at ih
        cases ps with
        | nil => rw [← ih, List.intercalate_singleton, List.intercalate_singleton]
        | cons q qs =>
          rw [← ih, List.intercalate_cons_of_ne_nil (List.cons_ne_nil _ _),
            List.intercalate_cons_of_ne_nil (List.cons_ne_nil _ _)]
          rfl

/-- An empty piece is all there is, or stands in front of a first separator, between two of them, or behind a
    last one. -/
theorem nil_mem_pieces {cs : List Char} (h : [] ∈ pieces cs) :
    cs = [] ∨ ['/'] <+: cs ∨ ['/', '/'] <:+: cs ∨ ['/'] <:+ cs := by
  obtain ⟨ps, qs, hpieces⟩ := List.mem_iff_append.mp h
  have hcs := intercalate_pieces cs
  rw [hpieces] at hcs
  -- the empty piece has others on neither side, only behind it, only in front of it or on both sides
  by_cases hps : ps = []
  · by_cases hqs : qs = []
    · exact .inl (by rw [← hcs, hps, hqs]; rfl)
    · refine .inr (.inl ⟨['/'].intercalate qs, ?_⟩)
      rw [← hcs, hps, List.nil_append, List.intercalate_cons_of_ne_nil hqs]
      rfl
  · rw [intercalate_append hps (List.cons_ne_nil _ _)] at hcs
    by_cases hqs : qs = []
    · refine .inr (.inr (.inr ⟨['/'].intercalate ps, ?_⟩))
      rw [← hcs, hqs, List.intercalate_singleton]
    · refine .inr (.inr (.inl ⟨['/'].intercalate ps, ['/'].intercalate qs, ?_⟩))
      rw [← hcs, List.intercalate_cons_of_ne_nil hqs, List.append_assoc]
      rfl

/-- **A normal text**, said of its characters and of what stands between its separators. -/
structure IsNormal (text : String) : Prop where
  /-- There is no component `.`. -/
  noPoint : ['.'] ∉ pieces text.toList
  /-- No separator is repeated. -/
  single : ¬['/', '/'] <:+: text.toList
  /-- A separator at the end is the root, and has nothing in front of it. -/
  closed : ∀ cs, text.toList = cs ++ ['/'] → cs = []
  /-- Components `..` belong to relative paths, and there is nothing else in front of them. -/
  upsFirst : ∀ before after, pieces text.toList = before ++ ['.', '.'] :: after →
    isAbsolute text = false ∧ ∀ p ∈ before, p = ['.', '.']

theorem isNormal_empty : IsNormal "" where
  noPoint := by decide
  single := by decide
  closed cs h := by simp at h
  upsFirst before after h := by
    have hmem : ['.', '.'] ∈ pieces "".toList := h ▸ List.mem_append_right _ List.mem_cons_self
    exact absurd hmem (by decide)

theorem isNormal_root : IsNormal "/" where
  noPoint := by decide
  single := by decide
  closed cs h := List.self_eq_append_left.mp h
  upsFirst before after h := by
    have hmem : ['.', '.'] ∈ pieces "/".toList := h ▸ List.mem_append_right _ List.mem_cons_self
    exact absurd hmem (by decide)

end Path

open Yini.Path

/-! ## Texts of places -/

namespace Location

variable {l : Location}

theorem text_of_steps_nil (h : l.steps = []) : l.text = if l.absolute then "/" else "" := by
  rw [← String.toList_inj, toList_text, h]
  split <;> rfl

/-- **The pieces of the text of a place** are its steps, behind an empty one at the root. -/
theorem IsTidy.pieces_text (h : l.IsTidy) (hsteps : l.steps ≠ []) :
    pieces l.text.toList = (if l.absolute then [[]] else []) ++ l.steps.map Step.piece := by
  rw [toList_text]
  split
  next => exact congrArg ([] :: ·) (pieces_steps hsteps h.isSaid)
  next => exact pieces_steps hsteps h.isSaid

/-- Behind the root no piece is empty. -/
theorem IsTidy.pieces_text_ne (h : l.IsTidy) (hsteps : l.steps ≠ []) {ps qs : List (List Char)} (hps : ps ≠ []) :
    pieces l.text.toList ≠ ps ++ [] :: qs := by
  intro hpieces
  rw [h.pieces_text hsteps] at hpieces
  have hmem : [] ∈ l.steps.map Step.piece := by
    cases habsolute : l.absolute with
    | false =>
      rw [habsolute, if_neg Bool.false_ne_true, List.nil_append] at hpieces
      rw [hpieces]
      exact List.mem_append_right _ List.mem_cons_self
    | true =>
      obtain ⟨p, ps, rfl⟩ := List.exists_cons_of_ne_nil hps
      rw [habsolute, if_pos rfl] at hpieces
      have htail : l.steps.map Step.piece = ps ++ [] :: qs := (List.cons.inj hpieces).2
      rw [htail]
      exact List.mem_append_right _ List.mem_cons_self
  obtain ⟨s, hs, hpiece⟩ := List.mem_map.mp hmem
  exact (h.isSaid s hs).piece_ne_nil hpiece

/-- Only the root ends with a separator. -/
theorem IsTidy.toList_text_ne (h : l.IsTidy) (hsteps : l.steps ≠ []) (cs : List Char) :
    l.text.toList ≠ cs ++ ['/'] := by
  intro htext
  have hpieces : pieces l.text.toList = pieces cs ++ [[]] := by
    rw [htext]
    exact pieces_append_slash cs []
  exact h.pieces_text_ne hsteps (pieces_ne_nil cs) hpieces

/-- No name is `..`. -/
theorem IsTidy.points_not_mem (h : l.IsTidy) : ['.', '.'] ∉ l.names.reverse.map String.toList := by
  intro hmem
  obtain ⟨name, hname, hpoints⟩ := List.mem_map.mp hmem
  have hreads := (h.said name (List.mem_reverse.mp hname)).reads
  rw [show (Step.into name).piece = ['.', '.'] from hpoints] at hreads
  cases hreads

/-- The steps that lead to a place are written as points and names. -/
theorem map_piece_steps (l : Location) :
    l.steps.map Step.piece = List.replicate l.ups ['.', '.'] ++ l.names.reverse.map String.toList := by
  rw [steps, List.map_append, List.map_replicate, List.map_map]
  rfl

/-- Only a relative place is above the directory where the path starts, and the steps up come first. -/
theorem IsTidy.upsFirst_text (h : l.IsTidy) (hsteps : l.steps ≠ []) {before after : List (List Char)}
    (hpieces : pieces l.text.toList = before ++ ['.', '.'] :: after) :
    l.absolute = false ∧ ∀ p ∈ before, p = ['.', '.'] := by
  rw [h.pieces_text hsteps, map_piece_steps, ← List.append_assoc] at hpieces
  rcases List.append_eq_append_iff.mp hpieces with ⟨names, -, hnames⟩ | ⟨ups, hups, hafter⟩
  · refine absurd ?_ h.points_not_mem
    rw [hnames]
    exact List.mem_append_right _ List.mem_cons_self
  · -- the component stands among the steps up, since it is no name
    have hmem : ['.', '.'] ∈ ups := by
      rcases List.mem_append.mp (hafter ▸ List.mem_cons_self) with hmem | hmem
      · exact hmem
      · exact absurd hmem h.points_not_mem
    cases habsolute : l.absolute with
    | true =>
      rw [habsolute, h.root habsolute] at hups
      have hroot : ['.', '.'] ∈ [[]] ++ List.replicate 0 ['.', '.'] := hups ▸ List.mem_append_right _ hmem
      exact absurd hroot (by decide)
    | false =>
      rw [habsolute, if_neg Bool.false_ne_true, List.nil_append] at hups
      exact ⟨rfl, fun p hp => List.eq_of_mem_replicate (hups ▸ List.mem_append_left _ hp)⟩

/-- **The text of a place looks normal.** -/
theorem IsTidy.isNormal_text (h : l.IsTidy) : IsNormal l.text := by
  by_cases hsteps : l.steps = []
  · rw [text_of_steps_nil hsteps]
    split
    next => exact isNormal_root
    next => exact isNormal_empty
  · refine ⟨fun hmem => ?_, ?_, fun cs htext => ?_, fun before after hpieces => ?_⟩
    · rw [h.pieces_text hsteps] at hmem
      rcases List.mem_append.mp hmem with hmem | hmem
      · cases habsolute : l.absolute <;> simp [habsolute] at hmem
      · obtain ⟨s, hs, hpiece⟩ := List.mem_map.mp hmem
        exact (h.isSaid s hs).piece_ne_point hpiece
    · rintro ⟨cs, ds, htext⟩
      have hpieces : pieces l.text.toList = pieces cs ++ [] :: pieces ds := by
        rw [← htext, List.append_assoc]
        exact pieces_append_slash cs ('/' :: ds)
      exact h.pieces_text_ne hsteps (pieces_ne_nil cs) hpieces
    · exact absurd htext (h.toList_text_ne hsteps cs)
    · rw [h.isAbsolute_text]
      exact h.upsFirst_text hsteps hpieces

/-- Steps that go up first are the steps of the place where they lead. -/
theorem steps_foldl {absolute : Bool} {ss : List Step}
    (h : ∀ before after, ss = before ++ .up :: after → absolute = false ∧ ∀ s ∈ before, s = .up) :
    (ss.foldl step ⟨absolute, 0, []⟩).steps = ss := by
  induction ss using List.reverseRecOn with
  | nil => rfl
  | append_singleton ss s ih =>
    have hss := ih fun before after heq =>
      h before (after ++ [s]) (by rw [heq, List.append_assoc, List.cons_append])
    rw [List.foldl_append, List.foldl_cons, List.foldl_nil]
    cases s with
    | into name => rw [steps_into, hss]
    | up =>
      -- in front of a step up there are only steps up, so there is no name yet to take back
      obtain ⟨hrelative, hups⟩ := h ss [] rfl
      have hnames : (ss.foldl step ⟨absolute, 0, []⟩).names = [] := by
        cases hnames : (ss.foldl step ⟨absolute, 0, []⟩).names with
        | nil => rfl
        | cons name names =>
          rw [steps_up_of_cons hnames] at hss
          cases hups (.into name) (hss ▸ List.mem_append_right _ List.mem_cons_self)
      rw [steps_up_of_nil ((absolute_foldl ss _).trans hrelative) hnames, hss]

end Location

/-! ## Normal texts are texts of places -/

namespace Step

/-- Every piece that is neither empty nor a point says a step. -/
theorem exists_of_piece {p : List Char} (hnil : p ≠ []) (hpoint : p ≠ ['.']) :
    ∃ s, ofPiece? p = some s ∧ s.piece = p := by
  by_cases hpoints : p = ['.', '.']
  · exact ⟨up, hpoints ▸ rfl, hpoints.symm⟩
  · refine ⟨into (String.ofList p), ?_, String.toList_ofList⟩
    rw [ofPiece?]
    · exact hnil
    · exact hpoint
    · exact hpoints

/-- Pieces that are neither empty nor `.` are the pieces of steps. -/
theorem map_piece_filterMap {ps : List (List Char)} (h : ∀ p ∈ ps, p ≠ [] ∧ p ≠ ['.']) :
    (ps.filterMap ofPiece?).map piece = ps := by
  induction ps with
  | nil => rfl
  | cons p ps ih =>
    obtain ⟨⟨hnil, hpoint⟩, hps⟩ := List.forall_mem_cons.mp h
    obtain ⟨s, hs, hpiece⟩ := exists_of_piece hnil hpoint
    rw [List.filterMap_cons_some hs, List.map_cons, hpiece, ih hps]

end Step

namespace Path

variable {text : String} {cs : List Char}

/-- A text is what stands behind its root, and the root. -/
theorem exists_behind_root (text : String) :
    ∃ cs, text.toList = (if isAbsolute text then ['/'] else []) ++ cs ∧
      (isAbsolute text = false → ¬['/'] <+: cs) := by
  unfold isAbsolute
  split
  next cs htext => exact ⟨cs, htext, nofun⟩
  next hne =>
    refine ⟨text.toList, rfl, fun _ => ?_⟩
    rintro ⟨cs, htext⟩
    exact hne cs htext.symm

/-- The separator at the root leaves an empty piece. -/
theorem pieces_behind_root (htext : text.toList = (if isAbsolute text then ['/'] else []) ++ cs) :
    pieces text.toList = (if isAbsolute text then [[]] else []) ++ pieces cs := by
  rw [htext]
  split <;> rfl

/-- The steps of a text are those of what stands behind the root. -/
theorem steps_behind_root (htext : text.toList = (if isAbsolute text then ['/'] else []) ++ cs) :
    (ofText text).steps = (pieces cs).filterMap Step.ofPiece? := by
  rw [ofText, pieces_behind_root htext]
  split <;> rfl

section BehindRoot

variable (h : IsNormal text) (htext : text.toList = (if isAbsolute text then ['/'] else []) ++ cs)
  (hroot : isAbsolute text = false → ¬['/'] <+: cs)

include h htext hroot

/-- Behind the root of a normal text no piece is empty or `.`. -/
theorem IsNormal.said_pieces (hcs : cs ≠ []) : ∀ p ∈ pieces cs, p ≠ [] ∧ p ≠ ['.'] := by
  intro p hp
  refine ⟨?_, ?_⟩
  · rintro rfl
    rcases nil_mem_pieces hp with hnil | ⟨ds, hfirst⟩ | hinside | ⟨ds, hlast⟩
    · exact hcs hnil
    · cases habsolute : isAbsolute text with
      | false => exact hroot habsolute ⟨ds, hfirst⟩
      | true =>
        refine h.single ⟨[], ds, ?_⟩
        rw [htext, habsolute, ← hfirst]
        rfl
    · exact h.single (htext ▸ hinside.trans (List.suffix_append _ _).isInfix)
    · -- the text ends with a separator, so it is the root, with nothing behind it
      rw [← hlast, ← List.append_assoc] at htext
      obtain ⟨hnoRoot, rfl⟩ := List.append_eq_nil_iff.mp (h.closed _ htext)
      cases habsolute : isAbsolute text with
      | false => exact hroot habsolute ⟨[], hlast⟩
      | true => rw [habsolute] at hnoRoot; cases hnoRoot
  · rintro rfl
    refine h.noPoint ?_
    rw [pieces_behind_root htext]
    exact List.mem_append_right _ hp

theorem IsNormal.map_piece_steps (hcs : cs ≠ []) : (ofText text).steps.map Step.piece = pieces cs := by
  rw [steps_behind_root htext, Step.map_piece_filterMap (h.said_pieces htext hroot hcs)]

/-- In a normal text steps up come first, and only in a relative one. -/
theorem IsNormal.upsFirst_steps {before after : List Step}
    (hsteps : (ofText text).steps = before ++ .up :: after) :
    isAbsolute text = false ∧ ∀ s ∈ before, s = .up := by
  by_cases hcs : cs = []
  · rw [steps_behind_root htext, hcs] at hsteps
    exact absurd (List.append_eq_nil_iff.mp hsteps.symm).2 (List.cons_ne_nil _ _)
  · have hpieces : pieces text.toList = ((if isAbsolute text then [[]] else []) ++ before.map Step.piece) ++
        ['.', '.'] :: after.map Step.piece := by
      rw [pieces_behind_root htext, ← h.map_piece_steps htext hroot hcs, hsteps, List.map_append,
        List.append_assoc]
      rfl
    obtain ⟨hrelative, hups⟩ := h.upsFirst _ _ hpieces
    refine ⟨hrelative, fun s hs => ?_⟩
    have hreads := (isSaid_of_mem_steps (hsteps ▸ List.mem_append_left _ hs)).reads
    rw [hups s.piece (List.mem_append_right _ (List.mem_map_of_mem hs))] at hreads
    exact (Option.some.inj hreads).symm

end BehindRoot

/-- **A normal text is the text of the place where it leads.** -/
theorem IsNormal.text_location (h : IsNormal text) : (ofText text).location.text = text := by
  obtain ⟨cs, htext, hroot⟩ := exists_behind_root text
  have hsteps : (ofText text).location.steps = (ofText text).steps :=
    Location.steps_foldl fun before after heq => h.upsFirst_steps htext hroot heq
  have hinner : ['/'].intercalate ((ofText text).steps.map Step.piece) = cs := by
    by_cases hcs : cs = []
    · rw [steps_behind_root htext, hcs]
      rfl
    · rw [h.map_piece_steps htext hroot hcs, intercalate_pieces]
  rw [← String.toList_inj, Location.toList_text, hsteps, hinner, absolute_location, htext]
  rfl

/-! ## One normal text for each place -/

theorem isTidy_ofText (text : String) : (ofText text).location.IsTidy :=
  isTidy_location fun _ => isSaid_of_mem_steps

/-- **What has been normalized is normal.** -/
theorem isNormal_normalize (path : String) : IsNormal (normalize path) := (isTidy_ofText path).isNormal_text

/-- The normal text leads where the path leads. -/
theorem location_normalize (path : String) : (ofText (normalize path)).location = (ofText path).location :=
  (isTidy_ofText path).location_text

/-- **The normal text of a path** is the only normal one that leads where the path leads. -/
theorem normalize_eq_iff (path text : String) :
    normalize path = text ↔ IsNormal text ∧ (ofText text).location = (ofText path).location := by
  constructor
  · rintro rfl
    exact ⟨isNormal_normalize path, location_normalize path⟩
  · rintro ⟨htext, hlocation⟩
    rw [normalize, ← hlocation, htext.text_location]

end Path

/-! ## Component by component -/

/-- What a path is read as, one after the other. -/
inductive Component where
  | root
  | point
  | step (s : Step)
deriving DecidableEq

namespace Path

/-- The root or the point that a text starts with.  Points further behind are not read. -/
def lead : List Char → List Component
  | '/' :: _ => [.root]
  | ['.'] => [.point]
  | '.' :: '/' :: _ => [.point]
  | _ => []

/-- What stands behind the root or the point, which are one character each. -/
def behindLead (cs : List Char) : List Char := cs.drop (lead cs).length

/-- The components of a text. -/
def components (text : String) : List Component :=
  lead text.toList ++ ((pieces (behindLead text.toList)).filterMap Step.ofPiece?).map .step

/-- Pieces without those at the end that are no steps. -/
def trimmed (ps : List (List Char)) : List (List Char) := ps.rdropWhile fun p => (Step.ofPiece? p).isNone

/-- The text without its last step, and without the separators and points in front of that. -/
def pop (text : String) : String :=
  let cs := text.toList
  let kept := trimmed (trimmed (pieces (behindLead cs))).dropLast
  String.ofList (cs.take (lead cs).length ++ ['/'].intercalate kept)

/-- The text so far, one component further.  A step up takes a name at the end away, does nothing at the root,
    and is put behind anything else. -/
def advance (text : String) : Component → String
  | .root => join text "/"
  | .point => text
  | .step (.into name) => join text name
  | .step .up =>
    match (components text).getLast? with
    | some (.step (.into _)) => pop text
    | some .root => text
    | _ => join text ".."

/-- A text that starts with a name has nothing special in front. -/
theorem lead_append {p : List Char} (hnil : p ≠ []) (hpoint : p ≠ ['.']) (hslash : '/' ∉ p) (cs : List Char) :
    lead (p ++ cs) = [] := by
  obtain ⟨c, p, rfl⟩ := List.exists_cons_of_ne_nil hnil
  obtain ⟨hc, hp⟩ := List.ne_and_not_mem_of_not_mem_cons hslash
  unfold lead
  split
  next heq => exact absurd (List.cons.inj heq).1.symm hc
  next heq =>
    obtain ⟨rfl, hrest⟩ := List.cons.inj heq
    exact absurd (congrArg ('.' :: ·) (List.append_eq_nil_iff.mp hrest).1) hpoint
  next heq =>
    obtain ⟨rfl, hrest⟩ := List.cons.inj heq
    cases p with
    | nil => exact absurd rfl hpoint
    | cons d p => exact absurd (List.cons.inj hrest).1.symm (List.ne_and_not_mem_of_not_mem_cons hp).1
  next => rfl

/-- The root and the first point are no steps. -/
theorem filterMap_behindLead (cs : List Char) :
    (pieces (behindLead cs)).filterMap Step.ofPiece? = (pieces cs).filterMap Step.ofPiece? := by
  unfold behindLead
  fun_cases lead cs <;> rfl

/-- **The components of a path** are its steps, with the root or the point in front of them. -/
theorem components_eq (path : String) :
    components path = lead path.toList ++ (ofText path).steps.map .step := by
  rw [components, filterMap_behindLead, ofText]

/-- The root makes the text so far absolute, and a point leaves it empty. -/
theorem foldl_advance_lead (path : String) :
    (lead path.toList).foldl advance "" = (Location.mk (isAbsolute path) 0 []).text := by
  unfold isAbsolute
  generalize path.toList = cs
  fun_cases lead cs with
  | case1 =>
    show join "" "/" = (Location.mk true 0 []).text
    decide
  | case2 => rfl
  | case3 => rfl
  | case4 =>
    split
    next tail hroot _ _ => exact (hroot tail rfl).elim
    next => rfl

/-- There is nothing to leave out behind the pieces of steps. -/
theorem trimmed_steps {ss : List Step} (h : ∀ s ∈ ss, s.IsSaid) :
    trimmed (ss.map Step.piece) = ss.map Step.piece := by
  refine List.rdropWhile_eq_self_iff.mpr fun hne => ?_
  obtain ⟨s, hs, hlast⟩ := List.mem_map.mp (List.getLast_mem hne)
  rw [← hlast, (h s hs).reads]
  exact Bool.false_ne_true

end Path

namespace Location

variable {l l' : Location} {s : Step} {name : String}

/-- The text of a place starts with the root or with its steps. -/
theorem IsTidy.lead_text (h : l.IsTidy) : lead l.text.toList = if l.absolute then [.root] else [] := by
  rw [toList_text]
  cases l.absolute with
  | true => rfl
  | false =>
    have hsaid := h.isSaid
    cases hsteps : l.steps with
    | nil => rfl
    | cons s ss =>
      have hs := hsaid s (hsteps ▸ List.mem_cons_self)
      obtain ⟨rest, hrest⟩ := exists_intercalate_cons s.piece (ss.map Step.piece)
      rw [if_neg Bool.false_ne_true, List.nil_append, List.map_cons, hrest]
      exact lead_append hs.piece_ne_nil hs.piece_ne_point hs.whole rest

theorem IsTidy.behindLead_text (h : l.IsTidy) :
    behindLead l.text.toList = ['/'].intercalate (l.steps.map Step.piece) := by
  rw [behindLead, h.lead_text, toList_text]
  split <;> rfl

/-- The components of the text of a place are its steps, and perhaps the root. -/
theorem IsTidy.components_text (h : l.IsTidy) :
    components l.text = (if l.absolute then [.root] else []) ++ l.steps.map .step := by
  rw [components, h.lead_text, h.behindLead_text, filterMap_pieces h.isSaid]

/-- Without its last step the text of a place is the text of the place before. -/
theorem IsTidy.pop_text (h : l.IsTidy) (habsolute : l'.absolute = l.absolute)
    (hsteps : l.steps = l'.steps ++ [s]) : pop l.text = l'.text := by
  have hsaid := h.isSaid
  have hne : l.steps ≠ [] := hsteps ▸ List.append_ne_nil_of_right_ne_nil _ (List.cons_ne_nil _ _)
  have hkept : trimmed (trimmed (pieces (behindLead l.text.toList))).dropLast = l'.steps.map Step.piece := by
    rw [h.behindLead_text, pieces_steps hne hsaid, trimmed_steps hsaid, hsteps, List.map_append,
      List.map_singleton, List.dropLast_concat,
      trimmed_steps fun s hs => hsaid s (hsteps ▸ List.mem_append_left _ hs)]
  rw [← String.toList_inj, toList_text, pop, String.toList_ofList, hkept, h.lead_text, toList_text, habsolute]
  split <;> rfl

/-- With a name or `..` behind it the text of a place is the text of the place one step further. -/
theorem IsTidy.join_text (h : l.IsTidy) (hs : s.IsSaid) (hname : name.toList = s.piece)
    (habsolute : l'.absolute = l.absolute) (hsteps : l'.steps = l.steps ++ [s]) : join l.text name = l'.text := by
  have hrelative : ¬isAbsolute name = true := by
    unfold isAbsolute
    rw [hname]
    split
    next heq => exact absurd (heq ▸ List.mem_cons_self) hs.whole
    next => exact Bool.false_ne_true
  rw [join, if_neg hrelative, ← String.toList_inj, toList_text l', hsteps, habsolute, List.map_append,
    List.map_singleton, ← hname]
  by_cases hnil : l.steps = []
  · rw [text_of_steps_nil hnil, hnil, List.map_nil, List.nil_append, List.intercalate_singleton]
    cases l.absolute with
    | true => rw [if_pos rfl, if_pos (by decide), String.toList_append]; rfl
    | false => rw [if_neg Bool.false_ne_true, if_pos (by decide), String.toList_append]; rfl
  · have hopen : ¬(l.text.isEmpty || l.text.toList.getLast? = some '/') = true := by
      rw [Bool.or_eq_true, decide_eq_true_eq]
      rintro (hempty | hlast)
      · have hsteps := congrArg Path.steps h.ofText_text
        rw [String.isEmpty_iff.mp hempty] at hsteps
        exact hnil hsteps.symm
      · obtain ⟨cs, hcs⟩ := List.getLast?_eq_some_iff.mp hlast
        exact h.toList_text_ne hnil cs hcs
    rw [if_neg hopen, String.toList_append, String.toList_append, toList_text,
      intercalate_append (mt List.map_eq_nil_iff.mp hnil) (List.cons_ne_nil _ _), List.intercalate_singleton,
      List.append_assoc, List.append_assoc]
    rfl

/-- **The text of a place, continued by a step**, is the text of the place one step further. -/
theorem IsTidy.advance_text (h : l.IsTidy) (hs : s.IsSaid) : advance l.text (.step s) = (l.step s).text := by
  cases s with
  | into name => exact h.join_text hs rfl (absolute_step l _) (steps_into l name)
  | up =>
    rw [advance, h.components_text]
    cases hnames : l.names with
    | cons name names =>
      have hsteps := steps_up_of_cons hnames
      rw [hsteps, List.map_append, ← List.append_assoc, List.map_singleton, List.getLast?_concat]
      exact h.pop_text (absolute_step l _) hsteps
    | nil =>
      have hups : l.steps = List.replicate l.ups .up := by rw [steps, hnames]; exact List.append_nil _
      cases habsolute : l.absolute with
      | true =>
        have hstay : l.step .up = l := by rw [Location.step, hnames]; exact if_pos habsolute
        rw [hups, h.root habsolute, hstay]
        rfl
      | false =>
        -- what the text ends with, if anything, is a step up
        have hpoints : "..".toList = Step.piece .up := rfl
        have hjoin := h.join_text Step.isSaid_up hpoints (absolute_step l _) (steps_up_of_nil habsolute hnames)
        rw [← hjoin, hups]
        cases l.ups with
        | zero => rfl
        | succ ups =>
          rw [List.replicate_succ', List.map_append, List.map_singleton, ← List.append_assoc,
            List.getLast?_concat]

/-- **Steps taken on texts** come to the text of the place where they lead.  The text so far is that of the
    place so far, and that place stays tidy. -/
theorem IsTidy.foldl_advance_steps (h : l.IsTidy) {ss : List Step} (hss : ∀ s ∈ ss, s.IsSaid) :
    (ss.map Component.step).foldl advance l.text = (ss.foldl Location.step l).text := by
  induction ss generalizing l with
  | nil => rfl
  | cons s ss ih =>
    obtain ⟨hs, hss⟩ := List.forall_mem_cons.mp hss
    rw [List.map_cons, List.foldl_cons, h.advance_text hs, ih (h.step hs) hss, List.foldl_cons]

end Location

namespace Path

/-- **Working out the text component by component** gives the normal text. -/
theorem foldl_advance (path : String) : (components path).foldl advance "" = normalize path := by
  have hstart : (Location.mk (isAbsolute path) 0 []).IsTidy := ⟨fun _ => rfl, nofun⟩
  rw [components_eq, List.foldl_append, foldl_advance_lead,
    hstart.foldl_advance_steps fun _ => isSaid_of_mem_steps]
  rfl

example : (components "./a/../../b/./c/").foldl advance "" = "../b/c" := by decide

/-! ## Canonical texts -/

/-- **Normal paths are canonical.**  The text that is worked out component by component is the normal text.  It
    has no component `.`, no repeated or trailing separator and `..` only in front of a relative path, and
    normalizing it again changes nothing.  Two paths have the same one exactly when both are absolute or both
    are not and, read step by step, they give as many levels up and the same names. -/
theorem normalize_canonical (path : String) :
    (components path).foldl advance "" = normalize path ∧ IsNormal (normalize path) ∧
      normalize (normalize path) = normalize path ∧
      ∀ other, normalize path = normalize other ↔
        isAbsolute path = isAbsolute other ∧ (ofText path).location.ups = (ofText other).location.ups ∧
          (ofText path).location.names = (ofText other).location.names := by
  refine ⟨foldl_advance path, isNormal_normalize path, normalize_normalize path, fun other => ⟨fun h => ?_, ?_⟩⟩
  · have hlocation : (ofText path).location = (ofText other).location := by
      rw [← location_normalize path, h, location_normalize]
    have habsolute : isAbsolute path = isAbsolute other := by
      have hroot := congrArg Location.absolute hlocation
      rwa [absolute_location, absolute_location] at hroot
    exact ⟨habsolute, congrArg Location.ups hlocation, congrArg Location.names hlocation⟩
  · rintro ⟨habsolute, hups, hnames⟩
    have hroot : (ofText path).location.absolute = (ofText other).location.absolute := by
      rw [absolute_location, absolute_location]
      exact habsolute
    exact congrArg Location.text ((Location.mk.injEq ..).mpr ⟨hroot, hups, hnames⟩)

end Path

end Yini
