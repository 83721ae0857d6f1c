import Yini.Path

/-!
Normal paths.

The text of a place leads to that place again (`Location.location_text`), if its names can be steps.
The names that a path goes through are such names, so normalizing a path twice is normalizing it once
(`Path.normalize_normalize`).

A joined text is the path taken from the directory (`Path.ofText_join`).  The normalized texts that start
in the home directory are those of the places behind its name (`Path.isHome_text`).
-/

namespace Yini

namespace Path

/-! ## Pieces -/

theorem pieces_ne_nil (cs : List Char) : pieces cs ≠ [] := by
  cases cs with
  | nil => exact List.cons_ne_nil _ _
  | cons c cs =>
    unfold pieces
    split
    · exact List.cons_ne_nil _ _
    · split <;> exact List.cons_ne_nil _ _

/-- No piece has a separator in it. -/
theorem not_mem_of_mem_pieces {cs p : List Char} (h : p ∈ pieces cs) : '/' ∉ p := by
  induction cs generalizing p with
  | nil =>
    rw [List.mem_singleton.mp h]
    exact List.not_mem_nil
  | cons c cs ih =>
    unfold pieces at h
    split at h
    next =>
      -- before a separator there is an empty piece; any other character is put to the piece behind it
      rcases List.mem_cons.mp h with rfl | h
      · exact List.not_mem_nil
      · exact ih h
    next hc =>
      split at h
      next hnil => exact absurd hnil (pieces_ne_nil cs)
      next q qs hcs =>
        have hq : '/' ∉ q := ih (hcs ▸ List.mem_cons_self)
        rcases List.mem_cons.mp h with rfl | h
        · intro hmem
          rcases List.mem_cons.mp hmem with heq | hmem
          · exact hc heq.symm
          · exact hq hmem
        · exact ih (hcs ▸ List.mem_cons_of_mem _ h)

/-- A text without a separator is one piece. -/
theorem pieces_of_not_mem {cs : List Char} (h : '/' ∉ cs) : pieces cs = [cs] := by
  induction cs with
  | nil => rfl
  | cons c cs ih =>
    obtain ⟨hc, hcs⟩ := List.ne_and_not_mem_of_not_mem_cons h
    rw [pieces, if_neg hc.symm, ih hcs]

/-- A separator cuts a text in two, whose pieces are those of the text. -/
theorem pieces_append_slash (cs ds : List Char) : pieces (cs ++ '/' :: ds) = pieces cs ++ pieces ds := by
  induction cs with
  | nil => rfl
  | cons c cs ih =>
    rw [List.cons_append, pieces, pieces, ih]
    split
    · rfl
    · cases hcs : pieces cs with
      | nil => exact absurd hcs (pieces_ne_nil cs)
      | cons p ps => rfl

/-- What stands before the first separator is the first piece. -/
theorem pieces_append {p : List Char} (h : '/' ∉ p) (cs : List Char) :
    pieces (p ++ '/' :: cs) = p :: pieces cs := by
  rw [pieces_append_slash, pieces_of_not_mem h, List.singleton_append]

/-- What has been joined with separators starts with the first part. -/
theorem exists_intercalate_cons (p : List Char) (ps : List (List Char)) :
    ∃ rest, ['/'].intercalate (p :: ps) = p ++ rest := by
  cases ps with
  | nil => exact ⟨[], by rw [List.intercalate_singleton, List.append_nil]⟩
  | cons q ps =>
    exact ⟨_, by rw [List.intercalate_cons_of_ne_nil (List.cons_ne_nil _ _), List.append_assoc]⟩

/-- What has been joined with separators falls into its parts. -/
theorem pieces_intercalate {ps : List (List Char)} (hne : ps ≠ []) (h : ∀ p ∈ ps, '/' ∉ p) :
    pieces (['/'].intercalate ps) = ps := by
  induction ps with
  | nil => exact absurd rfl hne
  | cons p ps ih =>
    obtain ⟨hp, hps⟩ := List.forall_mem_cons.mp h
    cases ps with
    | nil =>
      rw [List.intercalate_singleton]
      exact pieces_of_not_mem hp
    | cons q ps =>
      rw [List.intercalate_cons_of_ne_nil (List.cons_ne_nil _ _), List.append_assoc,
        List.singleton_append, pieces_append hp, ih (List.cons_ne_nil _ _) hps]

end Path

/-! ## Steps -/

namespace Step

/-- The piece that says a step. -/
def piece : Step → List Char
  | up => ['.', '.']
  | into name => name.toList

/-- Whether the step is said by a piece of a path. -/
structure IsSaid (s : Step) : Prop where
  reads : ofPiece? s.piece = some s
  whole : '/' ∉ s.piece

theorem isSaid_up : IsSaid up := ⟨rfl, by decide⟩

/-- What a piece of a path says is said by it. -/
theorem isSaid_of_piece {p : List Char} {s : Step} (hp : '/' ∉ p) (h : ofPiece? p = some s) :
    s.IsSaid := by
  unfold ofPiece? at h
  split at h
  next => cases h
  next => cases h
  next =>
    cases h
    exact isSaid_up
  next hnil hpoint hpoints =>
    cases h
    have hpiece : (into (String.ofList p)).piece = p := String.toList_ofList
    refine ⟨?_, hpiece.symm ▸ hp⟩
    rw [hpiece, ofPiece?]
    · exact hnil
    · exact hpoint
    · exact hpoints

theorem IsSaid.piece_ne_nil {s : Step} (h : s.IsSaid) : s.piece ≠ [] := by
  intro hnil
  have hreads := h.reads
  rw [hnil] at hreads
  cases hreads

theorem IsSaid.piece_ne_point {s : Step} (h : s.IsSaid) : s.piece ≠ ['.'] := by
  intro hpoint
  have hreads := h.reads
  rw [hpoint] at hreads
  cases hreads

end Step

/-- The steps of a path can be written as pieces of one. -/
theorem Path.isSaid_of_mem_steps {text : String} {s : Step} (h : s ∈ (ofText text).steps) : s.IsSaid := by
  obtain ⟨p, hp, hs⟩ := List.mem_filterMap.mp h
  exact Step.isSaid_of_piece (not_mem_of_mem_pieces hp) hs

/-! ## Places -/

namespace Location

variable {l : Location}

/-- The steps that lead to a place. -/
def steps (l : Location) : List Step := List.replicate l.ups .up ++ l.names.reverse.map .into

/-- No step changes whether a place is seen from the root. -/
theorem absolute_step (l : Location) (s : Step) : (l.step s).absolute = l.absolute := by
  cases s with
  | into => rfl
  | up =>
    unfold step
    cases l.names with
    | cons => rfl
    | nil => exact (apply_ite Location.absolute _ _ _).trans (ite_self _)

/-- No steps change whether a place is seen from the root. -/
theorem absolute_foldl (ss : List Step) (l : Location) : (ss.foldl step l).absolute = l.absolute := by
  induction ss generalizing l with
  | nil => rfl
  | cons s ss ih => rw [List.foldl_cons, ih, absolute_step]

theorem steps_into (l : Location) (name : String) : (l.step (.into name)).steps = l.steps ++ [.into name] := by
  rw [steps, steps, List.append_assoc]
  simp [step]

/-- A step up takes the last name back. -/
theorem steps_up_of_cons {l : Location} {name : String} {names : List String} (h : l.names = name :: names) :
    l.steps = (l.step .up).steps ++ [.into name] := by
  simp [steps, step, h]

/-- Where there is no name, a step up is one step more. -/
theorem steps_up_of_nil {l : Location} (hrelative : l.absolute = false) (h : l.names = []) :
    (l.step .up).steps = l.steps ++ [.up] := by
  simp [steps, step, h, hrelative, List.replicate_succ']

/-- **A place that paths lead to**: nothing is above the root, and the names can be steps. -/
structure IsTidy (l : Location) : Prop where
  root : l.absolute → l.ups = 0
  said : ∀ name ∈ l.names, (Step.into name).IsSaid

/-- **A step leads from a tidy place to a tidy one.** -/
theorem IsTidy.step (h : l.IsTidy) {s : Step} (hs : s.IsSaid) : (l.step s).IsTidy := by
  cases s with
  | into name => exact ⟨h.root, List.forall_mem_cons.mpr ⟨hs, h.said⟩⟩
  | up =>
    -- a step up leaves a directory, or stays at the root, or goes one level further
    unfold Location.step
    cases hnames : l.names with
    | cons name names =>
      exact ⟨h.root, fun other hmem => h.said other (hnames ▸ List.mem_cons_of_mem _ hmem)⟩
    | nil =>
      dsimp only
      split
      next => exact h
      next habsolute => exact ⟨fun hroot => absurd hroot habsolute, nofun⟩

/-- Steps up lead above an unknown directory, and nowhere from the root. -/
theorem foldl_up {absolute : Bool} {n : Nat} (h : absolute → n = 0) :
    (List.replicate n Step.up).foldl step ⟨absolute, 0, []⟩ = ⟨absolute, n, []⟩ := by
  cases absolute with
  | true =>
    rw [h rfl]
    rfl
  | false =>
    induction n with
    | zero => rfl
    | succ n ih => rw [List.replicate_succ', List.foldl_append, ih nofun]; rfl

/-- Steps into directories put their names in front, the last one innermost. -/
theorem foldl_into (names : List String) (l : Location) :
    (names.map Step.into).foldl step l = { l with names := names.reverse ++ l.names } := by
  induction names generalizing l with
  | nil => rfl
  | cons name names ih =>
    rw [List.map_cons, List.foldl_cons, ih, List.reverse_cons, List.append_assoc]
    rfl

/-- The steps that lead to a place lead there. -/
theorem IsTidy.foldl_steps (h : l.IsTidy) : l.steps.foldl Location.step ⟨l.absolute, 0, []⟩ = l := by
  rw [steps, List.foldl_append, foldl_up h.root, foldl_into, List.reverse_reverse, List.append_nil]

/-- The steps that lead to a tidy place can be written as pieces. -/
theorem IsTidy.isSaid (h : l.IsTidy) : ∀ s ∈ l.steps, s.IsSaid := by
  intro s hs
  rcases List.mem_append.mp hs with hs | hs
  · rw [List.eq_of_mem_replicate hs]
    exact Step.isSaid_up
  · obtain ⟨name, hname, rfl⟩ := List.mem_map.mp hs
    exact h.said name (List.mem_reverse.mp hname)

/-- The text of a place: its steps with separators between them, behind one if it is seen from the root. -/
theorem toList_text (l : Location) : l.text.toList =
    (if l.absolute then ['/'] else []) ++ ['/'].intercalate (l.steps.map Step.piece) := by
  have hpieces : (List.replicate l.ups ".." ++ l.names.reverse).map String.toList =
      l.steps.map Step.piece := by
    rw [steps, List.map_append, List.map_append, List.map_replicate, List.map_replicate, List.map_map]
    rfl
  have hslash : "/".toList = ['/'] := rfl
  rw [text, String.toList_append, String.toList_intercalate, hpieces, hslash]
  split <;> rfl

/-- Steps are read back from their pieces. -/
theorem filterMap_piece {ss : List Step} (h : ∀ s ∈ ss, s.IsSaid) :
    (ss.map Step.piece).filterMap Step.ofPiece? = ss := by
  induction ss with
  | nil => rfl
  | cons s ss ih =>
    obtain ⟨hs, hss⟩ := List.forall_mem_cons.mp h
    rw [List.map_cons, List.filterMap_cons_some hs.reads, ih hss]

/-- Steps with separators between them fall into their pieces. -/
theorem pieces_steps {ss : List Step} (hne : ss ≠ []) (h : ∀ s ∈ ss, s.IsSaid) :
    Path.pieces (['/'].intercalate (ss.map Step.piece)) = ss.map Step.piece := by
  refine Path.pieces_intercalate (mt List.map_eq_nil_iff.mp hne) fun p hp => ?_
  obtain ⟨s, hs, rfl⟩ := List.mem_map.mp hp
  exact (h s hs).whole

/-- The pieces of steps, with separators between them, stand for the steps. -/
theorem filterMap_pieces {ss : List Step} (h : ∀ s ∈ ss, s.IsSaid) :
    (Path.pieces (['/'].intercalate (ss.map Step.piece))).filterMap Step.ofPiece? = ss := by
  by_cases hne : ss = []
  · rw [hne]
    rfl
  · rw [pieces_steps hne h, filterMap_piece h]

/-- Only the text of a place seen from the root starts with a separator. -/
theorem IsTidy.isAbsolute_text (h : l.IsTidy) : Path.isAbsolute l.text = l.absolute := by
  rw [Path.isAbsolute, toList_text]
  cases l.absolute with
  | true => rfl
  | false =>
    have hsaid := h.isSaid
    cases hsteps : l.steps with
    | nil => rfl
    | cons s ss =>
      rw [hsteps] at hsaid
      have hs := hsaid s List.mem_cons_self
      obtain ⟨c, cs, hpiece⟩ := List.exists_cons_of_ne_nil hs.piece_ne_nil
      have hc : c ≠ '/' := fun heq => hs.whole (by rw [hpiece, heq]; exact List.mem_cons_self)
      obtain ⟨rest, hrest⟩ := Path.exists_intercalate_cons s.piece (ss.map Step.piece)
      rw [if_neg Bool.false_ne_true, List.nil_append, List.map_cons, hrest, hpiece, List.cons_append]
      split
      next heq => exact absurd (List.cons.inj heq).1 hc
      next => rfl

/-- The text of a place has the steps that lead there. -/
theorem IsTidy.ofText_text (h : l.IsTidy) : Path.ofText l.text = ⟨l.absolute, l.steps⟩ := by
  have hsteps : (Path.pieces l.text.toList).filterMap Step.ofPiece? = l.steps := by
    rw [toList_text]
    split
    next => exact filterMap_pieces h.isSaid
    next => exact filterMap_pieces h.isSaid
  rw [Path.ofText, hsteps, h.isAbsolute_text]

/-- **The text of a place** leads there. -/
theorem IsTidy.location_text (h : l.IsTidy) : (Path.ofText l.text).location = l := by
  rw [h.ofText_text]
  exact h.foldl_steps

end Location

namespace Path

/-- A path leads to a place that is seen from the root exactly if the path starts there. -/
theorem absolute_location (p : Path) : p.location.absolute = p.absolute := Location.absolute_foldl _ _

/-- **A path leads to a tidy place**: each of its steps keeps the place tidy. -/
theorem isTidy_location {p : Path} (h : ∀ s ∈ p.steps, s.IsSaid) : p.location.IsTidy :=
  List.foldlRecOn p.steps Location.step ⟨fun _ => rfl, nofun⟩ fun _ hl s hs => hl.step (h s hs)

/-- A text that has been normalized stays as it is. -/
theorem normalize_text {p : Path} (h : ∀ s ∈ p.steps, s.IsSaid) :
    normalize p.location.text = p.location.text := by
  rw [normalize, (isTidy_location h).location_text]

/-- **Normalizing twice is normalizing once.** -/
theorem normalize_normalize (text : String) : normalize (normalize text) = normalize text :=
  normalize_text fun _ => isSaid_of_mem_steps

/-- The steps of the directory are steps of the path. -/
theorem isSaid_of_mem_parent {p : Path} (h : ∀ s ∈ p.steps, s.IsSaid) : ∀ s ∈ p.parent.steps, s.IsSaid := by
  intro s hs
  unfold parent at hs
  split at hs
  next => cases hs
  next => exact h s (List.dropLast_subset _ hs)

/-! ## Joined texts -/

/-- A path taken from a directory, unless it starts at the root. -/
def under (d p : Path) : Path := if p.absolute then p else d.append p

theorem under_of_relative {d p : Path} (hp : p.absolute = false) : d.under p = d.append p :=
  if_neg (Bool.eq_false_iff.mp hp)

theorem under_of_absolute {d p : Path} (hp : p.absolute = true) : d.under p = p := if_pos hp

/-- What comes behind a path comes behind it from any directory. -/
theorem under_append (d p q : Path) : (d.under p).append q = d.under (p.append q) := by
  unfold under
  split
  next habsolute => exact (if_pos habsolute).symm
  next habsolute =>
    rw [if_neg (show ¬(p.append q).absolute = true from habsolute), append, append, append,
      List.append_assoc]
    rfl

/-- A relative path is taken from a directory that is taken from another one, from there on. -/
theorem under_under {p : Path} (d q : Path) (hp : p.absolute = false) : d.under (q.under p) = (d.under q).under p := by
  rw [under_of_relative hp, under_of_relative hp, under_append]

/-- A path starts at the root exactly if its text starts with a separator. -/
theorem isAbsolute_eq (path : String) : isAbsolute path = (path.toList.head? == some '/') := by
  unfold isAbsolute
  split
  next heq => rw [heq]; rfl
  next hne =>
    cases hpath : path.toList with
    | nil => rfl
    | cons c cs =>
      refine (beq_eq_false_iff_ne.mpr fun heq => hne cs ?_).symm
      rw [hpath, Option.some.inj heq]

/-- **A joined text** is the path taken from the directory. -/
theorem ofText_join (directory path : String) :
    ofText (join directory path) = (ofText directory).under (ofText path) := by
  unfold join
  split
  next habsolute => rw [under, ofText, if_pos habsolute]
  next habsolute =>
    rw [under_of_relative (Bool.eq_false_iff.mpr habsolute)]
    by_cases hempty : directory.toList = []
    · obtain rfl : directory = "" := String.toList_eq_nil_iff.mp hempty
      have hpath : isAbsolute path = false := Bool.eq_false_iff.mpr habsolute
      rw [if_pos (by decide), String.empty_append, append, ofText, hpath]
      rfl
    · have hhead : ∀ s, isAbsolute (directory ++ s) = isAbsolute directory := fun s => by
        obtain ⟨c, cs, hcs⟩ := List.exists_cons_of_ne_nil hempty
        rw [isAbsolute_eq, isAbsolute_eq, String.toList_append, hcs]
        rfl
      split
      next hlast =>
        have hnonempty : directory.isEmpty = false :=
          Bool.eq_false_iff.mpr fun h => hempty (String.toList_eq_nil_iff.mpr (String.isEmpty_iff.mp h))
        rw [hnonempty, Bool.false_or, decide_eq_true_eq] at hlast
        obtain ⟨cs, hcs⟩ := List.getLast?_eq_some_iff.mp hlast
        rw [append, ofText, ofText, ofText, hhead, String.toList_append, hcs, List.append_assoc,
          List.singleton_append, pieces_append_slash, pieces_append_slash, List.filterMap_append,
          List.filterMap_append, pieces, List.filterMap_cons_none rfl, List.filterMap_nil, List.append_nil]
      next =>
        have hslash : "/".toList = ['/'] := rfl
        rw [append, ofText, ofText, ofText, String.append_assoc, hhead, String.toList_append,
          String.toList_append, hslash, List.singleton_append, pieces_append_slash, List.filterMap_append]

/-! ## Paths in the home directory -/

/-- Whether a path starts in the home directory. -/
def isHome (path : String) : Bool := ['~', '/'].isPrefixOf path.toList

/-- The steps of a path in the home directory. -/
theorem ofText_home (rest : String) : ofText ("~/" ++ rest) = ⟨false, .into "~" :: (ofText rest).steps⟩ := by
  have htext : ("~/" ++ rest).toList = ['~'] ++ '/' :: rest.toList := String.toList_append
  rw [ofText, isAbsolute, htext, pieces_append (by decide)]
  rfl

/-- The text of a place behind the name of the home directory. -/
theorem text_tilde {names : List String} (h : names ≠ []) :
    (Location.mk false 0 (names ++ ["~"])).text = "~/" ++ (Location.mk false 0 names).text := by
  refine String.toList_inj.mp ?_
  have hsteps : (Location.mk false 0 (names ++ ["~"])).steps = .into "~" :: (Location.mk false 0 names).steps := by
    simp [Location.steps]
  have hne : (Location.mk false 0 names).steps.map Step.piece ≠ [] := by simpa [Location.steps] using h
  rw [String.toList_append, Location.toList_text, Location.toList_text, hsteps, List.map_cons,
    List.intercalate_cons_of_ne_nil hne]
  rfl

/-- Only the text of a place behind the name of the home directory starts there. -/
theorem isHome_text {l : Location} (h : l.IsTidy) (hhome : isHome l.text = true) :
    ∃ names, names ≠ [] ∧ l = ⟨false, 0, names ++ ["~"]⟩ ∧ (Location.mk false 0 names).IsTidy := by
  obtain ⟨cs, hcs⟩ := List.isPrefixOf_iff_prefix.mp hhome
  have htext : l.text = "~/" ++ String.ofList cs := by
    rw [← String.toList_inj, String.toList_append, ← hcs, String.toList_ofList, String.toList_ofList]
  have hpath := h.ofText_text
  rw [htext, ofText_home] at hpath
  obtain ⟨absolute, ups, names⟩ := l
  obtain rfl : false = absolute := congrArg Path.absolute hpath
  have hsteps : Step.into "~" :: _ = Location.steps ⟨false, ups, names⟩ := congrArg Path.steps hpath
  cases ups with
  | succ ups =>
    rw [Location.steps, List.replicate_succ, List.cons_append] at hsteps
    cases (List.cons.inj hsteps).1
  | zero =>
    rcases List.eq_nil_or_concat names with rfl | ⟨inner, outer, rfl⟩
    · cases hsteps
    · rw [Location.steps, List.replicate_zero, List.nil_append, List.concat_eq_append, List.reverse_append] at hsteps
      obtain rfl : "~" = outer := Step.into.inj (List.cons.inj hsteps).1
      rw [List.concat_eq_append] at h hhome ⊢
      refine ⟨inner, ?_, rfl, fun _ => rfl, fun s hs => h.said s (List.mem_append_left _ hs)⟩
      rintro rfl
      exact absurd hhome (by decide)

end Path

end Yini
