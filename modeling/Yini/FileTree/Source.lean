import Yini.FileTree.Basic
import Yini.Proofs.Outcome
import Yini.Proofs.Path
import Yini.Source

/-!
Trees of files as sources.

A text that is resolved is the base directory, perhaps the home directory behind it, and then the path
(`ofText_resolve`, `ofText_resolve_home`).  So what a normalized path leads to is reached from there by some
steps up and then through its names (`FileTree.exists_of_climb`), and these are the last names of a file
in the tree.  There are no other files than those that the tree lists by such names
(`FileTree.mem_names_of_isFile`), and so a tree is a source.
-/

namespace Yini

open Path

/-! ## Paths that are opened -/

section Resolve

variable {path : String}

/-- A text that does not start at the root is joined to the base directory. -/
theorem ofText_expanded (base path : String) :
    ofText (if isAbsolute path then path else join base path) = (ofText base).under (ofText path) := by
  rw [← ofText_join]
  split
  next habsolute => rw [join, if_pos habsolute]
  next => rfl

/-- A path that does not start in the home directory is taken from the base directory. -/
theorem ofText_resolve (t : FileTree) (base : String) (h : isHome path = false) :
    ofText (t.resolve base path) = (ofText base).under (ofText path) := by
  rw [FileTree.resolve]
  split
  next rest heq => rw [isHome, heq] at h; cases h
  next => exact ofText_expanded base path

/-- A path in the home directory is taken from there. -/
theorem ofText_resolve_home (t : FileTree) (base rest : String) :
    ofText (t.resolve base ("~/" ++ rest)) = (ofText base).under ((ofText t.home).under (ofText rest)) := by
  have htext : ("~/" ++ rest).toList = '~' :: '/' :: rest.toList := String.toList_append
  rw [FileTree.resolve, htext]
  show ofText (if isAbsolute (join t.home (String.ofList rest.toList)) then join t.home (String.ofList rest.toList)
    else join base (join t.home (String.ofList rest.toList))) = _
  rw [String.ofList_toList, ofText_expanded, ofText_join]

end Resolve

namespace FileTree

variable {t : FileTree} {base path : String} {s r : Spot} {content : ByteArray} {l : Location}

/-! ## Following a path -/

/-- Pieces that are no steps lead nowhere else, if they can be passed. -/
theorem foldlM_go_of_step {ps : List (List Char)} (h : ps.foldlM t.step s = .ok r) :
    (ps.filterMap Step.ofPiece?).foldlM t.go s = .ok r := by
  induction ps generalizing s with
  | nil => exact h
  | cons p ps ih =>
    rw [List.foldlM_cons] at h
    obtain ⟨next, hp, hps⟩ := except_bind_eq_ok.mp h
    have hps := ih hps
    unfold step at hp
    cases hstep : Step.ofPiece? p with
    | some n =>
      rw [hstep] at hp
      rw [List.filterMap_cons_some hstep, List.foldlM_cons]
      exact except_bind_eq_ok.mpr ⟨next, by cases s <;> exact hp, hps⟩
    | none =>
      rw [hstep] at hp
      rw [List.filterMap_cons_none hstep]
      cases s with
      | file _ => cases hp
      | directory _ =>
        cases hp
        exact hps

/-- What a text leads to is reached by the steps of its path. -/
theorem foldlM_go_of_walk (h : t.walk path = .ok r) :
    (ofText path).steps.foldlM t.go (.directory ⟨(ofText path).absolute, 0, []⟩) = .ok r := by
  unfold walk at h
  split at h
  next => cases h
  next => exact foldlM_go_of_step h

/-- A path leads to a file if the text that is opened for it does. -/
theorem isFile_iff : t.isFile base path ↔ ∃ content, t.walk (t.resolve base path) = .ok (.file content) := by
  unfold isFile
  split
  next content heq => exact iff_of_true rfl ⟨content, heq⟩
  next hne => exact iff_of_false Bool.false_ne_true fun ⟨content, heq⟩ => hne content heq

/-- **A spot that can be reached in so many steps**: a directory has at most so many names, and a file is
    one of the tree. -/
def Within (t : FileTree) (n : Nat) : Spot → Prop
  | .directory l => l.names.length ≤ n
  | .file content => ∃ place, (place, content) ∈ t.files

/-- What is at a place is within as many steps as the place has names. -/
theorem within_of_look (h : t.look l = .ok s) : t.Within l.names.length s := by
  unfold look at h
  split at h
  next place content hfind =>
    cases h
    exact ⟨place, List.mem_of_find?_eq_some hfind⟩
  next =>
    split at h
    next =>
      cases h
      exact Nat.le_refl _
    next => cases h

/-- One step further it takes one step more. -/
theorem Within.go {n : Nat} (h : t.Within n s) {next : Step} (hgo : t.go s next = .ok r) :
    t.Within (n + 1) r := by
  unfold FileTree.go at hgo
  split at hgo
  next => cases hgo
  next l name =>
    have hlook := within_of_look hgo
    cases r with
    | directory l' => exact Nat.le_trans hlook (Nat.succ_le_succ h)
    | file content => exact hlook
  next l =>
    split at hgo
    next name names hnames =>
      cases hgo
      have hlength : l.names.length ≤ n := h
      rw [hnames, List.length_cons] at hlength
      exact Nat.le_succ_of_le (Nat.le_of_succ_le hlength)
    next hnames =>
      cases hgo
      exact Nat.le_succ_of_le h

/-- Steps lead to a spot within their number. -/
theorem Within.foldlM {n : Nat} {ss : List Step} (h : t.Within n s) (hss : ss.foldlM t.go s = .ok r) :
    t.Within (n + ss.length) r := by
  induction ss generalizing n s with
  | nil =>
    cases hss
    exact h
  | cons next ss ih =>
    rw [List.foldlM_cons] at hss
    obtain ⟨s', hgo, hss⟩ := except_bind_eq_ok.mp hss
    rw [List.length_cons, Nat.add_comm ss.length, ← Nat.add_assoc]
    exact ih (h.go hgo) hss

/-! ## Files that are reached -/

/-- Steps up lead from a directory to a directory; those that it has no names for lead further up. -/
theorem foldlM_up (n : Nat) (l : Location) :
    (List.replicate n Step.up).foldlM t.go (.directory l) =
      .ok (.directory { l with ups := l.ups + (n - l.names.length), names := l.names.drop n }) := by
  induction n generalizing l with
  | zero => rw [Nat.zero_sub]; rfl
  | succ n ih =>
    obtain ⟨absolute, ups, names⟩ := l
    rw [List.replicate_succ, List.foldlM_cons]
    cases names with
    | nil =>
      refine (ih ⟨absolute, ups + 1, []⟩).trans ?_
      simp only [List.length_nil, Nat.sub_zero, List.drop_nil, Nat.add_assoc, Nat.add_comm 1]
    | cons name names =>
      refine (ih ⟨absolute, ups, names⟩).trans ?_
      rw [List.length_cons, Nat.add_sub_add_right]
      rfl

/-- Through names one gets to a file that has them innermost. -/
theorem exists_of_foldlM_into {names : List String} (hne : names ≠ [])
    (h : (names.map Step.into).foldlM t.go (.directory l) = .ok (.file content)) :
    ∃ place, (place, content) ∈ t.files ∧ place.names = names.reverse ++ l.names ∧ place.ups = l.ups := by
  induction names generalizing l with
  | nil => exact absurd rfl hne
  | cons name names ih =>
    rw [List.map_cons, List.foldlM_cons] at h
    obtain ⟨s, hlook, h⟩ := except_bind_eq_ok.mp h
    change t.look { l with names := name :: l.names } = .ok s at hlook
    rw [List.reverse_cons, List.append_assoc, List.singleton_append]
    unfold look at hlook
    split at hlook
    next place found hfind =>
      cases hlook
      obtain rfl : place = { l with names := name :: l.names } := by simpa using List.find?_some hfind
      cases names with
      | nil =>
        cases h
        exact ⟨_, List.mem_of_find?_eq_some hfind, rfl, rfl⟩
      | cons other names =>
        -- nothing is behind a file
        cases h
    next =>
      split at hlook
      next =>
        cases hlook
        cases names with
        | nil => cases h
        | cons other names => exact ih (List.cons_ne_nil _ _) h
      next => cases hlook

/-- **A file that is reached** up from a spot and then through names: its place has the names innermost, and
    there are no more steps up than the spot and the place allow. -/
theorem exists_of_climb {n m : Nat} {names : List String} (hs : t.Within m s)
    (h : (List.replicate n Step.up ++ names.map Step.into).foldlM t.go s = .ok (.file content)) :
    ∃ place, (place, content) ∈ t.files ∧ names.reverse <+: place.names ∧ n ≤ m + place.ups := by
  rw [List.foldlM_append] at h
  obtain ⟨s', hups, hnames⟩ := except_bind_eq_ok.mp h
  cases s with
  | file found =>
    cases n with
    | succ n =>
      rw [List.replicate_succ] at hups
      cases hups
    | zero =>
      cases hups
      cases names with
      | nil =>
        cases hnames
        obtain ⟨place, hplace⟩ := hs
        exact ⟨place, hplace, List.nil_prefix, Nat.zero_le _⟩
      | cons => cases hnames
  | directory l =>
    rw [foldlM_up] at hups
    cases hups
    have hlength : l.names.length ≤ m := hs
    by_cases hne : names = []
    · rw [hne] at hnames
      cases hnames
    · obtain ⟨place, hplace, hinner, hplaceUps⟩ := exists_of_foldlM_into hne hnames
      exact ⟨place, hplace, ⟨_, hinner.symm⟩, by dsimp only at hplaceUps; omega⟩

/-- **The files that paths lead to are listed**: if the steps of a place come last, its text is among the
    names. -/
theorem exists_of_isFile {absolute : Bool} {ss : List Step} (hfile : t.isFile base path)
    (hpath : ofText (t.resolve base path) = ⟨absolute, ss ++ l.steps⟩) :
    ∃ place content, (place, content) ∈ t.files ∧ l.names <+: place.names ∧ l.ups ≤ ss.length + place.ups := by
  obtain ⟨content, hwalk⟩ := isFile_iff.mp hfile
  have hgo := foldlM_go_of_walk hwalk
  rw [hpath, List.foldlM_append] at hgo
  obtain ⟨s, hss, hgo⟩ := except_bind_eq_ok.mp hgo
  have hstart : t.Within 0 (.directory ⟨absolute, 0, []⟩) := Nat.le_refl 0
  have hwithin := hstart.foldlM hss
  obtain ⟨place, hplace, hinner, hups⟩ := exists_of_climb hwithin hgo
  rw [List.reverse_reverse] at hinner
  rw [Nat.zero_add] at hups
  exact ⟨place, content, hplace, hinner, hups⟩

/-- The texts that are listed for a file. -/
theorem mem_names {place : Location} {inner : List String} {text : String} (hplace : (place, content) ∈ t.files)
    (hinner : inner <+: place.names)
    (htext : text = (Location.mk true 0 inner).text ∨ text = (Location.mk false 0 (inner ++ ["~"])).text ∨
      ∃ ups ≤ (ofText base).steps.length + place.ups, text = (Location.mk false ups inner).text) :
    text ∈ t.names base := by
  refine List.mem_flatMap.mpr ⟨_, hplace, List.mem_flatMap.mpr ⟨inner.length, ?_, ?_⟩⟩
  · exact List.mem_range.mpr (Nat.lt_succ_of_le hinner.length_le)
  · rw [← List.prefix_iff_eq_take.mp hinner]
    rcases htext with rfl | rfl | ⟨ups, hups, rfl⟩
    · exact List.mem_cons_self
    · exact List.mem_cons_of_mem _ List.mem_cons_self
    · refine List.mem_cons_of_mem _ (List.mem_cons_of_mem _ (List.mem_map.mpr ⟨ups, ?_, rfl⟩))
      exact List.mem_range.mpr (Nat.lt_succ_of_le hups)

/-- **The names of a tree are complete**: every normalized path that leads to a file is among them. -/
theorem mem_names_of_isFile (h : l.IsTidy) (hfile : t.isFile base l.text) : l.text ∈ t.names base := by
  cases hhome : isHome l.text with
  | true =>
    obtain ⟨names, hne, rfl, hinner⟩ := isHome_text h hhome
    have hpath : ofText (t.resolve base (Location.mk false 0 (names ++ ["~"])).text) =
        ⟨((ofText base).under (ofText t.home)).absolute,
          ((ofText base).under (ofText t.home)).steps ++ (Location.mk false 0 names).steps⟩ := by
      rw [text_tilde hne, ofText_resolve_home, hinner.ofText_text, under_under _ _ rfl, under_of_relative rfl]
      rfl
    obtain ⟨place, content, hplace, hprefix, -⟩ := exists_of_isFile hfile hpath
    exact mem_names hplace hprefix (.inr (.inl rfl))
  | false =>
    have hpath := ofText_resolve t base hhome
    rw [h.ofText_text] at hpath
    obtain ⟨absolute, ups, names⟩ := l
    cases absolute with
    | true =>
      obtain rfl : ups = 0 := h.root rfl
      have hroot : (ofText base).under ⟨true, Location.steps ⟨true, 0, names⟩⟩ =
          ⟨true, [] ++ Location.steps ⟨true, 0, names⟩⟩ := under_of_absolute rfl
      obtain ⟨place, content, hplace, hprefix, -⟩ := exists_of_isFile hfile (hpath.trans hroot)
      exact mem_names hplace hprefix (.inl rfl)
    | false =>
      rw [under_of_relative rfl] at hpath
      obtain ⟨place, content, hplace, hprefix, hups⟩ := exists_of_isFile hfile hpath
      exact mem_names hplace hprefix (.inr (.inr ⟨ups, hups, rfl⟩))

end FileTree

/-- Files of a tree, seen from a base directory. -/
def Source.ofTree (t : FileTree) (base : String) : Source where
  isFile := t.isFile base
  read := t.read base
  names := t.names base
  complete _ := FileTree.mem_names_of_isFile (isTidy_location fun _ => isSaid_of_mem_steps)

end Yini
