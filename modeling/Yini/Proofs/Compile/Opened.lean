import Mathlib.Data.List.Induction
import Yini.Compile.Include
import Yini.FileTree.Source

/-!
Where included files are opened.

The path of an include is normalized before it is taken from the base directory or from the home
directory.  Normalizing changes nothing about where the steps of a path lead from any directory
(`Location.foldl_collapse`), so the file is opened where it is named, if the normalized path is taken from
the directory that the path of the including file is taken from (`opens_of_not_home`, `opens_of_home`).

Otherwise it is opened elsewhere, if the two directories are deep enough and have different names
(`not_home_of_opens`, `relative_of_opens`, `staysBelow_of_opens`).  So it is known which includes are
opened where they are named whatever these directories are (`opensWhereNamed_iff`).
-/

namespace Yini

/-! ## Collapsing -/

namespace Location

/-- The steps of the place one step further lead where that step leads behind the steps. -/
theorem foldl_steps_step {m : Location} (hm : m.absolute = false) (s : Step) (l : Location) :
    (m.step s).steps.foldl step l = (m.steps.foldl step l).step s := by
  cases s with
  | into name => rw [steps_into, List.foldl_append, List.foldl_cons, List.foldl_nil]
  | up =>
    cases hnames : m.names with
    | nil => rw [steps_up_of_nil hm hnames, List.foldl_append, List.foldl_cons, List.foldl_nil]
    | cons name names =>
      -- there and up again is where one was
      rw [steps_up_of_cons hnames, List.foldl_append, List.foldl_cons, List.foldl_nil]
      rfl

/-- **Collapsed steps lead where the steps lead**, from any place. -/
theorem foldl_collapse (ss : List Step) (l : Location) :
    (ss.foldl step ⟨false, 0, []⟩).steps.foldl step l = ss.foldl step l := by
  induction ss using List.reverseRecOn with
  | nil => rfl
  | append_singleton ss s ih =>
    rw [List.foldl_append, List.foldl_append, List.foldl_cons, List.foldl_nil,
      foldl_steps_step (absolute_foldl ss _), ih]
    rfl

end Location

/-! ## Continued paths -/

namespace Path

section Under

variable {d p q : Path}

/-- The directory of a path is the path without its last step. -/
theorem parent_of_steps (h : p.steps ≠ []) : p.parent = ⟨p.absolute, p.steps.dropLast⟩ := by
  unfold parent
  split
  next hnil => exact absurd hnil h
  next => rfl

/-- The directory of a path may be taken before or after the path is taken from another one. -/
theorem parent_under (h : p.steps ≠ []) : (d.under p).parent = d.under p.parent := by
  unfold under
  split
  next habsolute => rw [if_pos (by rw [parent_of_steps h]; exact habsolute)]
  next habsolute =>
    have hsteps : (d.append p).steps ≠ [] := List.append_ne_nil_of_right_ne_nil _ h
    rw [if_neg (by rw [parent_of_steps h]; exact habsolute), parent_of_steps hsteps, parent_of_steps h, append,
      append, List.dropLast_append_of_ne_nil h]

/-- A path behind another one leads on from where that leads. -/
theorem location_append (d p : Path) : (d.append p).location = p.steps.foldl Location.step d.location :=
  List.foldl_append ..

/-- The steps of the place where a relative path leads, from any place. -/
theorem foldl_location (hp : p.absolute = false) (l : Location) :
    p.location.steps.foldl Location.step l = p.steps.foldl Location.step l := by
  have hlocation : p.location = p.steps.foldl Location.step ⟨false, 0, []⟩ := by rw [location, hp]
  rw [hlocation, Location.foldl_collapse]

/-- **A normalized path leads where the path leads**, from any directory. -/
theorem location_under_text (h : ∀ s ∈ p.steps, s.IsSaid) (d : Path) :
    (d.under (ofText p.location.text)).location = (d.under p).location := by
  have htidy := isTidy_location h
  unfold under
  by_cases habsolute : p.absolute = true
  · have htext : (ofText p.location.text).absolute = true := by
      rw [htidy.ofText_text, absolute_location, habsolute]
    rw [if_pos htext, if_pos habsolute, htidy.location_text]
  · have hrelative : p.absolute = false := Bool.eq_false_iff.mpr habsolute
    have htext : ¬(ofText p.location.text).absolute = true := by
      rw [htidy.ofText_text, absolute_location, hrelative]
      nofun
    rw [if_neg htext, if_neg habsolute, location_append, location_append, htidy.ofText_text]
    exact foldl_location hrelative d.location

end Under

end Path

open Yini.Path

/-! ## Files that are opened -/

variable {t : FileTree} {base path f name rest : String}

/-- The path of an include that is relative. -/
theorem includePath_of_relative (habsolute : isAbsolute name = false) (hhome : isHome name = false) (f : String) :
    includePath (some f) name = ((ofText f).parent.append (ofText name)).location.text := by
  rw [includePath]
  dsimp only
  rw [if_neg]
  rw [habsolute, show ['~', '/'].isPrefixOf name.toList = false from hhome]
  decide

/-- **The file of an include is opened where it is named**: behind the directory of the path that is opened
    for the including file. -/
def OpensWhereNamed (t : FileTree) (base f name : String) : Prop :=
  (ofText (t.resolve base (includePath (some f) name))).location =
    ((ofText (t.resolve base f)).parent.append (ofText name)).location

/-- The path leads to a place below the directory that it is taken from, without leaving that. -/
structure Path.StaysBelow (p : Path) : Prop where
  inside : p.location.ups = 0
  below : p.location.names ≠ []

/-! ### Names in the home directory -/

section Tilde

variable {p : Path}

/-- A path behind the name of the home directory. -/
theorem location_tilde (hp : p.absolute = false) :
    (Path.mk false (.into "~" :: p.steps)).location = p.location.steps.foldl Location.step ⟨false, 0, ["~"]⟩ :=
  (foldl_location hp _).symm

/-- A path that stays in the home directory keeps the name of that. -/
theorem location_tilde_of_inside (hp : p.absolute = false) (hups : p.location.ups = 0) :
    (Path.mk false (.into "~" :: p.steps)).location = ⟨false, 0, p.location.names ++ ["~"]⟩ := by
  rw [location_tilde hp, Location.steps, hups, List.replicate_zero, List.nil_append, Location.foldl_into,
    List.reverse_reverse]

/-- A path that leaves the home directory drops the name of that. -/
theorem location_tilde_of_outside {ups : Nat} (hp : p.absolute = false) (hups : p.location.ups = ups + 1) :
    (Path.mk false (.into "~" :: p.steps)).location = ⟨false, ups, p.location.names⟩ := by
  rw [location_tilde hp, Location.steps, hups, List.replicate_succ, List.cons_append, List.foldl_cons,
    List.foldl_append]
  show List.foldl Location.step (List.foldl Location.step ⟨false, 0, []⟩ _) _ = _
  rw [Location.foldl_up Bool.false_ne_true.elim, Location.foldl_into, List.reverse_reverse, List.append_nil]

end Tilde

/-- The steps to an include are steps of both paths. -/
theorem isSaid_of_mem_include {s : Step} (h : s ∈ ((ofText f).parent.append (ofText name)).steps) : s.IsSaid := by
  rcases List.mem_append.mp h with h | h
  · exact isSaid_of_mem_parent (fun _ => isSaid_of_mem_steps) s h
  · exact isSaid_of_mem_steps h

/-- An include of a file in the home directory goes through the name of that. -/
theorem parent_home_append (hsteps : (ofText rest).steps ≠ []) (name : String) :
    (ofText ("~/" ++ rest)).parent.append (ofText name) =
      ⟨false, .into "~" :: ((ofText rest).parent.append (ofText name)).steps⟩ := by
  rw [ofText_home, parent_of_steps (List.cons_ne_nil _ _), List.dropLast_cons_of_ne_nil hsteps,
    parent_of_steps hsteps]
  rfl

/-- An include of a file that is not given from the root is not either. -/
theorem absolute_parent_append (hrest : isAbsolute rest = false) (hsteps : (ofText rest).steps ≠ []) (name : String) :
    ((ofText rest).parent.append (ofText name)).absolute = false := by
  rw [append, parent_of_steps hsteps]
  exact hrest

/-- Where an include of a file in the home directory is meant to lead. -/
theorem named_home (t : FileTree) (base name : String) (hrest : isAbsolute rest = false)
    (hsteps : (ofText rest).steps ≠ []) : (ofText (t.resolve base ("~/" ++ rest))).parent.append (ofText name) =
      ((ofText base).under (ofText t.home)).under ((ofText rest).parent.append (ofText name)) := by
  have hhome : ((ofText t.home).under (ofText rest)).steps ≠ [] := by
    rw [under_of_relative hrest]
    exact List.append_ne_nil_of_right_ne_nil _ hsteps
  rw [ofText_resolve_home, parent_under hhome, parent_under hsteps, under_append, under_append,
    under_under _ _ (absolute_parent_append hrest hsteps name)]

/-- Behind the home directory a path from the root is opened as it is. -/
theorem resolve_home_root (t : FileTree) (base : String) (hrest : isAbsolute rest = true) :
    ofText (t.resolve base ("~/" ++ rest)) = ofText rest := by
  have hinner : (ofText t.home).under (ofText rest) = ofText rest := under_of_absolute hrest
  rw [ofText_resolve_home, hinner]
  exact under_of_absolute hrest

section Relative

variable (habsolute : isAbsolute name = false) (hhome : isHome name = false)

include habsolute hhome

/-- **An include is opened where it is named**, if neither its path nor that of the including file starts in
    the home directory. -/
theorem opens_of_not_home (hf : isHome f = false) (hsteps : (ofText f).steps ≠ [])
    (hpath : isHome (includePath (some f) name) = false) : OpensWhereNamed t base f name := by
  unfold OpensWhereNamed
  rw [ofText_resolve t base hpath, ofText_resolve t base hf, parent_under hsteps, under_append,
    includePath_of_relative habsolute hhome]
  exact location_under_text (fun s => isSaid_of_mem_include) _

/-- The path of an include of a file in the home directory that stays there. -/
theorem includePath_of_below (hrest : isAbsolute rest = false) (hsteps : (ofText rest).steps ≠ [])
    (hbelow : ((ofText rest).parent.append (ofText name)).StaysBelow) : includePath (some ("~/" ++ rest)) name =
      "~/" ++ ((ofText rest).parent.append (ofText name)).location.text := by
  have hrelative := absolute_parent_append hrest hsteps name
  rw [includePath_of_relative habsolute hhome, parent_home_append hsteps,
    location_tilde_of_inside hrelative hbelow.inside, text_tilde hbelow.below, ← hbelow.inside, ← hrelative,
    ← absolute_location]

/-- **An include of a file in the home directory is opened where it is named**, if it stays below that
    directory. -/
theorem opens_of_home (hrest : isAbsolute rest = false) (hsteps : (ofText rest).steps ≠ [])
    (hbelow : ((ofText rest).parent.append (ofText name)).StaysBelow) :
    OpensWhereNamed t base ("~/" ++ rest) name := by
  have hrelative : (ofText ((ofText rest).parent.append (ofText name)).location.text).absolute = false := by
    rw [(isTidy_location fun s => isSaid_of_mem_include).ofText_text, absolute_location]
    exact absolute_parent_append hrest hsteps name
  rw [OpensWhereNamed, includePath_of_below habsolute hhome hrest hsteps hbelow, ofText_resolve_home,
    named_home t base name hrest hsteps, under_under _ _ hrelative]
  exact location_under_text (fun s => isSaid_of_mem_include) _

end Relative

/-! ## Files that are opened elsewhere -/

/-- The text of a directory so many levels below the root. -/
def deep (name : String) (n : Nat) : String := (Location.mk true 0 (List.replicate n name)).text

/-- A tree without files that has a deep home directory. -/
def deepHome (n : Nat) : FileTree := ⟨[], deep "h" n⟩

section Deep

variable {c : String} {n : Nat} {p : Path} {l : Location} {names : List String}

theorem isTidy_deep (hc : (Step.into c).IsSaid) (n : Nat) :
    (Location.mk true 0 (List.replicate n c)).IsTidy :=
  ⟨fun _ => rfl, fun name hname => by rwa [List.eq_of_mem_replicate hname]⟩

theorem absolute_deep (hc : (Step.into c).IsSaid) (n : Nat) : (ofText (deep c n)).absolute = true := by
  rw [deep, (isTidy_deep hc n).ofText_text]

/-- Each step up leaves one level of a deep directory, until the root is reached. -/
theorem foldl_up_deep (n k : Nat) :
    (List.replicate k Step.up).foldl Location.step ⟨true, 0, List.replicate n c⟩ =
      ⟨true, 0, List.replicate (n - k) c⟩ := by
  induction k generalizing n with
  | zero => rfl
  | succ k ih =>
    rw [List.replicate_succ, List.foldl_cons]
    cases n with
    | zero => exact (ih 0).trans (by rw [Nat.zero_sub, Nat.zero_sub])
    | succ n => exact (ih n).trans (by rw [Nat.add_sub_add_right])

/-- A path that is taken from a deep directory drops some of its levels and goes down from there. -/
theorem location_under_deep (hc : (Step.into c).IsSaid) (hp : p.absolute = false) (n : Nat) :
    ((ofText (deep c n)).under p).location =
      ⟨true, 0, p.location.names ++ List.replicate (n - p.location.ups) c⟩ := by
  rw [under_of_relative hp, location_append, deep, (isTidy_deep hc n).location_text, ← foldl_location hp,
    Location.steps, List.foldl_append, foldl_up_deep, Location.foldl_into, List.reverse_reverse]

/-- Where a relative path is opened in a deep base directory. -/
theorem opened_base (h : l.IsTidy) (hrelative : l.absolute = false) (hhome : isHome l.text = false) (n : Nat) :
    (ofText ((deepHome n).resolve (deep "b" n) l.text)).location =
      ⟨true, 0, l.names ++ List.replicate (n - l.ups) "b"⟩ := by
  have hlocation := h.location_text
  have habsolute : (ofText l.text).absolute = false := by rwa [h.ofText_text]
  rw [ofText_resolve _ _ hhome, location_under_deep ⟨rfl, by decide⟩ habsolute, hlocation]

/-- The home directory does not depend on the base directory. -/
theorem under_deepHome (n : Nat) : (ofText (deep "b" n)).under (ofText (deepHome n).home) = ofText (deep "h" n) :=
  under_of_absolute (absolute_deep ⟨rfl, by decide⟩ n)

/-- Where a path in a deep home directory is opened. -/
theorem opened_home (h : (Location.mk false 0 names).IsTidy) (hnames : names ≠ []) (n : Nat) :
    (ofText ((deepHome n).resolve (deep "b" n) (Location.mk false 0 (names ++ ["~"])).text)).location =
      ⟨true, 0, names ++ List.replicate n "h"⟩ := by
  have hlocation := h.location_text
  have habsolute : (ofText (Location.mk false 0 names).text).absolute = false := by rw [h.ofText_text]
  rw [text_tilde hnames, ofText_resolve_home, under_under _ _ habsolute, under_deepHome,
    location_under_deep ⟨rfl, by decide⟩ habsolute, hlocation]
  rfl

/-- What is opened for a relative path is as deep as the directories are, but for the steps up. -/
theorem le_length_opened (h : l.IsTidy) (hrelative : l.absolute = false) (n : Nat) :
    n ≤ (ofText ((deepHome n).resolve (deep "b" n) l.text)).location.names.length + l.ups := by
  cases hhome : isHome l.text with
  | false =>
    rw [opened_base h hrelative hhome, List.length_append, List.length_replicate]
    omega
  | true =>
    obtain ⟨names, hnames, rfl, hinner⟩ := isHome_text h hhome
    rw [opened_home hinner hnames, List.length_append, List.length_replicate]
    omega

end Deep

section Relative

variable (habsolute : isAbsolute name = false) (hhome : isHome name = false)

include habsolute hhome

/-- An include that does not start in the home directory, but ends there, is opened elsewhere. -/
theorem not_home_of_opens (hf : isHome f = false) (hsteps : (ofText f).steps ≠ [])
    (h : OpensWhereNamed (deepHome 1) (deep "b" 1) f name) : isHome (includePath (some f) name) = false := by
  refine Bool.eq_false_iff.mpr fun hpath => ?_
  have htidy : ((ofText f).parent.append (ofText name)).location.IsTidy :=
    isTidy_location fun s => isSaid_of_mem_include
  rw [includePath_of_relative habsolute hhome] at hpath
  obtain ⟨names, hnames, hl, hinner⟩ := isHome_text htidy hpath
  have hrelative : ((ofText f).parent.append (ofText name)).absolute = false := by
    rw [← absolute_location, hl]
  rw [OpensWhereNamed, includePath_of_relative habsolute hhome, ofText_resolve _ _ hf, parent_under hsteps,
    under_append, location_under_deep ⟨rfl, by decide⟩ hrelative, hl, opened_home hinner hnames] at h
  have hlength := congrArg (fun l : Location => l.names.length) h
  simp at hlength

/-- What follows the home directory is a path from there, if an include beside it is opened there.  A path from
    the root is not in the home directory, and its include is opened in that or in the base directory. -/
theorem relative_of_opens (hsteps : (ofText rest).steps ≠ [])
    (h : ∀ n, OpensWhereNamed (deepHome n) (deep "b" n) ("~/" ++ rest) name) : isAbsolute rest = false := by
  refine Bool.eq_false_iff.mpr fun hroot => ?_
  have htidy : ((ofText ("~/" ++ rest)).parent.append (ofText name)).location.IsTidy :=
    isTidy_location fun s => isSaid_of_mem_include
  have hrelative : ((ofText ("~/" ++ rest)).parent.append (ofText name)).location.absolute = false := by
    rw [parent_home_append hsteps, absolute_location]
  have hlength := le_length_opened htidy hrelative
  -- where the include is named does not depend on the directories
  have hopened : ∀ n, (ofText ((deepHome n).resolve (deep "b" n)
      ((ofText ("~/" ++ rest)).parent.append (ofText name)).location.text)).location =
        ((ofText rest).parent.append (ofText name)).location := by
    intro n
    have hopens := h n
    rwa [OpensWhereNamed, includePath_of_relative habsolute hhome, resolve_home_root _ _ hroot] at hopens
  specialize hlength (((ofText rest).parent.append (ofText name)).location.names.length +
    ((ofText ("~/" ++ rest)).parent.append (ofText name)).location.ups + 1)
  rw [hopened] at hlength
  omega

/-- An include of a file in the home directory that leaves that is opened elsewhere. -/
theorem staysBelow_of_opens (hrest : isAbsolute rest = false) (hsteps : (ofText rest).steps ≠ [])
    (h : ∀ n, OpensWhereNamed (deepHome n) (deep "b" n) ("~/" ++ rest) name) :
    ((ofText rest).parent.append (ofText name)).StaysBelow := by
  set p := (ofText rest).parent.append (ofText name) with hp
  have hrelative : p.absolute = false := absolute_parent_append hrest hsteps name
  have htidy : p.location.IsTidy := isTidy_location fun s => isSaid_of_mem_include
  have hopens := h (p.location.ups + 1)
  rw [OpensWhereNamed, includePath_of_relative habsolute hhome, parent_home_append hsteps, ← hp,
    named_home _ _ name hrest hsteps, ← hp, under_deepHome, location_under_deep ⟨rfl, by decide⟩ hrelative,
    Nat.add_sub_cancel_left] at hopens
  cases hups : p.location.ups with
  | zero =>
    refine ⟨hups, fun hnames => ?_⟩
    -- the include leads to the home directory itself, and the name of that alone says nothing
    have hname : (Location.mk false 0 ["~"]).IsTidy := ⟨nofun, List.forall_mem_singleton.mpr ⟨rfl, by decide⟩⟩
    rw [location_tilde_of_inside hrelative hups, hnames, List.nil_append, opened_base hname rfl (by decide)] at hopens
    have hlength := congrArg (fun l : Location => l.names.length) hopens
    simp at hlength
  | succ ups =>
    rw [location_tilde_of_outside hrelative hups, hups] at hopens
    have htidy' : (Location.mk false ups p.location.names).IsTidy := ⟨nofun, htidy.said⟩
    cases hpath : isHome (Location.mk false ups p.location.names).text with
    | false =>
      rw [opened_base htidy' rfl hpath] at hopens
      have hlength := congrArg (fun l : Location => l.names.length) hopens
      simp at hlength
      omega
    | true =>
      -- the include leads past the home directory into another one of its name
      obtain ⟨names, hnames, hl, hinner⟩ := isHome_text htidy' hpath
      obtain ⟨rfl, houter⟩ : ups = 0 ∧ p.location.names = names ++ ["~"] := by simpa using hl
      rw [houter, opened_home hinner hnames, List.append_assoc] at hopens
      have hsuffix := List.append_cancel_left (congrArg Location.names hopens)
      exact absurd hsuffix (by decide)

end Relative

/-- **Which includes are opened where they are named**, whatever the base directory and the home directory
    are.  The name is relative, and the path of the including file has a last step, as paths of files have.
    If that path does not start in the home directory, these are the includes whose normalized path does not
    start there either.  If it does, these are the includes that stay below that directory, on the way as well;
    there are none if what follows is a path from the root, which is opened as it is. -/
theorem opensWhereNamed_iff (f name : String) (habsolute : isAbsolute name = false) (hhome : isHome name = false) :
    (isHome f = false → (ofText f).steps ≠ [] →
      ((∀ t base, OpensWhereNamed t base f name) ↔ isHome (includePath (some f) name) = false)) ∧
    (∀ rest, f = "~/" ++ rest → (ofText rest).steps ≠ [] →
      ((∀ t base, OpensWhereNamed t base f name) ↔
        isAbsolute rest = false ∧ ((ofText rest).parent.append (ofText name)).StaysBelow)) := by
  refine ⟨fun hf hsteps => ⟨fun h => ?_, fun h t base => ?_⟩, ?_⟩
  · exact not_home_of_opens habsolute hhome hf hsteps (h _ _)
  · exact opens_of_not_home habsolute hhome hf hsteps h
  · rintro rest rfl hsteps
    refine ⟨fun h => ?_, fun ⟨hrest, h⟩ t base => ?_⟩
    · have hrest := relative_of_opens habsolute hhome hsteps fun n => h _ _
      exact ⟨hrest, staysBelow_of_opens habsolute hhome hrest hsteps fun n => h _ _⟩
    · exact opens_of_home habsolute hhome hrest hsteps h

/-- A file of the working directory and one of the home directory, with includes that stay there. -/
theorem opensWhereNamed_iff_siblings : OpensWhereNamed ⟨[], "/home/me"⟩ "/base" "lib/../a.yini" "./lib/b.yini" ∧
    OpensWhereNamed ⟨[], "/home/me"⟩ "/base" "~/lib/a.yini" "../b.yini" := by
  obtain ⟨hplain, -⟩ := opensWhereNamed_iff "lib/../a.yini" "./lib/b.yini" (by decide) (by decide)
  obtain ⟨-, hhome⟩ := opensWhereNamed_iff "~/lib/a.yini" "../b.yini" (by decide) (by decide)
  exact ⟨(hplain (by decide) (by decide)).mpr (by decide) _ _,
    (hhome "lib/a.yini" (by decide) (by decide)).mpr ⟨by decide, by decide, by decide⟩ _ _⟩

/-- **An include that leaves the home directory** is taken from the base directory, and one in a directory
    that has the name `~` from the home directory. -/
theorem not_opensWhereNamed :
    FileTree.resolve ⟨[], "/home/me"⟩ "/base" (includePath (some "~/a.yini") "../b.yini") = "/base/b.yini" ∧
    ¬OpensWhereNamed ⟨[], "/home/me"⟩ "/base" "~/a.yini" "../b.yini" ∧
    FileTree.resolve ⟨[], "/home/me"⟩ "/base" (includePath (some "./~/a.yini") "b.yini") = "/home/me/b.yini" ∧
    ¬OpensWhereNamed ⟨[], "/home/me"⟩ "/base" "./~/a.yini" "b.yini" := by
  unfold OpensWhereNamed
  decide

end Yini
