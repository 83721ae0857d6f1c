import Mathlib.Data.List.Forall2
import Mathlib.Data.List.Perm.Basic
import Mathlib.Logic.Relation
import Yini.Compile.Include
import Yini.Proofs.Grammar.Sections
import Yini.Proofs.Path

/-!
Includes are a walk through the files, depth first.

`PostOrder` is the order in which a walk leaves what it visits: everything after what it leads to.  It
visits what can be reached without passing what has been visited before, each once
(`PostOrder.mem_iff`, `PostOrder.nodup`).  The document of a text with its includes is the documents
of the files, inserted one after the other in this order, with the text's own document at the end
(`expand_ok`, `gather_postOrder`).

The list of idle paths only bounds the walk: as long as it holds all files that have not been loaded, it
does not matter which list it is (`expand_congr`), and the names of a source hold all its files
(`expand_names`).
-/

namespace Yini

open Relation

/-! ## Depth-first walks -/

/-- **The order in which a depth-first walk leaves what it visits.**  The walk goes through a list from
    left to right and passes over what it has seen; before it leaves anything it walks through what
    that leads to. -/
inductive PostOrder (next : String → List String) :
    List String → List String → List String → Prop
  | nil (seen : List String) : PostOrder next seen [] []
  | pass {seen : List String} {a : String} {as order : List String} (ha : a ∈ seen)
      (rest : PostOrder next seen as order) : PostOrder next seen (a :: as) order
  | visit {seen : List String} {a : String} {as inner order : List String} (ha : a ∉ seen)
      (deep : PostOrder next (a :: seen) (next a) inner)
      (rest : PostOrder next (inner ++ a :: seen) as order) :
      PostOrder next seen (a :: as) (inner ++ a :: order)

/-- What can be reached from the first name without passing what has been seen. -/
def Reach (next : String → List String) (seen : List String) : String → String → Prop :=
  ReflTransGen fun a b => a ∉ seen ∧ b ∈ next a

namespace PostOrder

variable {next : String → List String} {seen seen' as order : List String}

/-- In which order things have been seen makes no difference. -/
theorem congr (h : PostOrder next seen as order) (hsame : ∀ x, x ∈ seen ↔ x ∈ seen') :
    PostOrder next seen' as order := by
  induction h generalizing seen' with
  | nil => exact .nil _
  | pass ha _ ih => exact .pass ((hsame _).mp ha) (ih hsame)
  | visit ha _ _ ihdeep ihrest =>
    refine .visit (fun hmem => ha ((hsame _).mpr hmem)) (ihdeep fun x => ?_) (ihrest fun x => ?_)
    · simp only [List.mem_cons, hsame]
    · simp only [List.mem_append, List.mem_cons, hsame]

/-- What a walk visits first is closed: whoever leads out of it leads to what had been seen. -/
theorem closed {a : String} {inner : List String}
    (hinner : ∀ x, x ∈ inner ↔ x ∉ a :: seen ∧ ∃ b ∈ next a, Reach next (a :: seen) b x)
    {b c : String} (hb : b ∈ inner ++ [a]) (hc : c ∈ next b) (hnew : c ∉ seen) :
    c ∈ inner ++ [a] := by
  by_cases hca : c = a
  · rw [hca]
    exact List.mem_append_right _ List.mem_cons_self
  have hfresh : c ∉ a :: seen := by
    simp only [List.mem_cons, not_or]
    exact ⟨hca, hnew⟩
  refine List.mem_append_left _ ((hinner c).mpr ⟨hfresh, ?_⟩)
  rcases List.mem_append.mp hb with hb | hb
  · obtain ⟨hbnew, first, hfirst, hreach⟩ := (hinner b).mp hb
    exact ⟨first, hfirst, hreach.tail ⟨hbnew, hc⟩⟩
  · rw [List.mem_singleton.mp hb] at hc
    exact ⟨c, hc, .refl⟩

/-- A way that enters what has been visited first ends there; any other avoids it. -/
theorem reach_cases {a : String} {inner : List String}
    (hinner : ∀ x, x ∈ inner ↔ x ∉ a :: seen ∧ ∃ b ∈ next a, Reach next (a :: seen) b x)
    {b x : String} (h : Reach next seen b x) (hx : x ∉ seen) :
    (b ∉ inner ++ [a] ∧ Reach next (inner ++ a :: seen) b x) ∨ x ∈ inner ++ [a] := by
  induction h using ReflTransGen.head_induction_on with
  | refl =>
    by_cases hmem : x ∈ inner ++ [a]
    · exact .inr hmem
    · exact .inl ⟨hmem, .refl⟩
  | @head b c hstep hreach ih =>
    rcases ih with ⟨hc, hreach⟩ | hmem
    · by_cases hb : b ∈ inner ++ [a]
      · -- then `c` would be there too, unless it had been seen, and then it is `x`
        by_cases hcseen : c ∈ seen
        · rcases hreach.cases_head with rfl | ⟨d, hd, -⟩
          · exact absurd hcseen hx
          · exact absurd (List.mem_append_right _ (List.mem_cons_of_mem _ hcseen)) hd.1
        · exact absurd (closed hinner hb hstep.2 hcseen) hc
      · refine .inl ⟨hb, .head ⟨fun hmem => ?_, hstep.2⟩ hreach⟩
        rcases List.mem_append.mp hmem with hmem | hmem
        · exact hb (List.mem_append_left _ hmem)
        · rcases List.mem_cons.mp hmem with rfl | hmem
          · exact hb (List.mem_append_right _ List.mem_cons_self)
          · exact hstep.1 hmem
    · exact .inr hmem

theorem reach_mono {a b : String} (h : Reach next seen' a b) (hsub : ∀ x ∈ seen, x ∈ seen') :
    Reach next seen a b :=
  ReflTransGen.mono (fun _ _ hstep => ⟨fun hmem => hstep.1 (hsub _ hmem), hstep.2⟩) _ _ h

/-- **A walk visits what can be reached** without passing what has been seen before. -/
theorem mem_iff (h : PostOrder next seen as order) :
    ∀ x, x ∈ order ↔ x ∉ seen ∧ ∃ a ∈ as, Reach next seen a x := by
  induction h with
  | nil => simp
  | @pass seen a as order ha _ ih =>
    intro x
    rw [ih x]
    refine and_congr_right fun hx => ?_
    constructor
    · rintro ⟨b, hb, hreach⟩
      exact ⟨b, List.mem_cons_of_mem _ hb, hreach⟩
    · rintro ⟨b, hb, hreach⟩
      rcases List.mem_cons.mp hb with rfl | hb
      · -- nothing but itself can be reached from what has been seen
        rcases hreach.cases_head with rfl | ⟨c, hstep, -⟩
        · exact absurd ha hx
        · exact absurd ha hstep.1
      · exact ⟨b, hb, hreach⟩
  | @visit seen a as inner order ha _ _ ihdeep ihrest =>
    intro x
    have hsub : ∀ y ∈ seen, y ∈ inner ++ a :: seen := fun y hy =>
      List.mem_append_right _ (List.mem_cons_of_mem _ hy)
    constructor
    · intro hx
      rcases List.mem_append.mp hx with hx | hx
      · obtain ⟨hnew, b, hb, hreach⟩ := (ihdeep x).mp hx
        refine ⟨fun hmem => hnew (List.mem_cons_of_mem _ hmem), a, List.mem_cons_self, ?_⟩
        exact .head ⟨ha, hb⟩ (reach_mono hreach fun y hy => List.mem_cons_of_mem _ hy)
      rcases List.mem_cons.mp hx with rfl | hx
      · exact ⟨ha, x, List.mem_cons_self, .refl⟩
      · obtain ⟨hnew, b, hb, hreach⟩ := (ihrest x).mp hx
        exact ⟨fun hmem => hnew (hsub x hmem), b, List.mem_cons_of_mem _ hb, reach_mono hreach hsub⟩
    · rintro ⟨hx, b, hb, hreach⟩
      have hfirst : x ∈ inner ++ [a] → x ∈ inner ++ a :: order := by
        intro hmem
        rcases List.mem_append.mp hmem with hmem | hmem
        · exact List.mem_append_left _ hmem
        · rw [List.mem_singleton.mp hmem]
          exact List.mem_append_right _ List.mem_cons_self
      rcases reach_cases ihdeep hreach hx with ⟨hb', hreach'⟩ | hmem
      · by_cases hmem : x ∈ inner ++ [a]
        · exact hfirst hmem
        · have hnew : x ∉ inner ++ a :: seen := by
            simp only [List.mem_append, List.mem_cons, List.not_mem_nil, or_false, not_or] at hmem ⊢
            exact ⟨hmem.1, hmem.2, hx⟩
          rcases List.mem_cons.mp hb with rfl | hb
          · exact absurd (List.mem_append_right _ List.mem_cons_self) hb'
          · exact List.mem_append_right _
              (List.mem_cons_of_mem _ ((ihrest x).mpr ⟨hnew, b, hb, hreach'⟩))
      · exact hfirst hmem

/-- **A walk visits nothing twice.** -/
theorem nodup (h : PostOrder next seen as order) : order.Nodup := by
  induction h with
  | nil => exact List.nodup_nil
  | pass _ _ ih => exact ih
  | @visit seen a as inner order ha hdeep hrest ihdeep ihrest =>
    have hnew : ∀ x ∈ order, x ∉ inner ++ a :: seen := fun x hx => ((hrest.mem_iff x).mp hx).1
    refine List.nodup_append.mpr ⟨ihdeep, List.nodup_cons.mpr ⟨fun hmem => ?_, ihrest⟩, ?_⟩
    · exact hnew a hmem (List.mem_append_right _ List.mem_cons_self)
    · rintro x hx y hy rfl
      rcases List.mem_cons.mp hy with rfl | hy
      · exact ((hdeep.mem_iff x).mp hx).1 List.mem_cons_self
      · exact hnew x hy (List.mem_append_left _ hx)

end PostOrder

/-! ## Include lists -/

/-- The paths in the include list of a document that has been read from a file. -/
def Document.includes (d : Document) (file : Option String) : List String :=
  match d.sections.get? includeName with
  | none => []
  | some list => (list.registry.filterMap includeName?).map (includePath file)

/-- The document of a file. -/
def Source.document (s : Source) (path : String) : Except Fault Document := do
  Document.ofSource (some path) (← s.read path)

/-- The paths that a file includes. -/
def Source.includes (s : Source) (path : String) : List String :=
  match s.document path with
  | .ok d => d.includes (some path)
  | .error _ => []

/-- **Files are included by their normal paths.** -/
theorem normalize_includePath (file : Option String) (name : String) :
    Path.normalize (includePath file name) = includePath file name := by
  unfold includePath
  dsimp only
  split
  next => exact Path.normalize_normalize name
  next =>
    refine Path.normalize_text fun s hs => ?_
    rcases List.mem_append.mp hs with hs | hs
    · cases file with
      | none => cases hs
      | some f => exact Path.isSaid_of_mem_parent (fun _ => Path.isSaid_of_mem_steps) s hs
    · exact Path.isSaid_of_mem_steps hs

section Expand

variable {source : Source} {idle idle' : List String} {file : Option String} {text : String}
  {seen seen' : List String} {d : Document} {load load' : String → String → Loading Document}

/-- What an entry comes to: a file that has been loaded before, or one that is loaded now. -/
theorem includeEntry_cases {merged merged' : Document} {entry : Value}
    (h : includeEntry source file load merged entry seen = .ok (merged', seen')) :
    ∃ name, includeName? entry = some name ∧
      ((includePath file name ∈ seen ∧ merged' = merged ∧ seen' = seen) ∨
        (includePath file name ∉ seen ∧ source.isFile (includePath file name) ∧
          ∃ text d, source.read (includePath file name) = .ok text ∧
            load (includePath file name) text (includePath file name :: seen) = .ok (d, seen') ∧
              merged' = merged.merge d)) := by
  unfold includeEntry at h
  cases hname : includeName? entry with
  | none =>
    simp only [hname] at h
    cases h
  | some name =>
    simp only [hname] at h
    -- an entry without the name of a file is refused, so from here on there is a path
    refine ⟨name, rfl, ?_⟩
    obtain ⟨_, _, hget, h⟩ := stateT_bind_eq_ok.mp h
    cases hget
    by_cases hseen : includePath file name ∈ seen
    · simp only [if_pos hseen] at h
      cases h
      exact .inl ⟨hseen, rfl, rfl⟩
    · simp only [if_neg hseen] at h
      obtain ⟨_, _, hmodify, h⟩ := stateT_bind_eq_ok.mp h
      cases hmodify
      by_cases hfile : source.isFile (includePath file name)
      · simp only [if_pos hfile] at h
        obtain ⟨text, t, hread, h⟩ := stateT_bind_eq_ok.mp h
        obtain ⟨e, t', hload, h⟩ := stateT_bind_eq_ok.mp h
        cases h
        obtain ⟨htext, rfl⟩ := stateT_lift_eq_ok.mp hread
        exact .inr ⟨hseen, hfile, text, e, htext, hload, rfl⟩
      · simp only [if_neg hfile] at h
        cases h

/-- A walk through a list of paths: `ds` are the documents of the files that it has visited, in the
    order in which it left them. -/
def Walked (source : Source) (paths seen seen' : List String) (ds : List Document) : Prop :=
  ∃ order, PostOrder source.includes seen paths order ∧
    List.Forall₂ (fun path d => source.document path = .ok d) order ds ∧
      seen'.Perm (order ++ seen)

/-- What a text and its includes come to: the documents of the files, merged in one after the other,
    and the text's own document after them. -/
def Expands (source : Source) (file : Option String) (text : String) (seen seen' : List String)
    (d : Document) : Prop :=
  ∃ current ds, Document.ofSource file text = .ok current ∧
    Walked source (current.includes file) seen seen' ds ∧
      d = (ds ++ [current]).foldl Document.merge .empty

/-- The documents of files hold no macros, and have their sections under their names. -/
theorem Walked.isNamed {paths : List String} {ds : List Document}
    (h : Walked source paths seen seen' ds) : ∀ d ∈ ds, d.macros = ∅ ∧ d.IsNamed := by
  obtain ⟨order, -, hdocuments, -⟩ := h
  intro d hd
  induction hdocuments with
  | nil => exact absurd hd List.not_mem_nil
  | cons hdocument _ ih =>
    rcases List.mem_cons.mp hd with rfl | hd
    · obtain ⟨text, -, hparse⟩ := except_bind_eq_ok.mp hdocument
      exact Document.ofSource_shape hparse
    · exact ih hd

/-- **A walk through an include list**, if `load` walks through what a file includes.  The induction is on
    the list: its first entry is walked through with what it includes, and that has been seen by the others. -/
theorem foldlM_includeEntry (hload : ∀ path text seen d seen', load path text seen = .ok (d, seen') →
      Expands source (some path) text seen seen' d) (entries : List Value) :
    ∀ merged seen, entries.foldlM (includeEntry source file load) merged seen = .ok (d, seen') →
      ∃ ds, Walked source ((entries.filterMap includeName?).map (includePath file)) seen seen' ds ∧
        d = ds.foldl Document.merge merged := by
  induction entries with
  | nil =>
    intro merged seen h
    cases h
    exact ⟨[], ⟨[], .nil _, .nil, .refl _⟩, rfl⟩
  | cons entry entries ih =>
    intro merged seen h
    rw [List.foldlM_cons] at h
    obtain ⟨merged', seen₁, hentry, hrest⟩ := stateT_bind_eq_ok.mp h
    obtain ⟨name, hname, hcases⟩ := includeEntry_cases hentry
    obtain ⟨ds, ⟨order, hwalk, hdocuments, hperm⟩, hd⟩ := ih merged' seen₁ hrest
    rw [List.filterMap_cons_some hname, List.map_cons]
    rcases hcases with ⟨hseen, rfl, rfl⟩ | ⟨hseen, -, text, e, hread, hrun, rfl⟩
    · -- a file that has been seen adds nothing: the walk is that of the other entries
      exact ⟨ds, ⟨order, .pass hseen hwalk, hdocuments, hperm⟩, hd⟩
    · -- a new file comes behind what it includes, and before the other entries
      obtain ⟨current, inner, hparse, hwalked, he⟩ := hload _ text _ e seen₁ hrun
      have hinnerShape := hwalked.isNamed
      obtain ⟨innerOrder, hinner, hinnerDocuments, hinnerPerm⟩ := hwalked
      have hdocument : source.document (includePath file name) = .ok current := by
        rw [Source.document, hread]
        exact hparse
      have hincludes : source.includes (includePath file name)
          = current.includes (some (includePath file name)) := by
        rw [Source.includes, hdocument]
      refine ⟨inner ++ current :: ds, ⟨innerOrder ++ includePath file name :: order, ?_, ?_, ?_⟩, ?_⟩
      · refine .visit hseen (by rwa [hincludes]) (hwalk.congr fun x => ?_)
        rw [hinnerPerm.mem_iff]
      · exact List.rel_append hinnerDocuments (.cons hdocument hdocuments)
      · refine hperm.trans ((hinnerPerm.append_left order).trans ?_)
        rw [List.append_assoc]
        exact (List.perm_append_comm_assoc _ _ _).trans (List.perm_middle.append_left innerOrder)
      · -- merging is associative where sections stand under their names, and read documents are such
        have hnamed : ∀ f ∈ inner ++ [current], f.IsNamed := by
          intro f hf
          rcases List.mem_append.mp hf with hf | hf
          · exact (hinnerShape f hf).2
          · rw [List.mem_singleton.mp hf]
            exact (Document.ofSource_shape hparse).2
        rw [hd, he, Document.merge_foldl merged hnamed, ← List.foldl_append, List.append_assoc,
          List.singleton_append]

/-- **A text with its includes** is what a walk through the files comes to, if `load` walks through what a
    file includes. -/
theorem expandWith_ok (hload : ∀ path text seen d seen', load path text seen = .ok (d, seen') →
      Expands source (some path) text seen seen' d)
    (h : expandWith source load file text seen = .ok (d, seen')) : Expands source file text seen seen' d := by
  obtain ⟨current, _, hlift, h⟩ := stateT_bind_eq_ok.mp h
  obtain ⟨hparse, rfl⟩ := stateT_lift_eq_ok.mp hlift
  cases hlist : current.sections.get? includeName with
  | none =>
    have hincludes : current.includes file = [] := by rw [Document.includes, hlist]
    simp only [hlist] at h
    cases h
    refine ⟨_, [], hparse, ⟨[], by rw [hincludes]; exact .nil _, .nil, .refl _⟩, ?_⟩
    exact (Document.empty_merge (Document.ofSource_shape hparse).2).symm
  | some list =>
    simp only [hlist] at h
    obtain ⟨merged, _, hfold, h⟩ := stateT_bind_eq_ok.mp h
    cases h
    have hincludes : current.includes file
        = (list.registry.filterMap includeName?).map (includePath file) := by
      rw [Document.includes, hlist]
    obtain ⟨ds, hwalked, hmerged⟩ := foldlM_includeEntry hload list.registry .empty seen hfold
    refine ⟨current, ds, hparse, by rwa [hincludes], ?_⟩
    rw [hmerged, List.foldl_append]
    rfl

/-- **Expanding a text** is a walk through the files, whatever the list of idle paths is. -/
theorem expand_ok (h : expand source idle file text seen = .ok (d, seen')) :
    Expands source file text seen seen' d := by
  induction idle, file, text using expand.induct generalizing seen d seen' with
  | case1 idle file text ih =>
    rw [expand] at h
    refine expandWith_ok (fun path text seen d seen' hrun => ?_) h
    split at hrun
    next hidle => exact ih path text hidle hrun
    next => cases hrun

/-! ## The bound -/

/-- Every file that has not been loaded is idle. -/
def Covers (source : Source) (idle seen : List String) : Prop :=
  ∀ path, Path.normalize path = path → source.isFile path → path ∉ seen → path ∈ idle

/-- The names of a source cover all its files. -/
theorem covers_names (source : Source) (seen : List String) : Covers source source.names seen := by
  intro path hnormal hfile _
  rw [← hnormal] at hfile ⊢
  exact source.complete path hfile

theorem Covers.mono (h : Covers source idle seen) (hsub : ∀ path ∈ seen, path ∈ seen') :
    Covers source idle seen' :=
  fun path hnormal hfile hnew => h path hnormal hfile fun hmem => hnew (hsub path hmem)

/-- A file that is being loaded is not idle any more. -/
theorem Covers.erase (h : Covers source idle seen) (path : String) :
    Covers source (idle.erase path) (path :: seen) := by
  intro other hnormal hfile hnew
  obtain ⟨hne, hnew⟩ := List.ne_and_not_mem_of_not_mem_cons hnew
  exact (List.mem_erase_of_ne hne).mpr (h other hnormal hfile hnew)

/-- Nothing that has been loaded is forgotten. -/
theorem Expands.mono (h : Expands source file text seen seen' d) : ∀ path ∈ seen, path ∈ seen' := by
  obtain ⟨_, _, _, ⟨order, _, _, hperm⟩, _⟩ := h
  intro path hmem
  exact hperm.mem_iff.mpr (List.mem_append_right order hmem)

/-- An entry comes to the same, if its file does. -/
theorem includeEntry_congr (file : Option String) (merged : Document) (entry : Value)
    (hload : ∀ path, Path.normalize path = path → source.isFile path → path ∉ seen → ∀ text,
      load path text (path :: seen) = load' path text (path :: seen)) :
    includeEntry source file load merged entry seen = includeEntry source file load' merged entry seen := by
  unfold includeEntry
  cases hname : includeName? entry with
  | none => rfl
  | some name =>
    simp only
    refine stateT_bind_congr rfl fun _ _ hget => ?_
    cases hget
    by_cases hseen : includePath file name ∈ seen
    · simp only [if_pos hseen]
    · simp only [if_neg hseen]
      refine stateT_bind_congr rfl fun _ _ hmodify => ?_
      cases hmodify
      by_cases hfile : source.isFile (includePath file name)
      · simp only [if_pos hfile]
        refine stateT_bind_congr rfl fun text t hread => ?_
        obtain ⟨-, rfl⟩ := stateT_lift_eq_ok.mp hread
        exact stateT_bind_congr (hload _ (normalize_includePath file name) hfile hseen text) fun _ _ _ => rfl
      · simp only [if_neg hfile]

/-- A text with its includes comes to the same, if files do that have not been loaded before. -/
theorem expandWith_congr
    (hgrow : ∀ path text seen d seen', load path text seen = .ok (d, seen') → ∀ x ∈ seen, x ∈ seen')
    (hload : ∀ seen', (∀ x ∈ seen, x ∈ seen') → ∀ path, Path.normalize path = path → source.isFile path →
      path ∉ seen' → ∀ text, load path text (path :: seen') = load' path text (path :: seen')) :
    expandWith source load file text seen = expandWith source load' file text seen := by
  refine stateT_bind_congr rfl fun current t hparse => ?_
  obtain ⟨-, rfl⟩ := stateT_lift_eq_ok.mp hparse
  cases hlist : current.sections.get? includeName with
  | none => rfl
  | some list =>
    refine stateT_bind_congr ?_ fun _ _ _ => rfl
    clear hparse
    generalize Document.empty = merged
    generalize list.registry = entries
    -- the entries share what has been loaded, and that only grows
    induction entries generalizing merged seen with
    | nil => rfl
    | cons entry entries ih =>
      rw [List.foldlM_cons, List.foldlM_cons]
      have hentry := includeEntry_congr file merged entry (hload seen fun _ hmem => hmem)
      refine stateT_bind_congr hentry fun merged' seen' hrun => ?_
      have hsub : ∀ x ∈ seen, x ∈ seen' := by
        obtain ⟨name, -, ⟨-, -, rfl⟩ | ⟨-, -, text, d, -, hrun, -⟩⟩ := includeEntry_cases hrun
        · exact fun _ hmem => hmem
        · exact fun x hmem => hgrow _ _ _ _ _ hrun x (List.mem_cons_of_mem _ hmem)
      exact ih (fun seen'' hsub' => hload seen'' fun x hx => hsub' x (hsub x hx)) merged'

/-- **The idle paths bound the walk and do nothing else**: any two lists that cover the files that have
    not been loaded come to the same. -/
theorem expand_congr (h : Covers source idle seen) (h' : Covers source idle' seen) :
    expand source idle file text seen = expand source idle' file text seen := by
  induction idle, file, text using expand.induct generalizing idle' seen with
  | case1 idle file text ih =>
    rw [expand, expand]
    refine expandWith_congr (fun path text seen d seen' hrun => ?_) fun seen' hsub path hnormal hfile hnew text => ?_
    · split at hrun
      next => exact (expand_ok hrun).mono
      next => cases hrun
    · have hidle := h.mono hsub path hnormal hfile hnew
      have hidle' := h'.mono hsub path hnormal hfile hnew
      rw [dif_pos hidle, dif_pos hidle']
      exact ih path text hidle ((h.mono hsub).erase path) ((h'.mono hsub).erase path)

/-- **The walk is a recursion without a bound**: what a file includes is loaded in the same way as the
    text is. -/
theorem expand_names (source : Source) (file : Option String) (text : String) (seen : List String) :
    expand source source.names file text seen = expandWith source
      (fun path text => expand source source.names (some path) text) file text seen := by
  rw [expand]
  refine expandWith_congr (fun path text seen d seen' hrun => ?_) fun seen' _ path hnormal hfile hnew text => ?_
  · split at hrun
    next => exact (expand_ok hrun).mono
    next => cases hrun
  · rw [dif_pos (covers_names source seen' path hnormal hfile hnew)]
    exact expand_congr ((covers_names source seen').erase path) (covers_names source (path :: seen'))

end Expand

/-! ## Texts with their includes -/

/-- **Includes are a fold in depth-first post-order.**  For files that are texts in a table, a text
    with its includes satisfies the recursion that loads each file at its first mention, on every table
    and without a bound; and if it succeeds, the files that it has loaded are those that can be reached
    from its include list without passing its own name, each once, and the document is made by
    inserting the sections of their documents into the empty document, in the order in which their own
    includes are completed, and those of the text at the end. -/
theorem gather_postOrder (texts : Table String) (file : Option String) (text : String) :
    (∀ path text seen, expand (.ofTexts texts) texts.keys path text seen =
      expandWith (.ofTexts texts)
        (fun path text => expand (.ofTexts texts) texts.keys (some path) text) path text seen) ∧
    ∀ d loaded, gather (.ofTexts texts) file text = .ok (d, loaded) →
      ∃ current order ds, Document.ofSource file text = .ok current ∧
        PostOrder (Source.ofTexts texts).includes (file.toList.map Path.normalize)
          (current.includes file) order ∧
        order.Nodup ∧
        (∀ path, path ∈ order ↔ path ∉ file.toList.map Path.normalize ∧
          ∃ first ∈ current.includes file, Reach (Source.ofTexts texts).includes
            (file.toList.map Path.normalize) first path) ∧
        loaded.Perm (order ++ file.toList.map Path.normalize) ∧
        List.Forall₂ (fun path d => (Source.ofTexts texts).document path = .ok d) order ds ∧
        d = (ds ++ [current]).foldl Document.insertDocument .empty := by
  refine ⟨expand_names (.ofTexts texts), fun d loaded h => ?_⟩
  obtain ⟨current, ds, hparse, hwalked, hd⟩ := expand_ok h
  have hshape := hwalked.isNamed
  obtain ⟨order, hwalk, hdocuments, hperm⟩ := hwalked
  refine ⟨current, order, ds, hparse, hwalk, hwalk.nodup, hwalk.mem_iff, hperm, hdocuments, ?_⟩
  rw [hd]
  -- no file holds macros, so merging it in is inserting its sections
  refine List.foldl_ext _ _ _ fun e f hf => Document.merge_eq_insertDocument e ?_
  rcases List.mem_append.mp hf with hf | hf
  · exact (hshape f hf).1
  · rw [List.mem_singleton.mp hf]
    exact (Document.ofSource_shape hparse).1

/-- Two files that include each other, the first one also by a longer path. -/
def ring : Table String := .ofList [
  ("a", "[#include]\n+= \"b\"\n[S]\nx = 1\n"),
  ("b", "[#include]\n+= \"sub/../a\"\n+= \"c\"\n[S]\nx = 2\n"),
  ("c", "[S]\ny = 3\n")]

/-- Both other files are loaded once: `c` inside `b`, and `b` before the text that includes it. -/
theorem gather_postOrder_ring :
    (∀ path text seen, expand (.ofTexts ring) ring.keys path text seen =
      expandWith (.ofTexts ring)
        (fun path text => expand (.ofTexts ring) ring.keys (some path) text) path text seen) ∧
    ∃ text d, ring.get? "a" = some text ∧
      gather (.ofTexts ring) (some "a") text = .ok (d, ["c", "b", "a"]) ∧
      ∃ current order ds, Document.ofSource (some "a") text = .ok current ∧
        PostOrder (Source.ofTexts ring).includes ["a"] (current.includes (some "a")) order ∧
        order.Nodup ∧
        (∀ path, path ∈ order ↔ path ∉ ["a"] ∧
          ∃ first ∈ current.includes (some "a"), Reach (Source.ofTexts ring).includes ["a"] first path) ∧
        ["c", "b", "a"].Perm (order ++ ["a"]) ∧
        List.Forall₂ (fun path d => (Source.ofTexts ring).document path = .ok d) order ds ∧
        d = (ds ++ [current]).foldl Document.insertDocument .empty := by
  obtain ⟨hrecursion, hfold⟩ := gather_postOrder ring (some "a") ((ring.get? "a").getD "")
  refine ⟨hrecursion, ?_⟩
  have hok : ((ring.get? "a").bind fun text =>
      (gather (.ofTexts ring) (some "a") text).toOption).map Prod.snd = some ["c", "b", "a"] := by
    decide +kernel
  obtain ⟨⟨d, loaded⟩, h, hloaded⟩ := Option.map_eq_some_iff.mp hok
  obtain ⟨text, htext, h⟩ := Option.bind_eq_some_iff.mp h
  obtain rfl : loaded = ["c", "b", "a"] := hloaded
  have hrun := eq_ok_of_toOption h
  have hname : (some "a").toList.map Path.normalize = ["a"] := by decide
  rw [htext, Option.getD_some, hname] at hfold
  exact ⟨text, d, htext, hrun, hfold d _ hrun⟩

end Yini
