import Yini.Proofs.Merge

/-!
Patching is associative (`Document.patch_assoc`): patches can be put together before they are applied, and
a patch that changes nothing is neutral.

A patched document is known by the order of its sections (`keys_patch`) and by its look-ups
(`get?_patch`).  Each section is what is there with what the patch has for it (`patched`), and for one
section it makes no difference whether two patches come one after the other or as one
(`patched_patched`): a section that is new comes in whole either way, and to one that is there both add
what they have for it.
-/

namespace Yini.Document

variable {d q : Document}

/-- A section with what a patch has for it. -/
def patched (old : Option Section) (s : Section) : Section :=
  match old with
  | some old => { old with
      properties := old.properties.insertAll s.properties.entries
      registry := old.registry ++ s.registry }
  | none => s

/-- The sections of a patched document are made one after the other, in the order of the patch. -/
theorem sections_patch (d q : Document) : (d.patch q).sections =
    q.sections.entries.foldl (fun t f => t.insert f.1 (patched (t.get? f.1) f.2)) d.sections := by
  show List.foldl _ d.sections q.sections.entries = _
  congr 1
  funext t ⟨name, s⟩
  simp only [patched]
  cases t.get? name <;> rfl

/-- A section of a patched document is what the patch makes of the old one, if it has it. -/
theorem get?_patch (d q : Document) (n : String) :
    (d.patch q).sections.get? n =
      ((q.sections.get? n).map (patched (d.sections.get? n))).or (d.sections.get? n) := by
  rw [sections_patch]
  show _ = ((q.sections.entries.get? n).map _).or _
  have hnodup := q.sections.nodup_keys
  generalize q.sections.entries = es at hnodup
  generalize d.sections = t
  induction es generalizing t with
  | nil => rfl
  | cons f es ih =>
    obtain ⟨name, s⟩ := f
    obtain ⟨hname, hnodup⟩ := List.nodup_cons.mp hnodup
    rw [List.foldl_cons, ih hnodup, Entries.get?]
    by_cases hn : name = n
    · subst hn
      have hnone : Entries.get? es name = none := Entries.get?_eq_none_iff.mpr hname
      rw [hnone, if_pos rfl, Table.get?_insert_self]
      rfl
    · rw [if_neg hn, Table.get?_insert_of_ne _ hn]

/-- The sections of a patch that are new come behind those that are there. -/
theorem keys_patch (d q : Document) :
    (d.patch q).sections.keys = Section.joinParents d.sections.keys q.sections.keys := by
  rw [sections_patch]
  show _ = Section.joinParents _ q.sections.entries.keys
  generalize q.sections.entries = es
  generalize d.sections = t
  induction es generalizing t with
  | nil => rfl
  | cons f es ih =>
    rw [List.foldl_cons, ih, Table.keys_insert]
    rfl

/-- **Two patches of a section** make of it what they make of it as one. -/
theorem patched_patched (old : Option Section) (s t : Section) :
    patched (some (patched old s)) t = patched old (patched (some s) t) := by
  cases old with
  | none => rfl
  | some old =>
    simp only [patched, Table.insertAll_assoc, List.append_assoc]

/-- **Patching the sections twice** is patching them with both patches as one. -/
theorem sections_patch_patch (b p q : Document) :
    ((b.patch p).patch q).sections = (b.patch (p.patch q)).sections := by
  refine Table.ext_get? ?_ fun n => ?_
  · rw [keys_patch, keys_patch, keys_patch, keys_patch, Section.joinParents_assoc]
  · rw [get?_patch, get?_patch, get?_patch, get?_patch]
    -- only where both patches have the section does the grouping matter
    cases p.sections.get? n with
    | none => cases q.sections.get? n <;> rfl
    | some s =>
      cases q.sections.get? n with
      | none => rfl
      | some t => exact congrArg some (patched_patched _ s t)

/-- What is patched into an empty document are the sections of the patch. -/
theorem empty_patch (p : Document) : empty.patch p = { p with macros := ∅, schemas := ∅ } := by
  have hsections : (empty.patch p).sections = p.sections := by
    refine Table.ext_get? ?_ fun n => ?_
    · rw [keys_patch]
      exact Section.joinParents_of_nodup p.sections.nodup_keys
    · rw [get?_patch]
      cases p.sections.get? n <;> rfl
  rw [← hsections]
  rfl

/-- **Patching is associative.**  Two patches one after the other do what the second one applied to the
    first does: the same sections in the same order, with everything that is in them.  The macros and the
    schemas stay those of the document, an empty patch changes nothing, and an empty document takes over
    the sections of the patch. -/
theorem patch_assoc (b p q : Document) :
    (b.patch p).patch q = b.patch (p.patch q) ∧ (b.patch p).macros = b.macros ∧
      (b.patch p).schemas = b.schemas ∧ b.patch empty = b ∧
      empty.patch p = { p with macros := ∅, schemas := ∅ } := by
  have hsections := sections_patch_patch b p q
  refine ⟨?_, rfl, rfl, rfl, empty_patch p⟩
  show Document.mk .. = Document.mk ..
  exact congrArg (Document.mk · b.macros b.schemas) hsections

end Yini.Document
