import Mathlib.Data.List.Induction
import Yini.Document.Basic
import Yini.Proofs.Table

/-!
Merging is associative: sections (`Section.merge_assoc`), tables of sections (`mergeTables_assoc`) and
documents (`Document.merge_assoc`), so documents can be merged in any grouping as long as their order
stays (`Document.merge_foldl`).

A table is determined by the order of its names and by its look-ups (`Table.ext_get?`).  The names of a
merged table are the names of both, joined in the way parents are (`Section.joinParents`), and its
look-ups are the merged look-ups.
-/

namespace Yini

variable {α : Type}

/-! ## Names -/

namespace Section

/-- Joined lists have the names of both. -/
theorem mem_joinParents {old new : List String} {p : String} :
    p ∈ joinParents old new ↔ p ∈ old ∨ p ∈ new := by
  induction new generalizing old with
  | nil => simp [joinParents]
  | cons q new ih =>
    show p ∈ joinParents (if q ∈ old then old else old ++ [q]) new ↔ _
    rw [ih]
    by_cases hq : q ∈ old
    · rw [if_pos hq, List.mem_cons]
      constructor
      · rintro (h | h)
        · exact .inl h
        · exact .inr (.inr h)
      · rintro (h | rfl | h)
        · exact .inl h
        · exact .inl hq
        · exact .inr h
    · rw [if_neg hq, List.mem_append, List.mem_singleton, List.mem_cons, or_assoc]

/-- The last name is added at the end, unless it is there. -/
theorem joinParents_concat (old new : List String) (p : String) :
    joinParents old (new ++ [p]) =
      if p ∈ joinParents old new then joinParents old new else joinParents old new ++ [p] :=
  List.foldl_append

/-- New and distinct names come to stand behind the old ones as they are. -/
theorem joinParents_of_nodup {old new : List String} (h : (old ++ new).Nodup) :
    joinParents old new = old ++ new := by
  induction new generalizing old with
  | nil => exact (List.append_nil old).symm
  | cons p new ih =>
    have hp : p ∉ old := fun hmem =>
      (List.nodup_append.mp h).2.2 p hmem p List.mem_cons_self rfl
    have hassoc : old ++ [p] ++ new = old ++ p :: new := by
      rw [List.append_assoc, List.singleton_append]
    show joinParents (if p ∈ old then old else old ++ [p]) new = _
    rw [if_neg hp, ih (by rwa [hassoc]), hassoc]

/-- Names that are there already add nothing. -/
theorem joinParents_of_subset {old new : List String} (h : ∀ p ∈ new, p ∈ old) :
    joinParents old new = old := by
  induction new with
  | nil => rfl
  | cons p new ih =>
    show joinParents (if p ∈ old then old else old ++ [p]) new = old
    rw [if_pos (h p List.mem_cons_self)]
    exact ih fun q hq => h q (List.mem_cons_of_mem _ hq)

/-- **Joining lists of names is associative**: a name stays where it occurs first. -/
theorem joinParents_assoc (old new more : List String) :
    joinParents (joinParents old new) more = joinParents old (joinParents new more) := by
  -- from the end of `more`, as names are added at the end
  induction more using List.reverseRecOn with
  | nil => rfl
  | append_singleton more p ih =>
    rw [joinParents_concat, joinParents_concat, ih]
    by_cases hp : p ∈ joinParents new more
    · rw [if_pos hp, if_pos (mem_joinParents.mpr (.inr hp))]
    · rw [if_neg hp, joinParents_concat]

end Section

/-! ## Tables -/

/-- Entries with the same names in the same order and with the same look-ups are the same. -/
theorem Entries.ext_get? {es fs : Entries α} (hkeys : es.keys = fs.keys) (hnodup : es.keys.Nodup)
    (h : ∀ k, es.get? k = fs.get? k) : es = fs := by
  induction es generalizing fs with
  | nil =>
    cases fs with
    | nil => rfl
    | cons f fs => cases hkeys
  | cons e es ih =>
    cases fs with
    | nil => cases hkeys
    | cons f fs =>
      obtain ⟨k, v⟩ := e
      obtain ⟨l, w⟩ := f
      obtain ⟨rfl, hrest⟩ := List.cons.inj hkeys
      obtain ⟨hk, hnodup⟩ := List.nodup_cons.mp hnodup
      have hhead := h k
      simp only [get?, if_true, Option.some.injEq] at hhead
      have htail : ∀ l, Entries.get? es l = Entries.get? fs l := by
        intro l
        -- the name of the first entry does not come again, so neither of the others is found under it
        by_cases hl : k = l
        · subst hl
          have hk' : k ∉ Entries.keys fs := fun hmem => hk (hrest ▸ hmem)
          rw [get?_eq_none_iff.mpr hk, get?_eq_none_iff.mpr hk']
        · have hl' := h l
          rwa [get?, get?, if_neg hl, if_neg hl] at hl'
      rw [hhead, ih hrest hnodup htail]

/-- **A table is the order of its names and its look-ups.** -/
theorem Table.ext_get? {s t : Table α} (hkeys : s.keys = t.keys) (h : ∀ k, s.get? k = t.get? k) :
    s = t :=
  Table.ext (Entries.ext_get? hkeys s.nodup_keys h)

theorem Table.keys_insert (t : Table α) (k : String) (v : α) :
    (t.insert k v).keys = Section.joinParents t.keys [k] := by
  by_cases hk : k ∈ t.keys
  · simp [Section.joinParents, hk, keys_insert_of_mem hk]
  · simp [Section.joinParents, hk, keys_insert_of_not_mem hk]

/-- Inserting entries joins their names to the names, one after the other. -/
theorem Table.keys_insertAll (t : Table α) (new : Entries α) :
    (t.insertAll new).keys = Section.joinParents t.keys new.keys := by
  induction new generalizing t with
  | nil => rfl
  | cons e new ih =>
    show ((t.insert e.1 e.2).insertAll new).keys = _
    rw [ih, keys_insert]
    rfl

/-- Inserting a table into another one is associative. -/
theorem Table.insertAll_assoc (s t u : Table α) :
    (s.insertAll t.entries).insertAll u.entries = s.insertAll (t.insertAll u.entries).entries := by
  refine ext_get? ?_ fun k => ?_
  · rw [keys_insertAll, keys_insertAll, keys_insertAll, Section.joinParents_assoc]
    exact congrArg _ (keys_insertAll t u.entries).symm
  · rw [get?_insertAll, get?_insertAll, get?_insertAll, get?_insertAll, Option.or_assoc]

/-! ## Sections -/

/-- **Merging sections is associative.** -/
theorem Section.merge_assoc (s t u : Section) : (s.merge t).merge u = s.merge (t.merge u) := by
  simp only [merge, joinParents_assoc, Table.insertAll_assoc, List.append_assoc]

/-! ## Tables of sections -/

/-- Whether every section stands under its own name. -/
def Named (t : Table Section) : Prop := ∀ k s, t.get? k = some s → s.name = k

theorem named_empty : Named ∅ := by
  intro k s h
  cases h

/-- The table with all sections of another one declared. -/
def mergeTables (t u : Table Section) : Table Section := u.values.foldl Document.declare t

/-- A declared section is merged into the one of its name, if there is one; the others stay. -/
theorem Document.get?_declare (t : Table Section) (s : Section) (k : String) :
    (declare t s).get? k =
      Option.merge Section.merge (t.get? k) (if s.name = k then some s else none) := by
  unfold declare
  by_cases hk : s.name = k
  · subst hk
    cases h : t.get? s.name <;> simp [Option.merge, Table.get?_insert_self]
  · rw [if_neg hk]
    cases t.get? s.name <;> simp only [Table.get?_insert_of_ne t hk] <;> cases t.get? k <;> rfl

/-- A section of the table after a declaration is an old one, the new one, or the two merged. -/
theorem Document.get?_declare_cases {t : Table Section} {s u : Section} {n : String}
    (h : (declare t s).get? n = some u) : t.get? n = some u ∨
      (s.name = n ∧ (u = s ∨ ∃ first, t.get? n = some first ∧ u = first.merge s)) := by
  rw [get?_declare] at h
  by_cases hn : s.name = n
  · refine .inr ⟨hn, ?_⟩
    rw [if_pos hn] at h
    cases ht : t.get? n with
    | none =>
      rw [ht] at h
      exact .inl (Option.some.inj h).symm
    | some first =>
      rw [ht] at h
      exact .inr ⟨first, rfl, (Option.some.inj h).symm⟩
  · rw [if_neg hn] at h
    cases ht : t.get? n with
    | none => rw [ht] at h; cases h
    | some first => rw [ht] at h; exact .inl h

/-- Declaring a section joins its name to the names. -/
theorem Document.keys_declare (t : Table Section) (s : Section) :
    (declare t s).keys = Section.joinParents t.keys [s.name] := by
  unfold declare
  split <;> exact Table.keys_insert t s.name _

/-- Sections stay under their own names when another one is declared. -/
theorem named_declare {t : Table Section} (h : Named t) (s : Section) :
    Named (Document.declare t s) := by
  intro k u hu
  rw [Document.get?_declare] at hu
  by_cases hk : s.name = k
  · rw [if_pos hk] at hu
    cases ht : t.get? k with
    | none =>
      rw [ht] at hu
      cases hu
      exact hk
    | some first =>
      rw [ht] at hu
      cases hu
      exact h k first ht
  · rw [if_neg hk] at hu
    refine h k u ?_
    cases ht : t.get? k with
    | none => rw [ht] at hu; cases hu
    | some first => rw [ht] at hu; exact hu

/-- Sections stay under their own names when tables are merged; they come in one after the other. -/
theorem named_mergeTables {t : Table Section} (h : Named t) (u : Table Section) :
    Named (mergeTables t u) := by
  unfold mergeTables
  generalize u.values = ss
  induction ss generalizing t with
  | nil => exact h
  | cons s ss ih => exact ih (named_declare h s)

/-- The names of merged tables are those of both, joined as parents are. -/
theorem keys_mergeTables (t : Table Section) {u : Table Section} (hu : Named u) :
    (mergeTables t u).keys = Section.joinParents t.keys u.keys := by
  have hfold : ∀ ss : List Section, ∀ t : Table Section, (ss.foldl Document.declare t).keys =
      Section.joinParents t.keys (ss.map Section.name) := by
    intro ss
    induction ss with
    | nil => exact fun _ => rfl
    | cons s ss ih =>
      intro t
      rw [List.foldl_cons, ih, Document.keys_declare]
      rfl
  have hnames : u.values.map Section.name = u.keys := by
    rw [Table.values, List.map_map]
    exact List.map_congr_left fun e he => hu e.1 e.2 (Table.mem_entries_iff.mp he)
  rw [mergeTables, hfold, hnames]

/-- **What is found in merged tables** is what is found in both, merged. -/
theorem get?_mergeTables (t : Table Section) {u : Table Section} (hu : Named u) (k : String) :
    (mergeTables t u).get? k = Option.merge Section.merge (t.get? k) (u.get? k) := by
  have hfold : ∀ es : Entries Section, es.keys.Nodup → (∀ e ∈ es, e.2.name = e.1) →
      ∀ t : Table Section, ((es.map Prod.snd).foldl Document.declare t).get? k =
        Option.merge Section.merge (t.get? k) (es.get? k) := by
    intro es
    induction es with
    | nil =>
      intro _ _ t
      show t.get? k = Option.merge Section.merge (t.get? k) none
      cases t.get? k <;> rfl
    | cons e es ih =>
      obtain ⟨l, s⟩ := e
      intro hnodup hnames t
      obtain ⟨hl, hnodup⟩ := List.nodup_cons.mp hnodup
      have hs : s.name = l := hnames (l, s) List.mem_cons_self
      show ((es.map Prod.snd).foldl Document.declare (Document.declare t s)).get? k = _
      rw [ih hnodup (fun f hf => hnames f (List.mem_cons_of_mem _ hf)), Document.get?_declare, hs,
        Entries.get?]
      -- names are unique in the second table, so what has been merged under `l` is not met again
      by_cases hk : l = k
      · subst hk
        rw [if_pos rfl, if_pos rfl, Entries.get?_eq_none_iff.mpr hl]
        cases t.get? l <;> rfl
      · rw [if_neg hk, if_neg hk]
        cases t.get? k <;> rfl
  exact hfold u.entries u.nodup_keys (fun e he => hu e.1 e.2 (Table.mem_entries_iff.mp he)) t

/-- **Merging tables of sections is associative**: names and look-ups are the same in both groupings. -/
theorem mergeTables_assoc (t : Table Section) {u v : Table Section} (hu : Named u) (hv : Named v) :
    mergeTables (mergeTables t u) v = mergeTables t (mergeTables u v) := by
  have huv := named_mergeTables hu v
  refine Table.ext_get? ?_ fun k => ?_
  · rw [keys_mergeTables _ hv, keys_mergeTables _ hu, keys_mergeTables _ huv, keys_mergeTables _ hv,
      Section.joinParents_assoc]
  · rw [get?_mergeTables _ hv, get?_mergeTables _ hu, get?_mergeTables _ huv, get?_mergeTables _ hv]
    cases t.get? k <;> cases u.get? k <;> cases v.get? k <;> simp [Option.merge, Section.merge_assoc]

/-- A section that is declared in the second table is declared behind it. -/
theorem mergeTables_declare (t : Table Section) {u : Table Section} (hu : Named u) (s : Section) :
    mergeTables t (Document.declare u s) = Document.declare (mergeTables t u) s := by
  -- one section is merged in as a table of its own
  have hone : ∀ w : Table Section, mergeTables w (Document.declare ∅ s) = Document.declare w s :=
    fun _ => rfl
  have hs : Named (Document.declare ∅ s) := named_declare named_empty s
  rw [← hone u, ← mergeTables_assoc t hu hs, hone]

/-- A table that is merged into the empty one stays as it is. -/
theorem empty_mergeTables {u : Table Section} (hu : Named u) : mergeTables ∅ u = u := by
  refine Table.ext_get? ?_ fun k => ?_
  · rw [keys_mergeTables _ hu]
    exact Section.joinParents_of_nodup u.nodup_keys
  · rw [get?_mergeTables _ hu]
    show Option.merge Section.merge none (u.get? k) = _
    cases u.get? k <;> rfl

/-! ## Documents -/

namespace Document

/-- Whether every section and every schema section stands under its own name. -/
structure IsNamed (d : Document) : Prop where
  sections : Named d.sections
  schemas : Named d.schemas

variable {d e f : Document}

theorem isNamed_empty : IsNamed .empty := ⟨named_empty, named_empty⟩

/-- Merging keeps the sections under their names. -/
theorem IsNamed.merge (h : d.IsNamed) (e : Document) : (d.merge e).IsNamed :=
  ⟨named_mergeTables h.sections e.sections, named_mergeTables h.schemas e.schemas⟩

/-- Inserting a section keeps all under their names. -/
theorem IsNamed.insertSection (h : d.IsNamed) (s : Section) : (d.insertSection s).IsNamed :=
  ⟨named_declare h.sections s, h.schemas⟩

/-- Inserting a schema keeps all under their names. -/
theorem IsNamed.insertSchema (h : d.IsNamed) (s : Section) : (d.insertSchema s).IsNamed :=
  ⟨h.sections, named_declare h.schemas s⟩

/-- A section can be inserted before or after merging. -/
theorem merge_insertSection (d : Document) (he : e.IsNamed) (s : Section) :
    d.merge (e.insertSection s) = (d.merge e).insertSection s :=
  congrArg (fun sections => { d.merge e with sections }) (mergeTables_declare d.sections he.sections s)

/-- A schema can be inserted before or after merging. -/
theorem merge_insertSchema (d : Document) (he : e.IsNamed) (s : Section) :
    d.merge (e.insertSchema s) = (d.merge e).insertSchema s :=
  congrArg (fun schemas => { d.merge e with schemas }) (mergeTables_declare d.schemas he.schemas s)

/-- **Merging is associative.** -/
theorem merge_assoc (d : Document) (he : e.IsNamed) (hf : f.IsNamed) :
    (d.merge e).merge f = d.merge (e.merge f) := by
  have hsections := mergeTables_assoc d.sections he.sections hf.sections
  have hschemas := mergeTables_assoc d.schemas he.schemas hf.schemas
  unfold mergeTables at hsections hschemas
  simp only [merge, hsections, hschemas, Table.insertAll_assoc]

/-- A document that is merged into the empty one stays as it is. -/
theorem empty_merge (h : d.IsNamed) : Document.empty.merge d = d := by
  have hsections := empty_mergeTables h.sections
  have hschemas := empty_mergeTables h.schemas
  have hmacros : (∅ : Table Value).insertAll d.macros.entries = d.macros := d.macros.ofList_entries
  unfold mergeTables at hsections hschemas
  simp only [merge, empty, hsections, hschemas, hmacros]

/-- Merging in documents that have been merged is merging them in one after the other. -/
theorem merge_foldl (d : Document) {ds : List Document} (h : ∀ e ∈ ds, e.IsNamed) :
    d.merge (ds.foldl merge .empty) = ds.foldl merge d := by
  have hfrom : ∀ e, e.IsNamed → d.merge (ds.foldl merge e) = ds.foldl merge (d.merge e) := by
    induction ds with
    | nil => exact fun _ _ => rfl
    | cons f ds ih =>
      intro e he
      rw [List.foldl_cons, List.foldl_cons, ih (fun g hg => h g (List.mem_cons_of_mem _ hg)) _
        (he.merge f), merge_assoc d he (h f List.mem_cons_self)]
  exact hfrom .empty isNamed_empty

/-- The document with the sections of another one inserted one after the other, and then its schema
    sections. -/
def insertDocument (d e : Document) : Document :=
  e.schemas.values.foldl insertSchema (e.sections.values.foldl insertSection d)

/-- A document without macros is merged in by inserting its sections. -/
theorem merge_eq_insertDocument (d : Document) (h : e.macros = ∅) :
    d.merge e = d.insertDocument e := by
  have hsections : ∀ ss : List Section, ∀ d : Document,
      ss.foldl insertSection d = { d with sections := ss.foldl declare d.sections } := by
    intro ss
    induction ss with
    | nil => exact fun _ => rfl
    | cons s ss ih => exact fun d => ih (d.insertSection s)
  have hschemas : ∀ ss : List Section, ∀ d : Document,
      ss.foldl insertSchema d = { d with schemas := ss.foldl declare d.schemas } := by
    intro ss
    induction ss with
    | nil => exact fun _ => rfl
    | cons s ss ih => exact fun d => ih (d.insertSchema s)
  rw [insertDocument, hsections, hschemas, merge, h]
  rfl

end Document

end Yini
