import Yini.Fault.Report
import Yini.Proofs.Document
import Yini.Proofs.Ybin.Reading
import Yini.Proofs.Ybin.Writing

/-!
What becomes of a document that is encoded and decoded again.

A document has bytes exactly if no operation and no rule stands in its sections.  Its bytes are
decoded exactly if containers nest at most `maxNesting` deep in properties and one level deeper in
registries, where a section does not count as a level; then everything comes back but places, schema
sections, and macros that are not defined in a section (`decode_encode`).
-/

namespace Yini

namespace Section

/-- Whether the containers of the section nest no deeper than the decoder allows. -/
def shallow (s : Section) : Bool :=
  s.properties.values.all (·.levels ≤ maxNesting) && s.registry.all (·.levels ≤ maxNesting + 1)

end Section

namespace Document

/-- Whether every section is stored under its own name. -/
def storedByName (d : Document) : Bool := d.sections.entries.all fun (name, s) => s.name == name

/-- Whether all values in sections are well-formed. -/
def wellFormed (d : Document) : Bool :=
  d.sections.values.all fun s => s.contents.all Value.wellFormed

/-- Whether no operation and no rule stands in the sections. -/
def encodable (d : Document) : Bool :=
  d.sections.values.all fun s => s.contents.all Value.encodable

/-- Whether containers nest no deeper than the decoder allows, in every section. -/
def shallow (d : Document) : Bool := d.sections.values.all Section.shallow

/-- What the bytes of a document keep: the sections without places, and the macros that a section
    defines. -/
def kept (d : Document) : Document where
  sections := d.sections.mapValues Section.bare
  macros :=
    match d.sections.get? defineName with
    | some s => s.properties.mapValues Value.bare
    | none => ∅
  schemas := ∅

end Document

namespace Ybin

/-- Whether all texts and counts of a section fit. -/
def sectionFits (s : Section) : Bool :=
  textFits s.name && (fits s.parents.length && s.parents.all textFits) &&
    (fits s.properties.size && s.properties.entries.all fun (k, v) => textFits k && valueFits v) &&
    (fits s.registry.length && s.registry.all valueFits)

/-- Whether all texts and counts of the sections of a document fit. -/
def documentFits (d : Document) : Bool :=
  fits d.sections.size && d.sections.values.all sectionFits

theorem fits_of_property {s : Section} (hf : sectionFits s) {e : String × Value}
    (h : e ∈ s.properties.entries) : textFits e.1 ∧ valueFits e.2 := by
  simp only [sectionFits, Bool.and_eq_true, List.all_eq_true] at hf
  exact hf.1.2.2 e h

theorem fits_of_entry {s : Section} (hf : sectionFits s) {v : Value} (h : v ∈ s.registry) :
    valueFits v := by
  simp only [sectionFits, Bool.and_eq_true, List.all_eq_true] at hf
  exact hf.2.2 v h

theorem fits_of_document {d : Document} (hf : documentFits d) :
    fits d.sections.values.length ∧ ∀ s ∈ d.sections.values, sectionFits s := by
  simp only [documentFits, Bool.and_eq_true, List.all_eq_true] at hf
  rw [Table.values, List.length_map]
  exact hf

/-! ## Writing -/

namespace Write

/-- A section that fits and has a form is written in that form. -/
theorem writes_section {s : Section} (hf : sectionFits s) (he : ∀ v ∈ s.contents, v.encodable) :
    Writes («section» s) (sectionForm s) := by
  have hprop : ∀ e ∈ s.properties.entries, Writes (field e) (fieldForm e) := by
    intro e hmem
    obtain ⟨hk, hv⟩ := fits_of_property hf hmem
    exact writes_field hk (writes_value e.2 (he _ (Section.mem_contents_of_property hmem)) hv)
  have hregistry : ∀ v ∈ s.registry, Writes (value v) (valueForm v) := fun v hmem =>
    writes_value v (he v (Section.mem_contents_of_entry hmem)) (fits_of_entry hf hmem)
  simp only [sectionFits, Bool.and_eq_true, List.all_eq_true] at hf
  obtain ⟨⟨⟨hname, hparents, hparentsFit⟩, hsize, -⟩, hlen, -⟩ := hf
  -- the count of a step and the items that it counts are one piece of the form
  have h := (writes_text hname).seq ((writes_counted hparents fun p hp =>
    writes_text (hparentsFit p hp)).seq ((writes_counted hsize hprop).seq
      (writes_counted hlen hregistry)))
  simp only [bind_assoc] at h
  rw [«section», fields_eq_forM, values_eq_forM]
  exact h

/-- A section with a value that has no form is not written. -/
theorem fails_section {s : Section} {v : Value} (hv : v ∈ s.contents) (he : v.encodable = false) :
    Fails («section» s) := by
  rw [«section», fields_eq_forM, values_eq_forM]
  rcases List.mem_append.mp hv with hv | hv
  · obtain ⟨e, hmem, rfl⟩ := List.mem_map.mp hv
    have hfield : Fails (field e) := (fails_value _ he).seq_right _
    exact ((((((fails_forM hmem hfield).seq_left _).seq_right _).seq_right _).seq_right _).seq_right
      _)
  · exact ((((((fails_forM hv (fails_value _ he)).seq_right _).seq_right _).seq_right _).seq_right
      _).seq_right _).seq_right _

/-- **A document that fits and has a form is written in that form.** -/
theorem writes_document {d : Document} (hf : documentFits d) (he : d.encodable) :
    Writes (document d) (documentForm d) := by
  simp only [Document.encodable, List.all_eq_true] at he
  obtain ⟨hsize, hsections⟩ := fits_of_document hf
  have h := (writes_word magic.toUInt32).seq ((writes_byte version).seq
    (writes_counted hsize fun s hs => writes_section (hsections s hs) (he s hs)))
  rw [Table.values, List.length_map] at h
  exact h

/-- A document with a value that has no form is not written. -/
theorem fails_document {d : Document} (he : d.encodable = false) : Fails (document d) := by
  obtain ⟨s, hs, v, hv, hve⟩ :
      ∃ s ∈ d.sections.values, ∃ v ∈ s.contents, v.encodable = false := by
    simpa [Document.encodable, List.all_eq_false] using he
  exact ((((fails_forM hs (fails_section hv hve)).seq_right _).seq_right _).seq_right _)

end Write

theorem encode_of_encodable {d : Document} (hf : documentFits d) (he : d.encodable) :
    encode d = .ok (documentForm d).toByteArray := by
  unfold encode
  rw [Write.writes_document hf he]
  have hbytes : (⟨ByteArray.empty.data ++ (documentForm d).toArray⟩ : ByteArray)
      = (documentForm d).toByteArray := by
    apply ByteArray.ext
    rw [List.data_toByteArray]
    exact Array.empty_append
  rw [hbytes]

theorem encode_of_not_encodable {d : Document} (he : d.encodable = false) :
    ∃ fault, encode d = .error fault := by
  obtain ⟨fault, rest, h⟩ := Write.fails_document he .empty
  refine ⟨fault, ?_⟩
  unfold encode
  rw [h]

/-! ## Reading -/

namespace Read

/-- The fields of a table are read into a table again. -/
theorem ofList_map_bare (t : Table Value) :
    Table.ofList (t.entries.map fun e => (e.1, e.2.bare)) = t.mapValues Value.bare :=
  Table.ofList_entries (t.mapValues Value.bare)

section Sections

variable {s : Section} (hf : sectionFits s) (he : ∀ v ∈ s.contents, v.encodable)
  (hw : ∀ v ∈ s.contents, v.wellFormed)

include hf he hw

/-- A property is read if its containers nest at most `maxNesting` deep. -/
theorem reads_property {e : String × Value} (hmem : e ∈ s.properties.entries)
    (hlevels : e.2.levels ≤ maxNesting) :
    Reads (field (value maxNesting)) (fieldForm e) (e.1, e.2.bare) := by
  have hcontents := Section.mem_contents_of_property hmem
  obtain ⟨hk, hv⟩ := fits_of_property hf hmem
  exact reads_field hk (reads_value e.2 (he _ hcontents) hv (hw _ hcontents) maxNesting hlevels)

/-- A property that nests too deeply is refused. -/
theorem tooDeep_property {e : String × Value} (hmem : e ∈ s.properties.entries)
    (hlevels : maxNesting < e.2.levels) :
    TooDeep (field (value maxNesting)) (fieldForm e) := by
  have hcontents := Section.mem_contents_of_property hmem
  obtain ⟨hk, hv⟩ := fits_of_property hf hmem
  exact tooDeep_field hk (tooDeep_value e.2 (he _ hcontents) hv (hw _ hcontents) maxNesting hlevels)

/-- An entry of the registry is read if its containers nest at most one level deeper. -/
theorem reads_entry {v : Value} (hmem : v ∈ s.registry) (hlevels : v.levels ≤ maxNesting + 1) :
    Reads loneValue (valueForm v) v.bare := by
  have hcontents := Section.mem_contents_of_entry hmem
  exact reads_value v (he v hcontents) (fits_of_entry hf hmem) (hw v hcontents) _ hlevels

/-- An entry of a registry may nest one level more, and is refused beyond that. -/
theorem tooDeep_entry {v : Value} (hmem : v ∈ s.registry) (hlevels : maxNesting + 1 < v.levels) :
    TooDeep loneValue (valueForm v) := by
  have hcontents := Section.mem_contents_of_entry hmem
  exact tooDeep_value v (he v hcontents) (fits_of_entry hf hmem) (hw v hcontents) _ hlevels

/-- A shallow section is read back without its places. -/
theorem reads_section (hs : s.shallow) : Reads «section» (sectionForm s) s.bare := by
  simp only [Section.shallow, Bool.and_eq_true, List.all_eq_true, decide_eq_true_eq] at hs
  have hfit := hf
  simp only [sectionFits, Bool.and_eq_true, List.all_eq_true] at hfit
  obtain ⟨⟨⟨hname, hparents, hparentsFit⟩, hsize, -⟩, hlen, -⟩ := hfit
  refine (reads_text hname).bind ?_
  have hps : Reads (counted text) _ (s.parents.map id) :=
    reads_counted hparents fun p hp => reads_text (hparentsFit p hp)
  refine hps.bind ?_
  have hprops : Reads (counted (field (value maxNesting)))
      (countedForm fieldForm s.properties.entries) _ := reads_counted hsize fun e hmem =>
    reads_property hf he hw hmem (hs.1 _ (List.mem_map.mpr ⟨e, hmem, rfl⟩))
  refine hprops.bind ?_
  have hreg := reads_counted hlen fun v hmem => reads_entry hf he hw hmem (hs.2 v hmem)
  have h := hreg.map fun vs => (⟨s.name, s.parents.map id,
    .ofList (s.properties.entries.map fun e => (e.1, e.2.bare)), vs, .none, ∅⟩ : Section)
  rw [ofList_map_bare, List.map_id] at h
  rw [ofList_map_bare, List.map_id]
  exact h

theorem tooDeep_section (hs : s.shallow = false) : TooDeep «section» (sectionForm s) := by
  have hfit := hf
  simp only [sectionFits, Bool.and_eq_true, List.all_eq_true] at hfit
  obtain ⟨⟨⟨hname, hparents, hparentsFit⟩, hsize, -⟩, hlen, -⟩ := hfit
  have hprop : ∀ e ∈ s.properties.entries,
      Reads (field (value maxNesting)) (fieldForm e) (e.1, e.2.bare) ∨
        TooDeep (field (value maxNesting)) (fieldForm e) := fun e hmem =>
    (Nat.lt_or_ge maxNesting e.2.levels).elim (fun h => .inr (tooDeep_property hf he hw hmem h))
      (fun h => .inl (reads_property hf he hw hmem h))
  have hentry : ∀ v ∈ s.registry,
      Reads loneValue (valueForm v) v.bare ∨ TooDeep loneValue (valueForm v) := fun v hmem =>
    (Nat.lt_or_ge (maxNesting + 1) v.levels).elim
      (fun h => .inr (tooDeep_entry hf he hw hmem h)) (fun h => .inl (reads_entry hf he hw hmem h))
  refine (reads_text hname).bind_tooDeep ?_
  have hps : Reads (counted text) _ (s.parents.map id) :=
    reads_counted hparents fun p hp => reads_text (hparentsFit p hp)
  refine hps.bind_tooDeep ?_
  by_cases hall : ∀ e ∈ s.properties.entries, e.2.levels ≤ maxNesting
  · -- all properties are read, so the registry holds the value that is too deep
    have hprops : Reads (counted (field (value maxNesting)))
        (countedForm fieldForm s.properties.entries) _ := reads_counted hsize fun e hmem =>
      reads_property hf he hw hmem (hall e hmem)
    refine hprops.bind_tooDeep ?_
    obtain ⟨v, hmem, hdeep⟩ : ∃ v ∈ s.registry, maxNesting + 1 < v.levels := by
      have hvalues : s.properties.values.all (·.levels ≤ maxNesting) = true := by
        rw [List.all_eq_true]
        intro v hv
        obtain ⟨e, hmem, rfl⟩ := List.mem_map.mp hv
        exact decide_eq_true (hall e hmem)
      rw [Section.shallow, hvalues, Bool.true_and, List.all_eq_false] at hs
      simpa using hs
    have hreg := tooDeep_counted hlen hentry hmem (tooDeep_entry hf he hw hmem hdeep)
    have h := hreg.bind (fun vs => pure (⟨s.name, s.parents.map id,
      .ofList (s.properties.entries.map fun e => (e.1, e.2.bare)), vs, .none, ∅⟩ : Section)) []
    rw [List.append_nil] at h
    exact h
  · obtain ⟨e, hmem, hdeep⟩ : ∃ e ∈ s.properties.entries, maxNesting < e.2.levels := by
      simpa using hall
    exact (tooDeep_counted hsize hprop hmem (tooDeep_property hf he hw hmem hdeep)).bind _ _

end Sections

/-! ## Documents -/

/-- Sections are added to the document in their order. -/
theorem reads_sections {ss : List Section} (h : ∀ s ∈ ss, Reads «section» (sectionForm s) s.bare) :
    ∀ d, Reads (sections ss.length d) (ss.flatMap sectionForm)
      ((ss.map Section.bare).foldl Document.insertSection d) := by
  induction ss with
  | nil => exact fun d => reads_pure d
  | cons s ss ih =>
    intro d
    exact (h s List.mem_cons_self).bind
      (ih (fun t ht => h t (List.mem_cons_of_mem _ ht)) (d.insertSection s.bare))

/-- **Sections are refused if one of them is**: those before it are read back. -/
theorem tooDeep_sections {ss : List Section}
    (h : ∀ s ∈ ss, Reads «section» (sectionForm s) s.bare ∨ TooDeep «section» (sectionForm s))
    {s : Section} (hs : s ∈ ss) (hdeep : TooDeep «section» (sectionForm s)) :
    ∀ d, TooDeep (sections ss.length d) (ss.flatMap sectionForm) := by
  induction ss with
  | nil => exact absurd hs List.not_mem_nil
  | cons t ss ih =>
    intro d
    rcases h t List.mem_cons_self with ht | ht
    · rcases List.mem_cons.mp hs with rfl | hs
      · exact hdeep.bind _ _
      · exact ht.bind_tooDeep (ih (fun u hu => h u (List.mem_cons_of_mem _ hu)) hs _)
    · exact ht.bind _ _

end Read

/-- Declaring sections with new and distinct names puts them at the end as they are. -/
theorem foldl_insertSection (new : Entries Section) :
    ∀ d : Document, (Entries.keys (d.sections.entries ++ new)).Nodup →
      (∀ e ∈ new, e.2.name = e.1) →
      ((new.map Prod.snd).foldl Document.insertSection d).sections.entries
        = d.sections.entries ++ new := by
  induction new with
  | nil => intro d _ _; simp
  | cons e new ih =>
    obtain ⟨name, s⟩ := e
    intro d hnodup hname
    have hs : s.name = name := hname _ List.mem_cons_self
    -- no section of that name is there, so this one comes to stand at the end
    have hnew : name ∉ d.sections.keys := by
      intro hmem
      rw [Entries.keys_append] at hnodup
      exact (List.nodup_append.mp hnodup).2.2 name hmem name List.mem_cons_self rfl
    have hinsert : (d.insertSection s).sections.entries = d.sections.entries ++ [(name, s)] := by
      simp only [Document.insertSection, Document.declare, hs, Table.get?_eq_none_iff.mpr hnew]
      exact Table.entries_insert_of_not_mem hnew
    have hassoc : d.sections.entries ++ (name, s) :: new = (d.insertSection s).sections.entries ++ new
        := by rw [hinsert, List.append_assoc, List.singleton_append]
    show ((new.map Prod.snd).foldl Document.insertSection (d.insertSection s)).sections.entries = _
    rw [ih _ (by rwa [← hassoc]) fun e he => hname e (List.mem_cons_of_mem _ he), hassoc]

/-- Declaring sections leaves macros and schema sections alone. -/
theorem foldl_insertSection_rest (ss : List Section) :
    ∀ d : Document, (ss.foldl Document.insertSection d).macros = d.macros ∧
      (ss.foldl Document.insertSection d).schemas = d.schemas := by
  induction ss with
  | nil => exact fun d => ⟨rfl, rfl⟩
  | cons s ss ih => exact fun d => ih (d.insertSection s)

/-- The decoded sections of a document that stores its sections by name. -/
theorem foldl_insertSection_kept {d : Document} (hn : d.storedByName) :
    (d.sections.values.map Section.bare).foldl Document.insertSection .empty
      = { d.kept with macros := ∅ } := by
  have hentries : d.sections.values.map Section.bare = d.kept.sections.entries.map Prod.snd := by
    simp [Document.kept, Table.mapValues, Table.values]
  have hname : ∀ e ∈ d.kept.sections.entries, e.2.name = e.1 := by
    intro e he
    obtain ⟨⟨name, s⟩, hmem, rfl⟩ := List.mem_map.mp he
    simp only [Document.storedByName, List.all_eq_true, beq_iff_eq] at hn
    exact hn (name, s) hmem
  have hsections := foldl_insertSection d.kept.sections.entries .empty d.kept.sections.nodup_keys hname
  obtain ⟨hmacros, hschemas⟩ := foldl_insertSection_rest (d.kept.sections.entries.map Prod.snd) .empty
  rw [hentries]
  generalize (d.kept.sections.entries.map Prod.snd).foldl Document.insertSection .empty = e at *
  obtain ⟨sections, macros, schemas⟩ := e
  have h : sections = d.kept.sections := Table.ext hsections
  subst h
  cases hmacros
  cases hschemas
  rfl

namespace Read

variable {d : Document}

/-- The sections of a document, with their count. -/
def countedSections : Read Document := count >>= fun n => sections n .empty

/-- What is left to do when the sections of a document are read. -/
def finish (d : Document) : Read Document := do
  let r ← get
  if !r.rest.isEmpty then failAt r.position .trailingBytes
  match d.sections.get? defineName with
  | some s => return { d with macros := s.properties }
  | none => return d

/-- Behind the mark and the version come the sections. -/
theorem document_run (bs : List UInt8) :
    document ⟨bytes32 magic.toUInt32 ++ ([version] ++ bs), 0⟩
      = (countedSections >>= finish) ⟨bs, 5⟩ := by
  refine (bind_of_ok (reads_word magic.toUInt32 ([version] ++ bs) 0)).trans ?_
  have hmark : ¬magic.toUInt32.toNat ≠ magic := by decide
  simp only [if_neg hmark]
  refine (bind_of_ok (reads_byte version bs _)).trans ?_
  have hversion : ¬version < version := by decide
  simp only [if_neg hversion, countedSections, bind_assoc]
  rfl

/-- At the end of the bytes nothing but the macros is still to be made. -/
theorem finish_run (d : Document) (n : Nat) :
    finish { d.kept with macros := ∅ } ⟨[], n⟩ = .ok d.kept ⟨[], n⟩ := by
  show (match (d.kept.sections.get? defineName) with
    | some s => pure { d.kept with macros := s.properties }
    | none => pure { d.kept with macros := ∅ } : Read Document) _ = _
  have hget : d.kept.sections.get? defineName = (d.sections.get? defineName).map Section.bare :=
    Table.get?_mapValues _ _ _
  rw [hget]
  cases hdefine : d.sections.get? defineName with
  | none => simp [Document.kept, hdefine]; rfl
  | some s => simp [Document.kept, hdefine, Section.bare]; rfl

end Read

/-- Decoding the form of a document is reading its sections. -/
theorem decode_documentForm (d : Document) :
    decode (documentForm d).toByteArray =
      match (Read.countedSections >>= Read.finish) ⟨countedForm sectionForm d.sections.values, 5⟩ with
      | .ok d _ => .ok d
      | .error fault _ => .error fault := by
  rw [← Read.document_run, decode, Reader.start, List.data_toByteArray, List.toList_toArray]
  rfl

section

variable {d : Document} (hn : d.storedByName) (hw : d.wellFormed) (hf : documentFits d)
  (he : d.encodable)

include hw hf he

include hn in
/-- A document whose containers are not too deep comes back. -/
theorem decode_of_shallow (hs : d.shallow) :
    decode (documentForm d).toByteArray = .ok d.kept := by
  simp only [Document.wellFormed, List.all_eq_true] at hw
  simp only [Document.encodable, List.all_eq_true] at he
  simp only [Document.shallow, List.all_eq_true] at hs
  obtain ⟨hsize, hfit⟩ := fits_of_document hf
  have hsections := Read.reads_sections (fun s h =>
    Read.reads_section (hfit s h) (he s h) (hw s h) (hs s h)) .empty
  rw [foldl_insertSection_kept hn] at hsections
  have hread : Read.Reads Read.countedSections _ _ := (Read.reads_count hsize).bind hsections
  have hrun := hread [] 5
  rw [List.append_nil] at hrun
  rw [decode_documentForm, countedForm, bind_of_ok hrun, Read.finish_run]

/-- A document with a container that is too deep does not come back. -/
theorem decode_of_not_shallow (hs : d.shallow = false) :
    ∃ fault, decode (documentForm d).toByteArray = .error fault ∧ fault.code = 611 := by
  simp only [Document.wellFormed, List.all_eq_true] at hw
  simp only [Document.encodable, List.all_eq_true] at he
  obtain ⟨hsize, hfit⟩ := fits_of_document hf
  obtain ⟨s, hmem, hdeep⟩ : ∃ s ∈ d.sections.values, s.shallow = false := by
    simpa [Document.shallow, List.all_eq_false] using hs
  have hsection : ∀ s ∈ d.sections.values,
      Read.Reads Read.section (sectionForm s) s.bare ∨ Read.TooDeep Read.section (sectionForm s) := by
    intro s h
    cases hshallow : s.shallow with
    | true => exact .inl (Read.reads_section (hfit s h) (he s h) (hw s h) hshallow)
    | false => exact .inr (Read.tooDeep_section (hfit s h) (he s h) (hw s h) hshallow)
  have hsections := Read.tooDeep_sections hsection hmem
    (Read.tooDeep_section (hfit s hmem) (he s hmem) (hw s hmem) hdeep) .empty
  have hread : Read.TooDeep Read.countedSections _ :=
    (Read.reads_count hsize).bind_tooDeep hsections
  obtain ⟨offset, after, hrun⟩ := (hread.bind Read.finish []) [] 5
  rw [List.append_nil, List.append_nil] at hrun
  refine ⟨.format .tooDeep offset, ?_, rfl⟩
  rw [decode_documentForm, countedForm, hrun]

end

/-- **A document that is encoded and decoded again.**  It has bytes exactly if no operation and no
    rule stands in its sections.  Its bytes are decoded exactly if its containers are not too deep,
    and give back what `Document.kept` says; otherwise the fault is 611. -/
theorem decode_encode {d : Document} (hn : d.storedByName) (hw : d.wellFormed)
    (hf : documentFits d) :
    ((∃ bytes, encode d = .ok bytes) ↔ d.encodable) ∧
      ∀ bytes, encode d = .ok bytes →
        (d.shallow → decode bytes = .ok d.kept) ∧
          (¬d.shallow → ∃ fault, decode bytes = .error fault ∧ fault.code = 611) := by
  cases he : d.encodable with
  | false =>
    obtain ⟨fault, hfault⟩ := encode_of_not_encodable he
    rw [hfault]
    refine ⟨⟨?_, fun h => absurd h Bool.false_ne_true⟩, fun _ h => by cases h⟩
    rintro ⟨_, h⟩
    cases h
  | true =>
    rw [encode_of_encodable hf he]
    refine ⟨⟨fun _ => rfl, fun _ => ⟨_, rfl⟩⟩, ?_⟩
    rintro bytes ⟨⟩
    refine ⟨decode_of_shallow hn hw hf he, fun hs => ?_⟩
    exact decode_of_not_shallow hw hf he (Bool.eq_false_iff.mpr hs)

/-- Two sections, one of them for macros, with containers in a property and in the registry. -/
def sampleDocument : Document where
  sections := .ofList
    [("#define", { name := "#define", properties := .ofList [("width", .atom (.int 8) ⟨none, 2, 5⟩)] }),
      ("Window", {
        name := "Window", parents := ["Base"],
        properties := .ofList [("size", .sequence .list [.atom (.float ⟨0x3F800000⟩) .none] .none)],
        registry := [.record .map [("é", .atom (.reference ⟨.macroName, "width"⟩) .none)] .none] })]

theorem decode_encode_sampleDocument :
    sampleDocument.storedByName ∧ sampleDocument.wellFormed ∧ documentFits sampleDocument ∧
      ((∃ bytes, encode sampleDocument = .ok bytes) ↔ sampleDocument.encodable) ∧
        ∀ bytes, encode sampleDocument = .ok bytes →
          (sampleDocument.shallow → decode bytes = .ok sampleDocument.kept) ∧
            (¬sampleDocument.shallow → ∃ fault, decode bytes = .error fault ∧ fault.code = 611) :=
  have hn : sampleDocument.storedByName := by decide +kernel
  have hw : sampleDocument.wellFormed := by decide +kernel
  have hf : documentFits sampleDocument := by decide +kernel
  ⟨hn, hw, hf, decode_encode hn hw hf⟩

end Ybin

end Yini
