import Yini.Proofs.Ybin.RoundTrip
import Yini.Proofs.Ybin.Taking

/-!
The bytes that the decoder accepts.

They are many more than the encoder writes: names may repeat, the version may be older, and every byte
but zero is true.  None of them is a prefix of another (`decode_prefix_free`), and decoding normalises
them: the document can be encoded, and its bytes give back the same document (`encode_of_decode`).
-/

namespace Yini

/-- The document with the macros that a section of it defines. -/
def Document.defineMacros (d : Document) : Document :=
  { d with macros := (d.sections.get? defineName).elim d.macros (·.properties) }

namespace Ybin

namespace Read

/-- The mark, the version and the sections. -/
def body : Read Document := do
  let mark ← word
  if mark.toNat ≠ magic then failAt 0 (.badMagic mark.toNat)
  let v ← byte
  if version < v then failAt 4 (.newerVersion v.toNat)
  countedSections

/-- Reading a document is reading its body, and then looking whether the bytes have come to an end. -/
theorem document_eq : document = body >>= finish := by
  have hcheck : ∀ (bad : Prop) [Decidable bad] (x y : Read Document) (f : Document → Read Document),
      (if bad then x else y) >>= f = if bad then x >>= f else y >>= f := by
    intro bad _ x y f
    split <;> rfl
  simp only [document, body, countedSections, bind_assoc, hcheck]
  rfl

/-- **What is read as a body is collected from sections that have a form.** -/
theorem takes_body : Takes body fun m d => d.Collected m ∧ fits d.sections.size := by
  have hsections : Takes countedSections fun m d => d.Collected m ∧ fits d.sections.size := by
    refine takes_count.bind fun m n ⟨_, hn⟩ =>
      (takes_sections n Document.collected_empty).imp fun k d ⟨hd, hsize⟩ => ⟨?_, ?_⟩
    · exact hd.mono (by omega)
    · have hempty : Document.empty.sections.size = 0 := rfl
      exact fits_mono hn (by omega)
  have hfail : ∀ offset cause, Takes (failAt offset cause : Read Unit) fun _ _ => False :=
    takes_failAt
  refine takes_word.bind fun m mark _ => ?_
  split
  · exact (hfail _ _).bind fun _ _ h => h.elim
  refine takes_byte.bind fun m' v _ => ?_
  split
  · exact (hfail _ _).bind fun _ _ h => h.elim
  exact hsections.imp fun k d ⟨hd, hsize⟩ => ⟨hd.mono (by omega), hsize⟩

/-- What is left to do succeeds only at the end of the data. -/
theorem finish_ok {d e : Document} {s t : Reader} (h : finish d s = .ok e t) :
    s.rest = [] ∧ e = d.defineMacros := by
  rw [finish, get_bind] at h
  split at h
  next => cases h
  next hrest =>
    refine ⟨by simpa using hrest, ?_⟩
    unfold Document.defineMacros
    cases hdefine : d.sections.get? defineName with
    | none => rw [hdefine] at h; cases h; rfl
    | some s => rw [hdefine] at h; cases h; rfl

end Read

/-- Bytes are accepted if they are what the mark, the version and the sections take. -/
theorem decode_eq_ok {bytes : ByteArray} {d : Document} (h : decode bytes = .ok d) :
    ∃ e, Read.Exact Read.body bytes.data.toList e ∧ e.Collected bytes.size ∧
      fits e.sections.size ∧ d = e.defineMacros := by
  unfold decode at h
  split at h
  next d' s hrun =>
    cases h
    rw [Read.document_eq] at hrun
    obtain ⟨e, t, hbody, hfinish⟩ := bind_eq_ok.mp hrun
    obtain ⟨hrest, rfl⟩ := Read.finish_ok hfinish
    obtain ⟨used, hused, hexact, hcollected, hfits⟩ := Read.takes_body _ _ _ _ hbody
    rw [hrest, List.append_nil] at hused
    subst hused
    exact ⟨e, hexact, by simpa using hcollected, hfits, rfl⟩
  next => cases h

/-! ## No accepted bytes are a prefix of others -/

/-- Bytes that end too early are refused for that. -/
theorem decode_of_starves {bytes : ByteArray} (h : Read.Starves Read.body bytes.data.toList) :
    ∃ fault, decode bytes = .error fault ∧ fault.code = 604 := by
  obtain ⟨wanted, left, offset, after, hrun⟩ := h.bind Read.finish 0
  refine ⟨.format (.unexpectedEnd wanted left) offset, ?_, rfl⟩
  rw [decode, Reader.start, Read.document_eq, hrun]

/-- Bytes behind a document are refused, at the place where they begin. -/
theorem decode_of_trailing {bytes more : ByteArray} {d : Document}
    (h : Read.Reads Read.body bytes.data.toList d) (hmore : more.size ≠ 0) :
    decode (bytes ++ more) = .error (.format .trailingBytes bytes.size) := by
  have hsome : more.data.toList ≠ [] := by
    intro hnil
    apply hmore
    rw [← ByteArray.size_data, ← Array.length_toList, hnil, List.length_nil]
  have hposition : 0 + bytes.data.toList.length = bytes.size := Nat.zero_add _
  have hbody := h more.data.toList 0
  rw [hposition] at hbody
  have hcheck : (!more.data.toList.isEmpty) = true := by simpa using hsome
  have hfinish : Read.finish d ⟨more.data.toList, bytes.size⟩
      = .error (.format .trailingBytes bytes.size) ⟨more.data.toList, bytes.size⟩ := by
    rw [Read.finish, get_bind, if_pos hcheck]
    rfl
  rw [decode, Reader.start, Read.document_eq, ByteArray.data_append, Array.toList_append,
    bind_of_ok hbody, hfinish]

/-- Bytes of an older version, which the encoder does not write: a section stands in two pieces, one of
    its keys occurs twice, and a flag is neither 0 nor 1. -/
def looseBytes : ByteArray :=
  let define := textForm defineName ++ countForm 0 ++
    (countForm 1 ++ textForm "m" ++ valueForm (.atom (.int 7) .none)) ++ countForm 0
  let first := textForm "A" ++ (countForm 1 ++ textForm "B") ++
    (countForm 2 ++ textForm "x" ++ [Tag.bool.byte, 5] ++ textForm "x" ++ [Tag.bool.byte, 4]) ++
    (countForm 1 ++ valueForm (.record .struct [("k", .atom (.float ⟨0x7FC00001⟩) .none)] .none))
  let second := textForm "A" ++ (countForm 1 ++ textForm "B") ++
    (countForm 1 ++ textForm "y" ++ valueForm (.atom (.reference ⟨.macroName, "m"⟩) .none)) ++
    countForm 0
  (bytes32 magic.toUInt32 ++ [0] ++ countForm 3 ++ define ++ first ++ second).toByteArray

/-- **No accepted bytes are a prefix of others.**  Where bytes are accepted, the bytes with some missing
    at the end are refused because the data end too early, and with more behind them they are refused
    because of these. -/
theorem decode_prefix_free {bytes : ByteArray} {d : Document} (h : decode bytes = .ok d) :
    (∀ front back : ByteArray, bytes = front ++ back → back.size ≠ 0 →
      ∃ fault, decode front = .error fault ∧ fault.code = 604) ∧
    ∀ more : ByteArray, more.size ≠ 0 → ∃ fault, decode (bytes ++ more) = .error fault ∧
      fault.code = 608 ∧ fault = .format .trailingBytes bytes.size := by
  obtain ⟨e, hexact, -⟩ := decode_eq_ok h
  refine ⟨fun front back heq hback => ?_, fun more hmore => ?_⟩
  · refine decode_of_starves (hexact.starves front.data.toList back.data.toList ?_ fun hnil => ?_)
    · rw [heq, ByteArray.data_append, Array.toList_append]
    · apply hback
      rw [← ByteArray.size_data, ← Array.length_toList, hnil, List.length_nil]
  · exact ⟨_, decode_of_trailing hexact.reads hmore, rfl, rfl⟩

/-- These bytes are no prefix of others, and no others of them. -/
theorem decode_prefix_free_looseBytes : ∃ d, decode looseBytes = .ok d ∧
    (∀ front back : ByteArray, looseBytes = front ++ back → back.size ≠ 0 →
      ∃ fault, decode front = .error fault ∧ fault.code = 604) ∧
    ∀ more : ByteArray, more.size ≠ 0 → ∃ fault, decode (looseBytes ++ more) = .error fault ∧
      fault.code = 608 ∧ fault = .format .trailingBytes looseBytes.size := by
  have hok : (decode looseBytes).toOption.isSome := by decide +kernel
  obtain ⟨d, hd⟩ := Option.isSome_iff_exists.mp hok
  have hdecode := eq_ok_of_toOption hd
  exact ⟨d, hdecode, decode_prefix_free hdecode⟩

/-! ## Decoding normalises -/

/-- A section that has been read fits, if it is no larger than the bytes it came from. -/
theorem sectionFits_of_stored {s : Section} {m : Nat} (h : s.Stored) (hweight : s.weight ≤ m)
    (hm : fits m) : sectionFits s := by
  have hsmall : ∀ k ≤ s.weight, fits k := fun k hk => fits_mono hm (Nat.le_trans hk hweight)
  simp only [sectionFits, Bool.and_eq_true, List.all_eq_true]
  refine ⟨⟨⟨h.name, hsmall _ ?_, h.parents⟩, hsmall _ ?_, fun e he => ?_⟩, hsmall _ ?_, fun v hv => ?_⟩
  · exact Nat.le_trans (Nat.le_add_right _ _) (Nat.le_add_right _ _)
  · exact Nat.le_trans (Nat.le_add_left _ _) (Nat.le_add_right _ _)
  · exact ⟨(h.properties e he).1, (h.properties e he).2.fits⟩
  · exact Nat.le_add_left _ _
  · exact (h.registry v hv).fits

section

variable {d : Document} {m : Nat} (h : d.Collected m)

include h

/-- The sections of a collected document have a form, and are no larger than its bytes. -/
theorem stored_of_collected {s : Section} (hs : s ∈ d.sections.values) :
    s.Stored ∧ s.weight ≤ m := by
  obtain ⟨n, hn⟩ := Table.mem_values_iff.mp hs
  exact h.stored n s hn

/-- The sections of a collected document stand under their names. -/
theorem storedByName_of_collected : d.storedByName := by
  simp only [Document.storedByName, List.all_eq_true, beq_iff_eq]
  exact fun e he => h.named e.1 e.2 (Table.mem_entries_iff.mp he)

/-- **A collected document fits**, if the number of its bytes does. -/
theorem documentFits_of_collected (hsize : fits d.sections.size) (hm : fits m) : documentFits d := by
  simp only [documentFits, Bool.and_eq_true, List.all_eq_true]
  refine ⟨hsize, fun s hs => ?_⟩
  obtain ⟨hstored, hweight⟩ := stored_of_collected h hs
  exact sectionFits_of_stored hstored hweight hm

theorem wellFormed_of_collected : d.wellFormed := by
  simp only [Document.wellFormed, List.all_eq_true]
  intro s hs v hv
  obtain ⟨n, hv⟩ := (stored_of_collected h hs).1.value hv
  exact hv.wellFormed

theorem encodable_of_collected : d.encodable := by
  simp only [Document.encodable, List.all_eq_true]
  intro s hs v hv
  obtain ⟨n, hv⟩ := (stored_of_collected h hs).1.value hv
  exact hv.encodable

/-- A collected document nests no deeper than the reader allows. -/
theorem shallow_of_collected : d.shallow := by
  simp only [Document.shallow, Section.shallow, List.all_eq_true, Bool.and_eq_true,
    decide_eq_true_eq]
  intro s hs
  have hstored := (stored_of_collected h hs).1
  refine ⟨fun v hv => ?_, fun v hv => (hstored.registry v hv).levels⟩
  obtain ⟨e, he, rfl⟩ := List.mem_map.mp hv
  exact (hstored.properties e he).2.levels

/-- Nothing of a collected document is lost when it is encoded. -/
theorem kept_of_collected : d.defineMacros.kept = d.defineMacros := by
  have hbare : ∀ n s, d.sections.get? n = some s → s.bare = s := fun n s hs =>
    (h.stored n s hs).1.bare_eq
  have hsections : d.sections.mapValues Section.bare = d.sections := Table.mapValues_eq_self hbare
  unfold Document.defineMacros Document.kept
  cases hdefine : d.sections.get? defineName with
  | none => simp only [hsections, h.schemas, h.macros, Option.elim_none]
  | some s =>
    have hmacros : s.properties.mapValues Value.bare = s.properties :=
      congrArg Section.properties (hbare _ s hdefine)
    simp only [hsections, h.schemas, hmacros, Option.elim_some]

end

/-- **Decoding normalises.**  Whatever bytes are accepted, their document can be encoded, and its bytes
    give back the same document. -/
theorem encode_of_decode {bytes : ByteArray} {d : Document} (hsize : bytes.size < Nat.pow 2 32)
    (h : decode bytes = .ok d) : ∃ normal, encode d = .ok normal ∧ decode normal = .ok d := by
  obtain ⟨e, -, hcollected, hcount, rfl⟩ := decode_eq_ok h
  -- the macros have no bytes of their own
  have hfits : documentFits e.defineMacros :=
    documentFits_of_collected (d := e) hcollected hcount (decide_eq_true hsize)
  have hnamed : e.defineMacros.storedByName := storedByName_of_collected (d := e) hcollected
  have hwell : e.defineMacros.wellFormed := wellFormed_of_collected (d := e) hcollected
  have hencodable : e.defineMacros.encodable := encodable_of_collected (d := e) hcollected
  have hshallow : e.defineMacros.shallow := shallow_of_collected (d := e) hcollected
  refine ⟨_, encode_of_encodable hfits hencodable, ?_⟩
  rw [decode_of_shallow hnamed hwell hfits hencodable hshallow, kept_of_collected hcollected]

/-- Both pieces of the section come together, and a flag that is not 0 is set. -/
theorem encode_of_decode_looseBytes : looseBytes.size < Nat.pow 2 32 ∧
    ∃ d, decode looseBytes = .ok d ∧
      (d.sections.get? "A").map (fun s => (s.parents, s.properties.keys)) = some (["B"], ["x", "y"]) ∧
      (d.get? "A" "x").bind Value.bool? = some true ∧
      (d.macros.get? "m").bind Value.int? = some 7 ∧
        ∃ normal, encode d = .ok normal ∧ decode normal = .ok d := by
  have hsize : looseBytes.size < Nat.pow 2 32 := by decide +kernel
  have hok : (decode looseBytes).toOption.map (fun d =>
      ((d.sections.get? "A").map fun s => (s.parents, s.properties.keys),
        (d.get? "A" "x").bind Value.bool?, (d.macros.get? "m").bind Value.int?)) =
      some (some (["B"], ["x", "y"]), some true, some 7) := by
    decide +kernel
  obtain ⟨d, hd, hok⟩ := Option.map_eq_some_iff.mp hok
  obtain ⟨hsection, hok⟩ := Prod.mk.inj hok
  obtain ⟨hvalue, hmacro⟩ := Prod.mk.inj hok
  have hdecode := eq_ok_of_toOption hd
  exact ⟨hsize, d, hdecode, hsection, hvalue, hmacro, encode_of_decode hsize hdecode⟩

end Ybin

end Yini
