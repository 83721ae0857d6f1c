import Yini.Proofs.Ybin.RoundTrip

/-!
What does not fit is not written.

A count of four bytes has a largest value, and the writer fails where a text, a list or a table is
longer than that.  So a document that has bytes is one that fits, without an operation or a rule
(`fits_of_encode`), and what its bytes give back is known (`decode_of_encode`).
-/

namespace Yini.Ybin

namespace Write

theorem fails_count {n : Nat} (h : fits n = false) : Fails (count n) := by
  rw [fits, decide_eq_false_iff_not] at h
  rw [count, if_neg h]
  exact fails_fail _

theorem fails_text {s : String} (h : textFits s = false) : Fails (text s) := (fails_count h).seq_left _

/-- A list that does not fit, or has something in it that does not, is not written. -/
theorem fails_counted {α : Type} {write : α → Write} {good : α → Bool} {as : List α}
    (h : ∀ a ∈ as, good a = false → Fails (write a)) (has : (fits as.length && as.all good) = false) :
    Fails (count as.length >>= fun _ => as.forM write) := by
  rcases Bool.and_eq_false_iff.mp has with hlength | hall
  · exact (fails_count hlength).seq_left _
  · obtain ⟨a, ha, hgood⟩ : ∃ a ∈ as, good a = false := by simpa using hall
    exact (fails_forM ha (h a ha hgood)).seq_right _

theorem fails_atom {a : Atom} (h : atomFits a = false) : Fails (atom a) := by
  cases a with
  | string s => exact (fails_text h).seq_right _
  | path s => exact (fails_text h).seq_right _
  | dyna s => exact (fails_text h).seq_right _
  | reference r => exact ((fails_text h).seq_right _).seq_right _
  | _ => cases h

theorem fails_field {e : String × Value} (hv : valueFits e.2 = false → Fails (value e.2))
    (h : (textFits e.1 && valueFits e.2) = false) : Fails (field e) := by
  rcases Bool.and_eq_false_iff.mp h with hk | h
  · exact (fails_text hk).seq_left _
  · exact (hv h).seq_right _

/-- Whether a list fits is asked of each value. -/
theorem allFit_eq (vs : List Value) : allFit vs = vs.all valueFits := by
  induction vs with
  | nil => rfl
  | cons v vs ih => rw [allFit, ih, List.all_cons]

/-- Whether fields fit is asked of each name and each value. -/
theorem allFieldsFit_eq (fs : Entries Value) :
    allFieldsFit fs = fs.all fun e => textFits e.1 && valueFits e.2 := by
  induction fs with
  | nil => rfl
  | cons e fs ih => rw [allFieldsFit, ih, List.all_cons]

/-- A value with a text or a count that is too large is not written. -/
theorem fails_value_of_not_fits (v : Value) (h : valueFits v = false) : Fails (value v) := by
  induction v using Value.induction with
  | atom a span => exact fails_atom h
  | sequence k items span ih =>
    rw [valueFits, allFit_eq] at h
    rw [value, values_eq_forM]
    exact (fails_counted ih h).seq_right _
  | record k fields span ih =>
    rw [valueFits, allFieldsFit_eq] at h
    rw [value, fields_eq_forM]
    exact (fails_counted (fun e he => fails_field (ih e he)) h).seq_right _
  | binary | neg | rule => cases h

/-- A section that does not fit is not written. -/
theorem fails_section_of_not_fits {s : Section} (h : sectionFits s = false) : Fails («section» s) := by
  -- the four pieces of a section, each of which is written behind the ones before
  have hpieces : «section» s = text s.name >>= fun _ =>
      (count s.parents.length >>= fun _ => s.parents.forM text) >>= fun _ =>
      (count s.properties.entries.length >>= fun _ => s.properties.entries.forM field) >>= fun _ =>
      (count s.registry.length >>= fun _ => s.registry.forM value) := by
    simp only [«section», fields_eq_forM, values_eq_forM, bind_assoc, Table.size]
  rw [sectionFits, Bool.and_eq_false_iff, Bool.and_eq_false_iff, Bool.and_eq_false_iff] at h
  rw [hpieces]
  rcases h with ((hname | hparents) | hproperties) | hregistry
  · exact (fails_text hname).seq_left _
  · exact ((fails_counted (fun _ _ => fails_text) hparents).seq_left _).seq_right _
  · refine (((fails_counted (fun e _ => fails_field (fails_value_of_not_fits e.2))
      hproperties).seq_left _).seq_right _).seq_right _
  · exact (((fails_counted (fun v _ => fails_value_of_not_fits v) hregistry).seq_right _).seq_right
      _).seq_right _

/-- **A document that does not fit is not written.** -/
theorem fails_document_of_not_fits {d : Document} (h : documentFits d = false) : Fails (document d) := by
  have hlength : d.sections.size = d.sections.values.length := (List.length_map ..).symm
  rw [documentFits, hlength] at h
  rw [document, hlength]
  exact ((fails_counted (fun _ _ => fails_section_of_not_fits) h).seq_right _).seq_right _

end Write

variable {d : Document} {bytes : ByteArray}

/-- **What has bytes fits** and holds no operation and no rule. -/
theorem fits_of_encode (h : encode d = .ok bytes) : documentFits d ∧ d.encodable := by
  constructor
  · cases hfits : documentFits d with
    | true => rfl
    | false =>
      obtain ⟨fault, rest, hrun⟩ := Write.fails_document_of_not_fits hfits ByteArray.empty
      rw [encode, hrun] at h
      cases h
  · cases hencodable : d.encodable with
    | true => rfl
    | false =>
      obtain ⟨fault, hfault⟩ := encode_of_not_encodable hencodable
      rw [hfault] at h
      cases h

/-- What is decoded from the bytes of a document, if they are decoded at all. -/
theorem decode_of_encode {e : Document} (hn : d.storedByName) (hw : d.wellFormed)
    (hencode : encode d = .ok bytes) (hdecode : decode bytes = .ok e) : e = d.kept := by
  obtain ⟨hfits, hencodable⟩ := fits_of_encode hencode
  rw [encode_of_encodable hfits hencodable] at hencode
  cases hencode
  cases hs : d.shallow with
  | true =>
    rw [decode_of_shallow hn hw hfits hencodable hs] at hdecode
    exact (Except.ok.inj hdecode).symm
  | false =>
    obtain ⟨fault, hfault, -⟩ := decode_of_not_shallow hw hfits hencodable hs
    rw [hfault] at hdecode
    cases hdecode

end Yini.Ybin
