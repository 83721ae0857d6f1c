import Yini.Proofs.Grammar.Height
import Yini.Proofs.Ybin.Cache
import Yini.Proofs.Ybin.Oversized

/-!
The two bounds for nesting.

The parser counts a level for a container, for parentheses and for a minus sign, and one for the leaf at
the end; the reader of bytes counts containers only, and gives entries of a registry one level more.  So
what the parser lets through is shallow (`Document.shallow_of_ofSource`), and as no reference has been put
in yet, the bytes of a document that was parsed can always be read (`decode_of_ofSource`).
-/

namespace Yini

/-- Containers are nodes that count. -/
theorem Value.levels_le_nesting (v : Value) : v.levels ≤ v.nesting := by
  show v.levels ≤ v.deepest ⟨0, 0, 0⟩
  induction v using Value.induction with
  | atom => exact Nat.zero_le _
  | sequence kind items span ih =>
    have hitems : maxLevels items ≤ deepestItem ⟨0, 0, 0⟩ items :=
      maxLevels_le_iff.mpr fun v hv => Nat.le_trans (ih v hv)
        (deepestItem_le_iff.mp (Nat.le_refl _) v hv)
    rw [levels, deepest, Nat.add_comm]
    exact Nat.add_le_add_left hitems 1
  | record kind fields span ih =>
    have hfields : maxFieldLevels fields ≤ deepestField ⟨0, 0, 0⟩ fields :=
      maxFieldLevels_le_iff.mpr fun e he => Nat.le_trans (ih e he)
        (deepestField_le_iff.mp (Nat.le_refl _) e he)
    rw [levels, deepest, Nat.add_comm]
    exact Nat.add_le_add_left hfields 1
  | binary => exact Nat.zero_le _
  | neg => exact Nat.zero_le _
  | rule => exact Nat.zero_le _

namespace Document

variable {file : Option String} {text : String} {d : Document}

/-- What can be written is nested no more deeply than the reader of bytes allows. -/
theorem shallow_of_nesting (h : ∀ v ∈ d.values, v.nesting ≤ maxNesting) : d.shallow := by
  have hlevels {s : Section} (hs : s ∈ d.sections.values) {v : Value} (hv : v ∈ s.contents) :
      v.levels ≤ maxNesting :=
    Nat.le_trans v.levels_le_nesting (h v (mem_values.mpr (.inl (.inl ⟨s, hs, hv⟩))))
  simp only [Document.shallow, Section.shallow, List.all_eq_true, Bool.and_eq_true, decide_eq_true_eq]
  intro s hs
  constructor
  · intro v hv
    exact hlevels hs (List.mem_append_left _ hv)
  · intro v hv
    exact Nat.le_succ_of_le (hlevels hs (List.mem_append_right _ hv))

/-- The parser bounds how deeply the values of a document are nested, those of rules with them. -/
theorem nesting_of_ofSource (h : ofSource file text = .ok d) : ∀ v ∈ d.values, v.nesting ≤ maxNesting :=
  (low_of_ofSource h).forall_values (fun _ hv => hv.nesting) fun _ hv => hv.nesting

/-- **What the parser lets through is shallow.** -/
theorem shallow_of_ofSource (h : ofSource file text = .ok d) : d.shallow :=
  shallow_of_nesting (nesting_of_ofSource h)

end Document

namespace Ybin

/-- **The parser's bound implies the reader's.**  In a document that was parsed, every property, entry of a
    registry and rule has no more containers, minus signs and leaves on the way to a leaf than the parser
    allows levels.  So whenever the document has bytes, they are read, and give back its sections. -/
theorem decode_of_ofSource {file : Option String} {text : String} {d : Document}
    (h : Document.ofSource file text = .ok d) :
    (∀ v ∈ d.values, v.nesting ≤ maxNesting) ∧
      ∀ bytes, encode d = .ok bytes → ∃ e, decode bytes = .ok e ∧
        e.sections = d.sections.mapValues Section.bare := by
  refine ⟨Document.nesting_of_ofSource h, fun bytes hencode => ?_⟩
  have hlegible := (Document.read_of_ofSource h).legible
  obtain ⟨hfits, hencodable⟩ := fits_of_encode hencode
  have hbytes := encode_of_encodable hfits hencodable
  rw [hencode] at hbytes
  obtain rfl := Except.ok.inj hbytes
  have hdecode := decode_of_shallow hlegible.storedByName hlegible.wellFormed hfits hencodable
    (Document.shallow_of_ofSource h)
  exact ⟨d.kept, hdecode, rfl⟩

/-- The characters of a text with arrays, in a property and in a registry, that are nested as deeply as the
    parser allows. -/
def deepArrays : List Char :=
  let nested : List Char := List.replicate 128 '[' ++ List.replicate 128 ']'
  "[S]\nx = ".toList ++ nested ++ "\n+= ".toList ++ nested ++ ['\n']

/-- Arrays nested as deeply as the parser allows. -/
theorem decode_of_ofSource_deepArrays : ∃ d, Document.ofSource none (String.ofList deepArrays) = .ok d ∧
    (∀ v ∈ d.values, v.nesting ≤ maxNesting) ∧ (∃ bytes, encode d = .ok bytes) ∧
      ∀ bytes, encode d = .ok bytes → ∃ e, decode bytes = .ok e ∧
        e.sections = d.sections.mapValues Section.bare := by
  have hok : ((Document.ofChars none deepArrays).toOption.filter fun d =>
      documentFits d && d.encodable).isSome := by decide +kernel
  obtain ⟨d, hd⟩ := Option.isSome_iff_exists.mp hok
  obtain ⟨hd, hboth⟩ := Option.filter_eq_some_iff.mp hd
  obtain ⟨hfits, hencodable⟩ := Bool.and_eq_true_iff.mp hboth
  have hparse := (Document.ofSource_ofList none deepArrays).trans (eq_ok_of_toOption hd)
  obtain ⟨hnesting, hdecode⟩ := decode_of_ofSource hparse
  exact ⟨d, hparse, hnesting, ⟨_, encode_of_encodable hfits hencodable⟩, hdecode⟩

end Ybin

end Yini
