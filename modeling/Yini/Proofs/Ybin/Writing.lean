import Yini.Proofs.Outcome
import Yini.Proofs.Ybin.Form
import Yini.Ybin.Encode

/-!
The writer produces the form of a value (`writes_value`), as long as all counts fit; and if there is
an operation or a rule in it, the writer fails whatever the counts are (`fails_value`).

`Writes w bs` says that the step `w` appends `bs` and succeeds, whatever was written before it, and
`Fails w` that it does not succeed.  Both are closed under putting steps one after the other, so the
proof for values follows their tree.
-/

namespace Yini.Ybin

namespace Write

/-- The step appends these bytes. -/
def Writes (w : Write) (bs : List UInt8) : Prop :=
  ∀ buf, w buf = .ok () ⟨buf.data ++ bs.toArray⟩

/-- The step ends with a fault. -/
def Fails (w : Write) : Prop := ∀ buf, ∃ fault rest, w buf = .error fault rest

/-! ## Steps one after the other -/

theorem writes_pure : Writes (pure ()) [] := by
  intro buf
  show EStateM.Result.ok () buf = _
  simp

/-- **One step after the other**: the bytes of the second come behind those of the first. -/
theorem Writes.seq {w w' : Write} {bs bs' : List UInt8} (h : Writes w bs) (h' : Writes w' bs') :
    Writes (w >>= fun _ => w') (bs ++ bs') := by
  intro buf
  refine bind_eq_ok.mpr ⟨(), _, h buf, ?_⟩
  rw [h']
  simp [Array.append_assoc]

theorem Fails.seq_left {w : Write} (h : Fails w) (w' : Write) : Fails (w >>= fun _ => w') := by
  intro buf
  obtain ⟨fault, rest, h⟩ := h buf
  exact ⟨fault, rest, bind_eq_error.mpr (.inl h)⟩

theorem Fails.seq_right (w : Write) {w' : Write} (h : Fails w') : Fails (w >>= fun _ => w') := by
  intro buf
  cases hw : w buf with
  | ok a mid =>
    obtain ⟨fault, rest, h⟩ := h mid
    exact ⟨fault, rest, bind_eq_error.mpr (.inr ⟨a, mid, hw, h⟩)⟩
  | error fault rest => exact ⟨fault, rest, bind_eq_error.mpr (.inl hw)⟩

/-- **Steps for all items**: the form of each comes behind those before it. -/
theorem writes_forM {α : Type} {write : α → Write} {form : α → List UInt8} {as : List α}
    (h : ∀ a ∈ as, Writes (write a) (form a)) : Writes (as.forM write) (as.flatMap form) := by
  induction as with
  | nil => exact writes_pure
  | cons a as ih =>
    rw [List.flatMap_cons]
    exact (h a List.mem_cons_self).seq (ih fun b hb => h b (List.mem_cons_of_mem _ hb))

/-- Where the step for one item fails, the whole does. -/
theorem fails_forM {α : Type} {write : α → Write} {as : List α} {a : α} (ha : a ∈ as)
    (h : Fails (write a)) : Fails (as.forM write) := by
  induction as with
  | nil => exact absurd ha List.not_mem_nil
  | cons b as ih =>
    rcases List.mem_cons.mp ha with rfl | ha
    · exact h.seq_left (as.forM write)
    · exact (ih ha).seq_right (write b)

/-! ## Numbers and texts -/

theorem writes_byte (b : UInt8) : Writes (byte b) [b] := by
  intro buf
  show EStateM.Result.ok () (buf.push b) = _
  rfl

theorem writes_bytes (bs : List UInt8) : Writes (bytes bs) bs := by
  have h : Writes (bs.forM byte) (bs.flatMap fun b => [b]) := writes_forM fun b _ => writes_byte b
  rwa [List.flatMap_singleton'] at h

theorem writes_word (n : UInt32) : Writes (word n) (bytes32 n) := writes_bytes _

/-- A count that fits is written in four bytes. -/
theorem writes_count {n : Nat} (h : fits n) : Writes (count n) (countForm n) := by
  simp only [fits, decide_eq_true_eq] at h
  rw [count, if_pos h]
  exact writes_word _

theorem writes_text {s : String} (h : textFits s) : Writes (text s) (textForm s) := by
  have htail : Writes (modify (· ++ s.toUTF8)) s.toUTF8.data.toList := by
    intro buf
    show EStateM.Result.ok () (buf ++ s.toUTF8) = _
    congr 1
    apply ByteArray.ext
    rw [ByteArray.data_append, Array.toArray_toList]
  exact (writes_count h).seq htail

theorem writes_bool (b : Bool) : Writes (bool b) (boolForm b) := writes_byte _

/-- A list is written in its form, if its items are. -/
theorem writes_counted {α : Type} {write : α → Write} {form : α → List UInt8} {as : List α}
    (hn : fits as.length) (h : ∀ a ∈ as, Writes (write a) (form a)) :
    Writes (count as.length >>= fun _ => as.forM write) (countedForm form as) :=
  (writes_count hn).seq (writes_forM h)

/-! ## Values -/

theorem writes_atom {a : Atom} (h : atomFits a) :
    Writes (atom a) ((atomTag a).byte :: atomForm a) := by
  cases a with
  | int n => exact (writes_byte _).seq (writes_word _)
  | float x => exact (writes_byte _).seq (writes_word _)
  | bool b => exact (writes_byte _).seq (writes_bool b)
  | string s => exact (writes_byte _).seq (writes_text h)
  | color c => exact (writes_byte _).seq (writes_bytes _)
  | coord c =>
    have := (writes_byte Tag.coord.byte).seq ((writes_bool c.spatial).seq
      ((writes_word c.x.bits).seq ((writes_word c.y.bits).seq (writes_word c.z.bits))))
    rw [atomForm, List.append_assoc, List.append_assoc]
    exact this
  | path p => exact (writes_byte _).seq (writes_text h)
  | reference r => exact (writes_byte _).seq ((writes_byte _).seq (writes_text h))
  | dyna e => exact (writes_byte _).seq (writes_text h)

/-- Values are written one after the other. -/
theorem values_eq_forM (vs : List Value) : values vs = vs.forM value := by
  induction vs with
  | nil => rfl
  | cons v vs ih => rw [values, ih]; rfl

/-- Writes one field. -/
def field (e : String × Value) : Write := do
  text e.1
  value e.2

/-- Fields are written one after the other. -/
theorem fields_eq_forM (fs : Entries Value) : fields fs = fs.forM field := by
  induction fs with
  | nil => rfl
  | cons e fs ih =>
    show _ = field e >>= fun _ => fs.forM field
    rw [fields, ih, field, bind_assoc]

/-- A field is written if its value is. -/
theorem writes_field {e : String × Value} (hk : textFits e.1)
    (hv : Writes (value e.2) (valueForm e.2)) : Writes (field e) (fieldForm e) :=
  (writes_text hk).seq hv

/-- A value without operations and rules is written in its form. -/
theorem writes_value (v : Value) (hv : v.encodable) (hf : valueFits v) :
    Writes (value v) (valueForm v) := by
  induction v using Value.induction with
  | atom a span => exact writes_atom hf
  | sequence k items span ih =>
    simp only [Value.encodable, Value.allEncodable_iff] at hv
    simp only [valueFits, Bool.and_eq_true, allFit_iff] at hf
    rw [value, valueForm, values_eq_forM, itemsForm_eq]
    exact (writes_byte _).seq (writes_counted hf.1 fun w hw => ih w hw (hv w hw) (hf.2 w hw))
  | record k fields span ih =>
    simp only [Value.encodable, Value.allFieldsEncodable_iff] at hv
    simp only [valueFits, Bool.and_eq_true, allFieldsFit_iff] at hf
    rw [value, valueForm, fields_eq_forM, fieldsForm_eq]
    exact (writes_byte _).seq (writes_counted hf.1 fun e he =>
      writes_field (hf.2 e he).1 (ih e he (hv e he) (hf.2 e he).2))
  | binary l op r span ihl ihr => cases hv
  | neg v span ih => cases hv
  | rule m d lo hi span => cases hv

theorem fails_fail (cause : FormatCause) : Fails (fail cause) := fun buf => ⟨_, buf, rfl⟩

/-- An operation or a rule at any depth makes writing fail, whatever the counts are. -/
theorem fails_value (v : Value) (hv : v.encodable = false) : Fails (value v) := by
  induction v using Value.induction with
  | atom a span => cases hv
  | sequence k items span ih =>
    rw [value, values_eq_forM]
    obtain ⟨w, hw, hwe⟩ := Value.allEncodable_eq_false_iff.mp hv
    exact ((fails_forM hw (ih w hw hwe)).seq_right _).seq_right _
  | record k fields span ih =>
    rw [value, fields_eq_forM]
    obtain ⟨e, he, hee⟩ := Value.allFieldsEncodable_eq_false_iff.mp hv
    have hfield : Fails (field e) := (ih e he hee).seq_right _
    exact ((fails_forM he hfield).seq_right _).seq_right _
  | binary l op r span ihl ihr => exact fails_fail _
  | neg v span ih => exact fails_fail _
  | rule m d lo hi span => exact fails_fail _

end Write

end Yini.Ybin
