import Yini.Proofs.Outcome
import Yini.Proofs.Ybin.Form
import Yini.Ybin.Decode

/-!
The reader turns the form of a value back into the value, without its places, if the containers of
the value nest no deeper than the reader allows (`reads_value`); otherwise it stops at the first
container that is too deep (`tooDeep_value`).

`Reads r bs a` says that `r` takes exactly the bytes `bs` from the front and gives `a`, whatever comes
behind them, and `TooDeep r bs` that `r` stops inside `bs`, because of the nesting and for no other
reason.  Both are closed under putting reads one after the other.
-/

namespace Yini.Ybin

namespace Read

variable {α β : Type}

/-- The read takes these bytes and gives this result. -/
def Reads (r : Read α) (bs : List UInt8) (a : α) : Prop :=
  ∀ rest pos, r ⟨bs ++ rest, pos⟩ = .ok a ⟨rest, pos + bs.length⟩

/-- The read stops inside these bytes, where values are nested too deeply. -/
def TooDeep (r : Read α) (bs : List UInt8) : Prop :=
  ∀ rest pos, ∃ offset after, r ⟨bs ++ rest, pos⟩ = .error (.format .tooDeep offset) after

/-! ## Reads one after the other -/

theorem reads_pure (a : α) : Reads (pure a) [] a := fun _ _ => rfl

/-- **One read after the other**: the bytes of the second come behind those of the first. -/
theorem Reads.bind {r : Read α} {f : α → Read β} {bs bs' : List UInt8} {a : α} {b : β}
    (h : Reads r bs a) (h' : Reads (f a) bs' b) : Reads (r >>= f) (bs ++ bs') b := by
  intro rest pos
  refine bind_eq_ok.mpr ⟨a, ⟨bs' ++ rest, pos + bs.length⟩, ?_, ?_⟩
  · rw [List.append_assoc]
    exact h _ _
  · rw [h', List.length_append, Nat.add_assoc]

theorem Reads.map {r : Read α} {bs : List UInt8} {a : α} (h : Reads r bs a) (f : α → β) :
    Reads (r >>= fun a => pure (f a)) bs (f a) := by
  have h' := h.bind (f := fun a => pure (f a)) (reads_pure (f a))
  rwa [List.append_nil] at h'

/-- Where the first read stops, the second is not tried. -/
theorem TooDeep.bind {r : Read α} {bs : List UInt8} (h : TooDeep r bs) (f : α → Read β)
    (bs' : List UInt8) : TooDeep (r >>= f) (bs ++ bs') := by
  intro rest pos
  obtain ⟨offset, after, h⟩ := h (bs' ++ rest) pos
  exact ⟨offset, after, bind_eq_error.mpr (.inl (by rw [List.append_assoc]; exact h))⟩

/-- The second read may be the one that stops. -/
theorem Reads.bind_tooDeep {r : Read α} {f : α → Read β} {bs bs' : List UInt8} {a : α}
    (h : Reads r bs a) (h' : TooDeep (f a) bs') : TooDeep (r >>= f) (bs ++ bs') := by
  intro rest pos
  obtain ⟨offset, after, h'⟩ := h' rest (pos + bs.length)
  refine ⟨offset, after, bind_eq_error.mpr (.inr ⟨a, _, ?_, h'⟩)⟩
  rw [List.append_assoc]
  exact h _ _

/-- Looking at the offset takes no bytes. -/
theorem reads_position_bind {f : Nat → Read β} {bs : List UInt8} {b : β}
    (h : ∀ n, Reads (f n) bs b) : Reads (position >>= f) bs b := fun rest pos => h pos rest pos

/-- Asking for the position makes no difference to where a read stops. -/
theorem tooDeep_position_bind {f : Nat → Read β} {bs : List UInt8}
    (h : ∀ n, TooDeep (f n) bs) : TooDeep (position >>= f) bs := fun rest pos => h pos rest pos

/-! ## Numbers and texts -/

theorem reads_take (bs : List UInt8) : Reads (take bs.length) bs bs := by
  intro rest pos
  show (if (List.take bs.length (bs ++ rest)).length = bs.length then _ else _ : Read _) _ = _
  rw [List.take_left, if_pos rfl]
  show EStateM.Result.ok bs (Reader.mk (List.drop bs.length (bs ++ rest)) _) = _
  rw [List.drop_left]

theorem reads_byte (b : UInt8) : Reads byte [b] b := by
  show Reads (take 1 >>= _) ([b] ++ []) b
  exact (reads_take [b]).bind (reads_pure b)

/-- The bytes of a number give it back. -/
theorem ofBytes32_bytes32 (n : UInt32) :
    ofBytes32 n.toUInt8 (n >>> 8).toUInt8 (n >>> 16).toUInt8 (n >>> 24).toUInt8 = n := by
  apply UInt32.toBitVec_inj.mp
  apply BitVec.eq_of_getLsbD_eq
  intro i hi
  have h8 : (8#32 % 32).toNat = 8 := rfl
  have h16 : (16#32 % 32).toNat = 16 := rfl
  have h24 : (24#32 % 32).toNat = 24 := rfl
  simp only [ofBytes32, UInt32.toBitVec_or, UInt32.toBitVec_shiftLeft, UInt8.toBitVec_toUInt32,
    UInt32.toBitVec_toUInt8, UInt32.toBitVec_shiftRight, BitVec.getLsbD_or, UInt32.toBitVec_ofNat,
    BitVec.getLsbD_setWidth, BitVec.shiftLeft_eq', BitVec.ushiftRight_eq', h8, h16, h24,
    BitVec.getLsbD_shiftLeft, BitVec.getLsbD_ushiftRight]
  -- every bit comes from the byte in which it stands, and from no other
  rcases Nat.lt_or_ge i 8 with h | h
  · have hlow : i < 16 ∧ i < 24 := by omega
    simp [hi, h, hlow]
  rcases Nat.lt_or_ge i 16 with h' | h'
  · have hin : ¬i < 8 ∧ i - 8 < 32 ∧ i - 8 < 8 ∧ i < 24 ∧ 8 + (i - 8) = i := by omega
    simp [hi, hin, h']
  rcases Nat.lt_or_ge i 24 with h'' | h''
  · have hin : ¬i < 8 ∧ ¬i < 16 ∧ i - 16 < 32 ∧ i - 16 < 8 ∧ ¬i - 8 < 8 ∧
        16 + (i - 16) = i := by omega
    simp [hi, hin, h'']
  · have hin : ¬i < 8 ∧ ¬i < 16 ∧ ¬i < 24 ∧ i - 24 < 32 ∧ i - 24 < 8 ∧ ¬i - 8 < 8 ∧
        ¬i - 16 < 8 ∧ 24 + (i - 24) = i := by omega
    simp [hi, hin]

theorem reads_word (n : UInt32) : Reads word (bytes32 n) n := by
  show Reads (take 4 >>= _) (bytes32 n ++ []) n
  refine (reads_take (bytes32 n)).bind ?_
  show Reads (pure (ofBytes32 _ _ _ _)) [] n
  rw [ofBytes32_bytes32]
  exact reads_pure n

theorem reads_count {n : Nat} (h : fits n) : Reads count (countForm n) n := by
  have hn : n.toUInt32.toNat = n := by
    simp only [fits, decide_eq_true_eq] at h
    exact Nat.mod_eq_of_lt h
  have hread := (reads_word n.toUInt32).map UInt32.toNat
  rw [hn] at hread
  exact hread

theorem reads_bool (b : Bool) : Reads bool (boolForm b) b := by
  have h := (reads_byte (if b then 1 else 0)).map (fun c => c != 0)
  cases b <;> exact h

theorem reads_float (x : Binary32) : Reads float (bytes32 x.bits) x :=
  (reads_word x.bits).map Binary32.mk

theorem fromUTF8?_toUTF8 (s : String) : String.fromUTF8? s.toUTF8 = some s := by
  show (if h : s.toByteArray.IsValidUTF8 then some (String.fromUTF8 s.toByteArray h) else none) = _
  rw [dif_pos s.isValidUTF8]
  rfl

theorem reads_text {s : String} (h : textFits s) : Reads text (textForm s) s := by
  refine (reads_count h).bind (reads_position_bind fun start => ?_)
  have hlen : s.utf8ByteSize = s.toUTF8.data.toList.length := by simp
  have hback : s.toUTF8.data.toList.toByteArray = s.toUTF8 := by
    apply ByteArray.ext
    simp
  rw [hlen, ← List.append_nil s.toUTF8.data.toList]
  refine Reads.bind (by rw [List.append_nil]; exact reads_take _) ?_
  rw [hback, fromUTF8?_toUTF8]
  exact reads_pure s

/-! ## Counted items -/

/-- As many items as there are forms. -/
theorem reads_repeatFrom {item : Read β} {form : α → List UInt8} {result : α → β} {as : List α}
    (h : ∀ a ∈ as, Reads item (form a) (result a)) :
    ∀ before, Reads (repeatFrom item as.length before) (as.flatMap form)
      (before.reverse ++ as.map result) := by
  induction as with
  | nil =>
    intro before
    rw [List.map_nil, List.append_nil]
    exact reads_pure _
  | cons a as ih =>
    intro before
    rw [List.flatMap_cons]
    have hrest := ih (fun b hb => h b (List.mem_cons_of_mem _ hb)) (result a :: before)
    rw [List.reverse_cons, List.append_assoc, List.singleton_append, ← List.map_cons] at hrest
    exact (h a List.mem_cons_self).bind hrest

/-- The first item that is too deep stops the whole; the items before it are read. -/
theorem tooDeep_repeatFrom {item : Read β} {form : α → List UInt8} {result : α → β} {as : List α}
    (h : ∀ a ∈ as, Reads item (form a) (result a) ∨ TooDeep item (form a)) {a : α} (ha : a ∈ as)
    (hdeep : TooDeep item (form a)) :
    ∀ before, TooDeep (repeatFrom item as.length before) (as.flatMap form) := by
  induction as with
  | nil => exact absurd ha List.not_mem_nil
  | cons b as ih =>
    intro before
    rw [List.flatMap_cons]
    rcases h b List.mem_cons_self with hb | hb
    · rcases List.mem_cons.mp ha with rfl | ha
      · exact hdeep.bind _ _
      · exact hb.bind_tooDeep (ih (fun c hc => h c (List.mem_cons_of_mem _ hc)) ha _)
    · exact hb.bind _ _

theorem reads_counted {item : Read β} {form : α → List UInt8} {result : α → β} {as : List α}
    (hn : fits as.length) (h : ∀ a ∈ as, Reads item (form a) (result a)) :
    Reads (counted item) (countedForm form as) (as.map result) :=
  (reads_count hn).bind (reads_repeatFrom h [])

/-- Reading a list stops if one of its items is too deep and none before it is refused otherwise. -/
theorem tooDeep_counted {item : Read β} {form : α → List UInt8} {result : α → β} {as : List α}
    (hn : fits as.length) (h : ∀ a ∈ as, Reads item (form a) (result a) ∨ TooDeep item (form a))
    {a : α} (ha : a ∈ as) (hdeep : TooDeep item (form a)) :
    TooDeep (counted item) (countedForm form as) :=
  (reads_count hn).bind_tooDeep (tooDeep_repeatFrom h ha hdeep [])

/-! ## Values -/

theorem reads_atom {a : Atom} (h : atomFits a) :
    Reads (atom (atomTag a)) (atomForm a) (some a) := by
  cases a with
  | int n =>
    have hread := (reads_word n.toUInt32).map fun m => some (Atom.int m.toInt32)
    rwa [Int32.toInt32_toUInt32] at hread
  | float x => exact (reads_float x).map fun y => some (Atom.float y)
  | bool b => exact (reads_bool b).map fun c => some (Atom.bool c)
  | string s => exact (reads_text h).map fun t => some (Atom.string t)
  | color c =>
    show Reads (take 4 >>= _) (atomForm (.color c) ++ []) _
    exact (reads_take (atomForm (.color c))).bind (reads_pure _)
  | coord c =>
    show Reads _ (boolForm c.spatial ++ bytes32 c.x.bits ++ bytes32 c.y.bits ++ bytes32 c.z.bits) _
    rw [List.append_assoc, List.append_assoc]
    exact (reads_bool _).bind ((reads_float _).bind ((reads_float _).bind
      ((reads_float c.z).map fun z => some (Atom.coord ⟨c.x, c.y, z, c.spatial⟩))))
  | path p => exact (reads_text h).map fun t => some (Atom.path t)
  | reference r =>
    refine reads_position_bind fun start => (reads_byte _).bind ?_
    rw [referenceKind?_referenceByte]
    exact (reads_text h).map fun t => some (Atom.reference ⟨r.kind, t⟩)
  | dyna e => exact (reads_text h).map fun t => some (Atom.dyna t)

theorem reads_valueWith_atom {items : Read (List Value)} {fields : Read (List (String × Value))}
    {a : Atom} (h : atomFits a) :
    Reads (valueWith items fields) ((atomTag a).byte :: atomForm a) (.atom a .none) := by
  refine reads_position_bind fun start => (reads_byte _).bind ?_
  rw [Tag.ofByte?_byte]
  have hread (f : Option Atom → Read Value) (hf : f (some a) = pure (.atom a .none)) :
      Reads (atom (atomTag a) >>= f) (atomForm a) (.atom a .none) := by
    rw [← List.append_nil (atomForm a)]
    refine (reads_atom h).bind ?_
    rw [hf]
    exact reads_pure _
  cases a <;> exact hread _ rfl

/-- A sequence is read back, if its items are. -/
theorem reads_valueWith_sequence {items : Read (List Value)}
    {fields : Read (List (String × Value))} {k : SequenceKind} {bs : List UInt8} {vs : List Value}
    (h : Reads items bs vs) :
    Reads (valueWith items fields) ((Tag.sequence k).byte :: bs) (.sequence k vs .none) := by
  refine reads_position_bind fun start => (reads_byte _).bind ?_
  rw [Tag.ofByte?_byte]
  exact h.map fun ws => Value.sequence k ws .none

/-- A record is read back, if its fields are and none occurs twice. -/
theorem reads_valueWith_record {items : Read (List Value)}
    {fields : Read (List (String × Value))} {k : RecordKind} {bs : List UInt8} {fs : Entries Value}
    (h : Reads fields bs fs) (hnodup : fs.keys.Nodup) :
    Reads (valueWith items fields) ((Tag.record k).byte :: bs) (.record k fs .none) := by
  refine reads_position_bind fun start => (reads_byte _).bind ?_
  rw [Tag.ofByte?_byte]
  have hread := h.map fun gs => Value.record k (Entries.ofList gs) .none
  rwa [Entries.ofList_of_nodup hnodup] at hread

theorem tooDeep_valueWith_sequence {items : Read (List Value)}
    {fields : Read (List (String × Value))} {k : SequenceKind} {bs : List UInt8}
    (h : TooDeep items bs) : TooDeep (valueWith items fields) ((Tag.sequence k).byte :: bs) := by
  refine tooDeep_position_bind fun start => (reads_byte _).bind_tooDeep ?_
  rw [Tag.ofByte?_byte]
  have hdeep := h.bind (fun ws => pure (Value.sequence k ws .none)) []
  rwa [List.append_nil] at hdeep

theorem tooDeep_valueWith_record {items : Read (List Value)}
    {fields : Read (List (String × Value))} {k : RecordKind} {bs : List UInt8}
    (h : TooDeep fields bs) : TooDeep (valueWith items fields) ((Tag.record k).byte :: bs) := by
  refine tooDeep_position_bind fun start => (reads_byte _).bind_tooDeep ?_
  rw [Tag.ofByte?_byte]
  have hdeep := h.bind (fun gs => pure (Value.record k (Entries.ofList gs) .none)) []
  rwa [List.append_nil] at hdeep

/-- No container may be opened any more. -/
theorem tooDeep_tooDeep (bs : List UInt8) : TooDeep (tooDeep : Read α) bs :=
  fun rest pos => ⟨pos, ⟨bs ++ rest, pos⟩, rfl⟩

theorem reads_field {r : Read Value} {e : String × Value} {v : Value} (hk : textFits e.1)
    (h : Reads r (valueForm e.2) v) : Reads (field r) (fieldForm e) (e.1, v) :=
  (reads_text hk).bind (h.map fun w => (e.1, w))

theorem tooDeep_field {r : Read Value} {e : String × Value} (hk : textFits e.1)
    (h : TooDeep r (valueForm e.2)) : TooDeep (field r) (fieldForm e) := by
  refine (reads_text hk).bind_tooDeep ?_
  have hdeep := h.bind (fun w => pure (e.1, w)) []
  rwa [List.append_nil] at hdeep

/-- A value whose containers nest at most `n` deep is read back without its places. -/
theorem reads_value (v : Value) (hv : v.encodable) (hf : valueFits v) (hw : v.wellFormed) :
    ∀ n, v.levels ≤ n → Reads (value n) (valueForm v) v.bare := by
  induction v using Value.induction with
  | atom a span =>
    intro n _
    cases n <;> exact reads_valueWith_atom hf
  | sequence k items span ih =>
    intro n hn
    simp only [Value.encodable, Value.allEncodable_iff] at hv
    simp only [valueFits, Bool.and_eq_true, allFit_iff] at hf
    simp only [Value.wellFormed, Value.allWellFormed_iff] at hw
    -- a container takes one level, and what it holds has one less
    obtain ⟨m, rfl⟩ : ∃ m, n = m + 1 := ⟨n - 1, by simp only [Value.levels] at hn; omega⟩
    have hm : ∀ w ∈ items, w.levels ≤ m := Value.maxLevels_le_iff.mp (Nat.le_of_succ_le_succ hn)
    rw [valueForm, itemsForm_eq, Value.bare, Value.bareItems_eq_map]
    exact reads_valueWith_sequence (reads_counted hf.1 fun w hmem =>
      ih w hmem (hv w hmem) (hf.2 w hmem) (hw w hmem) m (hm w hmem))
  | record k fields span ih =>
    intro n hn
    have hnodup := Value.nodup_of_wellFormed hw
    have hwf := Value.fields_of_wellFormed hw
    simp only [Value.encodable, Value.allFieldsEncodable_iff] at hv
    simp only [valueFits, Bool.and_eq_true, allFieldsFit_iff] at hf
    obtain ⟨m, rfl⟩ : ∃ m, n = m + 1 := ⟨n - 1, by simp only [Value.levels] at hn; omega⟩
    have hm : ∀ e ∈ fields, e.2.levels ≤ m :=
      Value.maxFieldLevels_le_iff.mp (Nat.le_of_succ_le_succ hn)
    rw [valueForm, fieldsForm_eq, Value.bare, Value.bareFields_eq_map]
    refine reads_valueWith_record (reads_counted hf.1 fun e hmem => ?_)
      (by rw [Entries.keys_map]; exact hnodup)
    exact reads_field (hf.2 e hmem).1
      (ih e hmem (hv e hmem) (hf.2 e hmem).2 (hwf e hmem) m (hm e hmem))
  | binary l op r span ihl ihr => cases hv
  | neg v span ih => cases hv
  | rule m d lo hi span => cases hv

/-- A value whose containers nest more than `n` deep is not read. -/
theorem tooDeep_value (v : Value) (hv : v.encodable) (hf : valueFits v) (hw : v.wellFormed) :
    ∀ n, n < v.levels → TooDeep (value n) (valueForm v) := by
  induction v using Value.induction with
  | atom a span => intro n hn; cases hn
  | sequence k items span ih =>
    intro n hn
    simp only [Value.encodable, Value.allEncodable_iff] at hv
    simp only [valueFits, Bool.and_eq_true, allFit_iff] at hf
    simp only [Value.wellFormed, Value.allWellFormed_iff] at hw
    rw [valueForm, itemsForm_eq]
    cases n with
    | zero => exact tooDeep_valueWith_sequence (tooDeep_tooDeep _)
    | succ m =>
      refine tooDeep_valueWith_sequence ?_
      obtain ⟨w, hmem, hdeep⟩ : ∃ w ∈ items, m < w.levels := by
        have hnot : ¬Value.maxLevels items ≤ m := by simp only [Value.levels] at hn; omega
        rw [Value.maxLevels_le_iff] at hnot
        simpa using hnot
      -- each item is read back or too deep itself, so the reader stops at this one at the latest
      have hitem : ∀ u ∈ items, Reads (value m) (valueForm u) u.bare ∨
          TooDeep (value m) (valueForm u) := by
        intro u hu
        rcases Nat.lt_or_ge m u.levels with hlt | hle
        · exact .inr (ih u hu (hv u hu) (hf.2 u hu) (hw u hu) m hlt)
        · exact .inl (reads_value u (hv u hu) (hf.2 u hu) (hw u hu) m hle)
      exact tooDeep_counted hf.1 hitem hmem
        (ih w hmem (hv w hmem) (hf.2 w hmem) (hw w hmem) m hdeep)
  | record k fields span ih =>
    intro n hn
    have hwf := Value.fields_of_wellFormed hw
    simp only [Value.encodable, Value.allFieldsEncodable_iff] at hv
    simp only [valueFits, Bool.and_eq_true, allFieldsFit_iff] at hf
    rw [valueForm, fieldsForm_eq]
    cases n with
    | zero => exact tooDeep_valueWith_record (tooDeep_tooDeep _)
    | succ m =>
      refine tooDeep_valueWith_record ?_
      obtain ⟨e, hmem, hdeep⟩ : ∃ e ∈ fields, m < e.2.levels := by
        have hnot : ¬Value.maxFieldLevels fields ≤ m := by simp only [Value.levels] at hn; omega
        rw [Value.maxFieldLevels_le_iff] at hnot
        simpa using hnot
      have hfield : ∀ u ∈ fields, Reads (field (value m)) (fieldForm u) (u.1, u.2.bare) ∨
          TooDeep (field (value m)) (fieldForm u) := by
        intro u hu
        rcases Nat.lt_or_ge m u.2.levels with hlt | hle
        · exact .inr (tooDeep_field (hf.2 u hu).1
            (ih u hu (hv u hu) (hf.2 u hu).2 (hwf u hu) m hlt))
        · exact .inl (reads_field (hf.2 u hu).1
            (reads_value u.2 (hv u hu) (hf.2 u hu).2 (hwf u hu) m hle))
      exact tooDeep_counted hf.1 hfield hmem (tooDeep_field (hf.2 e hmem).1
        (ih e hmem (hv e hmem) (hf.2 e hmem).2 (hwf e hmem) m hdeep))
  | binary l op r span ihl ihr => cases hv
  | neg v span ih => cases hv
  | rule m d lo hi span => cases hv

end Read

end Yini.Ybin
