import Yini.Proofs.Document
import Yini.Proofs.Merge
import Yini.Proofs.Ybin.Reading

/-!
What a read has done when it has succeeded, whatever the bytes were.

It has taken bytes from the front.  On these bytes it gives the same result whatever comes behind
them, and as long as one of them is missing it stops because the data end too early (`Exact`).
`Takes r post` says this of every successful run of `r`, and that `post` is true of the number of
bytes taken and of the result.  There is one such lemma for each function of the reader.  What they
say of the result is that it has a form again: values are `Value.Stored`, sections `Section.Stored`,
and a document is a `Collected` one.
-/

namespace Yini

/-! ## Values that can be read -/

/-- What the bytes of a value can give: a value that has a form, whose texts and counts fit, whose
    containers nest at most `n` deep, and that has no places. -/
structure Value.Stored (n : Nat) (v : Value) : Prop where
  encodable : v.encodable
  fits : Ybin.valueFits v
  wellFormed : v.wellFormed
  levels : v.levels ≤ n
  bare : v.bare = v

namespace Entries

variable {α : Type}

/-- Inserting makes a list of entries longer by one at most. -/
theorem length_insert_le (es : Entries α) (k : String) (v : α) :
    (es.insert k v).length ≤ es.length + 1 := by
  induction es with
  | nil => exact Nat.le_refl 1
  | cons e es ih =>
    obtain ⟨l, w⟩ := e
    by_cases hl : l = k
    · rw [insert, if_pos hl]
      exact Nat.le_succ _
    · rw [insert, if_neg hl]
      exact Nat.succ_le_succ ih

/-- Inserting entries makes the list longer by their number at most. -/
theorem length_insertAll_le (es new : Entries α) :
    (es.insertAll new).length ≤ es.length + new.length := by
  induction new generalizing es with
  | nil => exact Nat.le_refl _
  | cons e new ih =>
    have hstep := length_insert_le es e.1 e.2
    calc (insertAll (es.insert e.1 e.2) new).length
        ≤ (es.insert e.1 e.2).length + new.length := ih _
      _ ≤ es.length + (new.length + 1) := by omega

end Entries

namespace Ybin

theorem fits_mono {m n : Nat} (h : fits n) (hle : m ≤ n) : fits m := by
  simp only [fits, decide_eq_true_eq] at h ⊢
  omega

theorem stored_atom {a : Atom} (h : atomFits a) (n : Nat) : (Value.atom a .none).Stored n :=
  ⟨rfl, h, rfl, Nat.zero_le n, rfl⟩

/-- A sequence has a form, if its count fits and its items have one. -/
theorem stored_sequence {k : SequenceKind} {vs : List Value} {m n : Nat} (hfits : fits vs.length)
    (h : ∀ v ∈ vs, v.Stored m) (hlt : m < n) : (Value.sequence k vs .none).Stored n where
  encodable := Value.allEncodable_iff.mpr fun v hv => (h v hv).encodable
  fits := by
    simp only [valueFits, Bool.and_eq_true, allFit_iff]
    exact ⟨hfits, fun v hv => (h v hv).fits⟩
  wellFormed := Value.allWellFormed_iff.mpr fun v hv => (h v hv).wellFormed
  levels := Nat.lt_of_le_of_lt (Value.maxLevels_le_iff.mpr fun v hv => (h v hv).levels) hlt
  bare := by
    have hsame : vs.map Value.bare = vs :=
      (List.map_congr_left fun v hv => (h v hv).bare).trans (List.map_id' vs)
    rw [Value.bare, Value.bareItems_eq_map, hsame]

/-- Of several fields of one name one stays, so nothing gets larger. -/
theorem stored_record {k : RecordKind} {fs : Entries Value} {m n : Nat} (hfits : fits fs.length)
    (h : ∀ e ∈ fs, textFits e.1 ∧ e.2.Stored m) (hlt : m < n) :
    (Value.record k (Entries.ofList fs) .none).Stored n := by
  have hmem : ∀ e ∈ Entries.ofList fs, textFits e.1 ∧ e.2.Stored m :=
    Entries.forall_mem_insertAll h fun _ he => absurd he List.not_mem_nil
  have hempty : (Entries.keys ([] : Entries Value)).Nodup := List.nodup_nil
  have hnodup : (Entries.ofList fs).keys.Nodup := Entries.nodup_keys_insertAll hempty fs
  have hlength : (Entries.ofList fs).length ≤ fs.length := by
    have := Entries.length_insertAll_le [] fs
    rwa [List.length_nil, Nat.zero_add] at this
  refine ⟨Value.allFieldsEncodable_iff.mpr fun e he => (hmem e he).2.encodable, ?_, ?_,
    Nat.lt_of_le_of_lt (Value.maxFieldLevels_le_iff.mpr fun e he => (hmem e he).2.levels) hlt, ?_⟩
  · simp only [valueFits, Bool.and_eq_true, allFieldsFit_iff]
    exact ⟨fits_mono hfits hlength, fun e he => ⟨(hmem e he).1, (hmem e he).2.fits⟩⟩
  · simp only [Value.wellFormed, Bool.and_eq_true, decide_eq_true_eq, Value.allFieldsWellFormed_iff]
    exact ⟨hnodup, fun e he => (hmem e he).2.wellFormed⟩
  · have hsame : (Entries.ofList fs).map (fun e => (e.1, e.2.bare)) = Entries.ofList fs :=
      (List.map_congr_left fun e he => by rw [(hmem e he).2.bare]).trans (List.map_id' _)
    rw [Value.bare, Value.bareFields_eq_map, hsame]

namespace Read

variable {α β : Type}

/-! ## Taking bytes -/

/-- The read stops because it wants more than these bytes. -/
def Starves (r : Read α) (bs : List UInt8) : Prop :=
  ∀ pos, ∃ wanted left offset after,
    r ⟨bs, pos⟩ = .error (.format (.unexpectedEnd wanted left) offset) after

/-- The read takes exactly these bytes and gives this result, and it needs them all. -/
structure Exact (r : Read α) (used : List UInt8) (a : α) : Prop where
  reads : Reads r used a
  starves : ∀ front back, used = front ++ back → back ≠ [] → Starves r front

/-- Whenever the read succeeds, it is exact on the bytes that it has taken, and `post` is true of
    their number and of the result. -/
def Takes (r : Read α) (post : Nat → α → Prop) : Prop :=
  ∀ bs pos a s, r ⟨bs, pos⟩ = .ok a s →
    ∃ used, bs = used ++ s.rest ∧ Exact r used a ∧ post used.length a

variable {r : Read α} {f : α → Read β} {pre post : Nat → α → Prop} {next : Nat → β → Prop}

/-- Where the bytes end within the first read, they end within both. -/
theorem Starves.bind {bs : List UInt8} (h : Starves r bs) (f : α → Read β) :
    Starves (r >>= f) bs := by
  intro pos
  obtain ⟨wanted, left, offset, after, h⟩ := h pos
  exact ⟨wanted, left, offset, after, bind_eq_error.mpr (.inl h)⟩

theorem Reads.bind_starves {bs bs' : List UInt8} {a : α} (h : Reads r bs a)
    (h' : Starves (f a) bs') : Starves (r >>= f) (bs ++ bs') := by
  intro pos
  obtain ⟨wanted, left, offset, after, h'⟩ := h' (pos + bs.length)
  exact ⟨wanted, left, offset, after, bind_eq_error.mpr (.inr ⟨a, _, h bs' pos, h'⟩)⟩

/-- Bytes are missing from what the first read needs, or from what the second one needs. -/
theorem Exact.bind {used more : List UInt8} {a : α} {b : β} (h : Exact r used a)
    (h' : Exact (f a) more b) : Exact (r >>= f) (used ++ more) b where
  reads := h.reads.bind h'.reads
  starves front back heq hback := by
    rcases List.append_eq_append_iff.mp heq with ⟨mid, rfl, hmore⟩ | ⟨mid, hused, rfl⟩
    · exact h.reads.bind_starves (h'.starves mid back hmore hback)
    · cases mid with
      | nil =>
        obtain rfl : used = front := by rw [hused, List.append_nil]
        have hrest := h.reads.bind_starves (h'.starves [] more rfl hback)
        rwa [List.append_nil] at hrest
      | cons b bs => exact (h.starves front (b :: bs) hused (List.cons_ne_nil b bs)).bind f

theorem Takes.pure {a : α} (h : post 0 a) : Takes (pure a) post := by
  rintro bs pos _ _ ⟨⟩
  refine ⟨[], rfl, ⟨reads_pure a, fun front back heq hback => ?_⟩, h⟩
  exact absurd (List.nil_eq_append_iff.mp heq).2 hback

/-- A read after a read takes the bytes of both. -/
theorem Takes.bind (h : Takes r pre)
    (hf : ∀ m a, pre m a → Takes (f a) fun n b => next (m + n) b) : Takes (r >>= f) next := by
  intro bs pos b s hrun
  obtain ⟨a, t, hr, hrest⟩ := bind_eq_ok.mp hrun
  obtain ⟨used, rfl, hexact, hpre⟩ := h bs pos a t hr
  obtain ⟨more, hmore, hexact', hnext⟩ := hf used.length a hpre t.rest t.position b s hrest
  refine ⟨used ++ more, by rw [List.append_assoc, ← hmore], hexact.bind hexact', ?_⟩
  rwa [List.length_append]

theorem Takes.imp (h : Takes r pre) (himp : ∀ n a, pre n a → post n a) : Takes r post := by
  intro bs pos a s hrun
  obtain ⟨used, hbs, hexact, hpre⟩ := h bs pos a s hrun
  exact ⟨used, hbs, hexact, himp _ _ hpre⟩

/-- A read that does nothing but fail never succeeds. -/
theorem takes_failAt (offset : Nat) (cause : FormatCause) : Takes (failAt offset cause) post := by
  rintro bs pos a s ⟨⟩

/-- Looking at the offset takes no bytes, as long as a read that succeeds makes no use of it. -/
theorem takes_position_bind {f : Nat → Read α} (h : ∀ n, Takes (f n) post)
    (hsame : ∀ m n s a t, f m s = .ok a t → f n s = .ok a t) : Takes (position >>= f) post := by
  intro bs pos a s hrun
  obtain ⟨used, hbs, hexact, hpost⟩ := h pos bs pos a s hrun
  refine ⟨used, hbs, ⟨fun rest p => hsame pos p _ _ _ (hexact.reads rest p), ?_⟩, hpost⟩
  intro front back heq hback p
  -- the read that stands at another offset takes the same bytes
  obtain ⟨used', hused, hexact', -⟩ := h p _ p _ _ (hsame pos p _ _ _ (hexact.reads [] p))
  rw [List.append_nil, List.append_nil] at hused
  exact hexact'.starves front back (hused ▸ heq) hback p

/-! ## Numbers and texts -/

/-- As many bytes have been taken as were asked for. -/
theorem takes_take (n : Nat) : Takes (take n) fun m front => m = n ∧ front.length = n := by
  intro bs pos front s hrun
  have htake : ∀ bs pos, take n ⟨bs, pos⟩ = if (bs.take n).length = n
      then .ok (bs.take n) ⟨bs.drop n, pos + n⟩
      else .error (.format (.unexpectedEnd n bs.length) pos) ⟨bs, pos⟩ := by
    intro bs pos
    show (if (bs.take n).length = n then _ else _ : Read _) _ = _
    split <;> rfl
  rw [htake] at hrun
  split at hrun
  next hlength =>
    cases hrun
    have hreads := reads_take (bs.take n)
    rw [hlength] at hreads
    refine ⟨bs.take n, (List.take_append_drop n bs).symm, ⟨hreads, ?_⟩, hlength, hlength⟩
    intro front back heq hback p
    have hshort : (front.take n).length ≠ n := by
      have hback := List.length_pos_iff.mpr hback
      have htotal := congrArg List.length heq
      rw [List.length_append] at htotal
      rw [List.length_take]
      omega
    rw [htake, if_neg hshort]
    exact ⟨_, _, _, _, rfl⟩
  next => cases hrun

theorem takes_byte : Takes byte fun m _ => m = 1 := by
  refine (takes_take 1).bind fun _ front ⟨hm, _⟩ => ?_
  split <;> exact .pure hm

theorem takes_word : Takes word fun m _ => m = 4 := by
  refine (takes_take 4).bind fun _ front ⟨hm, _⟩ => ?_
  split <;> exact .pure hm

/-- Four bytes have been taken, and the count fits. -/
theorem takes_count : Takes count fun m n => m = 4 ∧ fits n :=
  takes_word.bind fun _ n hm => .pure ⟨hm, decide_eq_true n.toNat_lt⟩

theorem takes_bool : Takes bool fun _ _ => True :=
  takes_byte.bind fun _ _ _ => .pure trivial

/-- Four bytes have been taken, whatever they were. -/
theorem takes_float : Takes float fun _ _ => True :=
  takes_word.bind fun _ _ _ => .pure trivial

/-- The bytes of the length and those of the text have been taken, and the text fits. -/
theorem takes_text : Takes text fun m s => 4 ≤ m ∧ textFits s := by
  refine takes_count.bind fun m n ⟨hm, hn⟩ => takes_position_bind (fun start => ?_) ?_
  · refine (takes_take n).bind fun k bytes ⟨_, hlength⟩ => ?_
    split
    next s hs =>
      refine .pure ⟨by omega, ?_⟩
      have hsize : s.utf8ByteSize = n := by
        unfold String.fromUTF8? at hs
        split at hs
        next hvalid =>
          cases hs
          rw [← hlength]
          simp [String.fromUTF8]
        next => cases hs
      rwa [textFits, hsize]
    next => exact takes_failAt _ _
  · -- only a fault shows where the text starts
    intro start start' s a t hrun
    obtain ⟨bytes, u, htake, hrest⟩ := bind_eq_ok.mp hrun
    refine bind_eq_ok.mpr ⟨bytes, u, htake, ?_⟩
    cases htext : String.fromUTF8? bytes.toByteArray with
    | some _ => rwa [htext] at hrest
    | none => rw [htext] at hrest; cases hrest

/-! ## Counted items -/

/-- **As many items have been read as there are rounds**, behind those that were there before; each has
    taken a byte at least. -/
theorem takes_repeatFrom {item : Read α} {P : α → Prop} (h : Takes item fun m a => 0 < m ∧ P a)
    (n : Nat) : ∀ before, Takes (repeatFrom item n before) fun m as =>
      ∃ new, as = before.reverse ++ new ∧ new.length = n ∧ n ≤ m ∧ ∀ a ∈ new, P a := by
  induction n with
  | zero =>
    intro before
    exact .pure ⟨[], (List.append_nil _).symm, rfl, Nat.zero_le 0,
      fun _ ha => absurd ha List.not_mem_nil⟩
  | succ n ih =>
    intro before
    refine h.bind fun m a ⟨hm, ha⟩ => (ih (a :: before)).imp fun k as hrest => ?_
    obtain ⟨new, rfl, hlength, hk, hnew⟩ := hrest
    refine ⟨a :: new, by simp, by rw [List.length_cons, hlength], by omega, ?_⟩
    exact List.forall_mem_cons.mpr ⟨ha, hnew⟩

/-- Every item takes at least one byte, so there are no more items than bytes. -/
theorem takes_counted {item : Read α} {P : α → Prop} (h : Takes item fun m a => 0 < m ∧ P a) :
    Takes (counted item) fun m as => fits as.length ∧ as.length ≤ m ∧ ∀ a ∈ as, P a := by
  refine takes_count.bind fun m n ⟨hm, hn⟩ => (takes_repeatFrom h n []).imp fun k as hrest => ?_
  obtain ⟨new, rfl, hlength, hk, hnew⟩ := hrest
  exact ⟨by rwa [hlength], by omega, hnew⟩

/-- A name that fits and a value have been taken. -/
theorem takes_field {value : Read Value} {n : Nat} (h : Takes value fun _ v => v.Stored n) :
    Takes (field value) fun m e => 0 < m ∧ textFits e.1 ∧ e.2.Stored n :=
  takes_text.bind fun m k ⟨hm, hk⟩ => h.bind fun _ v hv => .pure ⟨by omega, hk, hv⟩

/-! ## Values -/

theorem takes_atom (t : Tag) : Takes (atom t) fun _ o => ∀ a ∈ o, atomFits a := by
  have hsome : ∀ {a : Atom}, atomFits a → ∀ b ∈ some a, atomFits b := by
    rintro a h b ⟨⟩
    exact h
  cases t with
  | int => exact takes_word.bind fun _ _ _ => .pure (hsome rfl)
  | float => exact takes_float.bind fun _ _ _ => .pure (hsome rfl)
  | bool => exact takes_bool.bind fun _ _ _ => .pure (hsome rfl)
  | string => exact takes_text.bind fun _ _ h => .pure (hsome h.2)
  | color =>
    refine (takes_take 4).bind fun _ front _ => ?_
    split
    · exact .pure (hsome rfl)
    · exact .pure fun _ h => by cases h
  | coord =>
    exact takes_bool.bind fun _ _ _ => takes_float.bind fun _ _ _ => takes_float.bind fun _ _ _ =>
      takes_float.bind fun _ _ _ => .pure (hsome rfl)
  | path => exact takes_text.bind fun _ _ h => .pure (hsome h.2)
  | sequence k => exact .pure fun _ h => by cases h
  | record k => exact .pure fun _ h => by cases h
  -- the kind is looked up before the text is read, so a place that differs may show in the fault only
  | reference =>
    refine takes_position_bind (fun start => takes_byte.bind fun _ b _ => ?_) ?_
    · split
      · exact takes_text.bind fun _ _ h => .pure (hsome h.2)
      · exact takes_failAt _ _
    · intro start start' s a t hrun
      obtain ⟨b, u, hbyte, hrest⟩ := bind_eq_ok.mp hrun
      refine bind_eq_ok.mpr ⟨b, u, hbyte, ?_⟩
      cases hkind : referenceKind? b with
      | some _ => rwa [hkind] at hrest
      | none => rw [hkind] at hrest; cases hrest
  | dyna => exact takes_text.bind fun _ _ h => .pure (hsome h.2)

/-- A value takes at least one byte, that of its tag. -/
theorem takes_valueWith {items : Read (List Value)} {fields : Read (List (String × Value))} {n : Nat}
    (hitems : Takes items fun _ vs => fits vs.length ∧ ∃ m < n, ∀ v ∈ vs, v.Stored m)
    (hfields : Takes fields fun _ fs => fits fs.length ∧
      ∃ m < n, ∀ e ∈ fs, textFits e.1 ∧ e.2.Stored m) :
    Takes (valueWith items fields) fun m v => 0 < m ∧ v.Stored n := by
  refine takes_position_bind (fun start => takes_byte.bind fun m b hm => ?_) ?_
  · split
    · exact takes_failAt _ _
    · exact hitems.bind fun _ vs ⟨hfits, k, hk, hvs⟩ =>
        .pure ⟨by omega, stored_sequence hfits hvs hk⟩
    · exact hfields.bind fun _ fs ⟨hfits, k, hk, hfs⟩ =>
        .pure ⟨by omega, stored_record hfits hfs hk⟩
    next t _ _ _ =>
      refine (takes_atom t).bind fun _ o ho => ?_
      split
      next a => exact .pure ⟨by omega, stored_atom (ho a rfl) n⟩
      next => exact takes_failAt _ _
  · -- where the value begins is told in faults only, so the same value is read from another place
    intro start start' s v t hrun
    obtain ⟨b, u, hbyte, hrest⟩ := bind_eq_ok.mp hrun
    refine bind_eq_ok.mpr ⟨b, u, hbyte, ?_⟩
    cases htag : Tag.ofByte? b with
    | none => rw [htag] at hrest; cases hrest
    | some tag =>
      rw [htag] at hrest
      cases tag with
      | sequence k => exact hrest
      | record k => exact hrest
      | _ =>
        obtain ⟨o, w, hatom, hrest⟩ := bind_eq_ok.mp hrest
        refine bind_eq_ok.mpr ⟨o, w, hatom, ?_⟩
        cases o with
        | some a => exact hrest
        | none => cases hrest

/-- No container may be opened any more. -/
theorem takes_tooDeep : Takes (tooDeep : Read α) post :=
  takes_position_bind (fun n => takes_failAt n _) (by rintro m n s a t ⟨⟩)

/-- **What is read as a value has a form**, with the nesting that was allowed.  The induction is on that. -/
theorem takes_value (n : Nat) : Takes (value n) fun m v => 0 < m ∧ v.Stored n := by
  induction n with
  | zero => exact takes_valueWith takes_tooDeep takes_tooDeep
  | succ n ih =>
    refine takes_valueWith ((takes_counted ih).imp fun _ vs h => ?_)
      ((takes_counted (takes_field (ih.imp fun _ _ h => h.2))).imp fun _ fs h => ?_)
    · exact ⟨h.1, n, Nat.lt_succ_self n, h.2.2⟩
    · exact ⟨h.1, n, Nat.lt_succ_self n, h.2.2⟩

/-! ## Sections -/

end Read

end Ybin

/-- How many parents, properties and entries a section holds. -/
def Section.weight (s : Section) : Nat := s.parents.length + s.properties.size + s.registry.length

/-- What the bytes of sections can give: a section whose texts fit, whose values could be read in its
    place, and that has no places. -/
structure Section.Stored (s : Section) : Prop where
  name : Ybin.textFits s.name
  parents : ∀ parent ∈ s.parents, Ybin.textFits parent
  properties : ∀ e ∈ s.properties.entries, Ybin.textFits e.1 ∧ e.2.Stored maxNesting
  registry : ∀ v ∈ s.registry, v.Stored (maxNesting + 1)
  span : s.span = .none
  keySpans : s.keySpans = ∅

/-- Merging sections that have a form gives one that has. -/
theorem Section.Stored.merge {s t : Section} (hs : s.Stored) (ht : t.Stored) :
    (s.merge t).Stored where
  name := hs.name
  parents parent h := (mem_joinParents.mp h).elim (hs.parents parent) (ht.parents parent)
  properties := Entries.forall_mem_insertAll ht.properties hs.properties
  registry v h := (List.mem_append.mp h).elim (hs.registry v) (ht.registry v)
  span := hs.span
  keySpans := by
    show s.keySpans.insertAll t.keySpans.entries = ∅
    rw [hs.keySpans, ht.keySpans]
    rfl

/-- The contents of a section that has a form have one. -/
theorem Section.Stored.value {s : Section} (h : s.Stored) {v : Value} (hv : v ∈ s.contents) :
    ∃ n, v.Stored n := by
  rcases List.mem_append.mp hv with hv | hv
  · obtain ⟨e, he, rfl⟩ := List.mem_map.mp hv
    exact ⟨_, (h.properties e he).2⟩
  · exact ⟨_, h.registry v hv⟩

/-- What has been read from bytes has no places. -/
theorem Section.Stored.bare_eq {s : Section} (h : s.Stored) : s.bare = s := by
  have hproperties : s.properties.mapValues Value.bare = s.properties :=
    Table.mapValues_eq_self fun k v hv => (h.properties (k, v) (Table.mem_entries_iff.mpr hv)).2.bare
  have hregistry : s.registry.map Value.bare = s.registry :=
    (List.map_congr_left fun v hv => (h.registry v hv).bare).trans (List.map_id' _)
  obtain ⟨name, parents, properties, registry, span, keySpans⟩ := s
  obtain rfl : span = .none := h.span
  obtain rfl : keySpans = ∅ := h.keySpans
  simp only [Section.bare, hproperties, hregistry]

/-- Joining lists of names makes none that is longer than both. -/
theorem Section.length_joinParents_le (old new : List String) :
    (joinParents old new).length ≤ old.length + new.length := by
  induction new generalizing old with
  | nil => exact Nat.le_refl _
  | cons p new ih =>
    have hstep : (if p ∈ old then old else old ++ [p]).length ≤ old.length + 1 := by
      split <;> simp
    calc (joinParents (if p ∈ old then old else old ++ [p]) new).length
        ≤ (if p ∈ old then old else old ++ [p]).length + new.length := ih _
      _ ≤ old.length + (new.length + 1) := by omega

/-- Merging makes sections no heavier than they are together. -/
theorem Section.weight_merge_le (s t : Section) : (s.merge t).weight ≤ s.weight + t.weight := by
  have hparents := length_joinParents_le s.parents t.parents
  have hproperties := Entries.length_insertAll_le s.properties.entries t.properties.entries
  have hregistry := @List.length_append _ s.registry t.registry
  simp only [weight, merge, Table.size, Table.insertAll] at *
  omega

/-- What has been put together from sections that took `m` bytes: every section could have been read
    as it is, and is no heavier than all of them together. -/
structure Document.Collected (m : Nat) (d : Document) : Prop where
  named : Named d.sections
  stored : ∀ n s, d.sections.get? n = some s → s.Stored ∧ s.weight ≤ m
  macros : d.macros = ∅
  schemas : d.schemas = ∅

/-- **One section more is collected**, and its size is added. -/
theorem Document.Collected.insertSection {m n : Nat} {d : Document} (h : d.Collected m) {s : Section}
    (hs : s.Stored) (hn : s.weight ≤ n) : (d.insertSection s).Collected (m + n) where
  named := named_declare h.named s
  stored k u hu := by
    rcases get?_declare_cases hu with hu | ⟨-, rfl | ⟨first, hfirst, rfl⟩⟩
    · obtain ⟨hstored, hweight⟩ := h.stored k u hu
      exact ⟨hstored, by omega⟩
    · exact ⟨hs, by omega⟩
    · obtain ⟨hstored, hweight⟩ := h.stored k first hfirst
      have hmerge := first.weight_merge_le s
      exact ⟨hstored.merge hs, by omega⟩
  macros := h.macros
  schemas := h.schemas

theorem Document.Collected.mono {m n : Nat} {d : Document} (h : d.Collected m) (hle : m ≤ n) :
    d.Collected n where
  named := h.named
  stored k s hs := ⟨(h.stored k s hs).1, Nat.le_trans (h.stored k s hs).2 hle⟩
  macros := h.macros
  schemas := h.schemas

theorem Document.collected_empty : Document.empty.Collected 0 :=
  ⟨named_empty, (by rintro n s ⟨⟩), rfl, rfl⟩

/-- Inserting a section makes the document larger by one at most. -/
theorem Document.size_insertSection_le (d : Document) (s : Section) :
    (d.insertSection s).sections.size ≤ d.sections.size + 1 := by
  show (declare d.sections s).size ≤ _
  unfold declare
  split <;> exact Entries.length_insert_le _ _ _

namespace Ybin.Read

/-- **What is read as a section has a form**, and is no larger than its bytes. -/
theorem takes_section : Takes «section» fun m s => s.Stored ∧ s.weight ≤ m := by
  have hparent : Takes text fun m s => 0 < m ∧ textFits s :=
    takes_text.imp fun _ _ h => ⟨by omega, h.2⟩
  have hproperty := takes_field ((takes_value maxNesting).imp fun _ _ h => h.2)
  have hentry : Takes loneValue fun m v => 0 < m ∧ v.Stored (maxNesting + 1) := takes_value _
  refine takes_text.bind fun _ name ⟨_, hname⟩ => (takes_counted hparent).bind
    fun _ parents ⟨_, hparents, hparentsFit⟩ => (takes_counted hproperty).bind
    fun _ properties ⟨_, hproperties, hstored⟩ => (takes_counted hentry).bind
    fun _ registry ⟨_, hregistry, hentries⟩ => .pure ⟨?_, ?_⟩
  · have hproperties := Entries.forall_mem_insertAll hstored
      fun e (h : e ∈ ([] : Entries Value)) => absurd h List.not_mem_nil
    exact ⟨hname, hparentsFit, hproperties, hentries, rfl, rfl⟩
  · have hsize : (Table.ofList properties).size ≤ 0 + properties.length :=
      Entries.length_insertAll_le [] properties
    simp only [Section.weight]
    omega

/-- Sections are added one after the other, and those of one name are merged. -/
theorem takes_sections {k : Nat} (n : Nat) : ∀ {d : Document}, d.Collected k →
    Takes (sections n d) fun m e => e.Collected (k + m) ∧ e.sections.size ≤ d.sections.size + n := by
  induction n generalizing k with
  | zero => exact fun hd => .pure ⟨hd, Nat.le_refl _⟩
  | succ n ih =>
    intro d hd
    refine takes_section.bind fun m s ⟨hs, hweight⟩ =>
      (ih (hd.insertSection hs hweight)).imp fun m' e ⟨he, hsize⟩ => ?_
    have hstep := d.size_insertSection_le s
    rw [Nat.add_assoc] at he
    exact ⟨he, by omega⟩

end Ybin.Read

end Yini
