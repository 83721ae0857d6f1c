import Yini.Proofs.Outcome
import Yini.Schema.Type

/-!
The types that schemas name.

A name is that of a known type, or that of sequences whose elements have a named type in turn, or it
is neither, and these three exclude each other (`name_induction`, `ofText_known`, `ofText_elements`,
`ofText_other`).  `HasType` says which values have the type of a name, and `Mismatch` what is found
in a value that has not.  Checking a value finds out exactly this (`check_eq_ok_iff`,
`check_eq_error_iff`).
-/

namespace Yini

/-- The name of the type of sequences of one kind whose elements have the type of a name. -/
def SequenceKind.elementsName (kind : SequenceKind) (element : String) : String :=
  kind.name ++ "[" ++ element ++ "]"

open SequenceKind (elementsName)

namespace SchemaType

/-! ## Reading names -/

theorem known_mem_all (t : KnownType) : t ∈ KnownType.all := by
  rcases t with _ | _ | _ | _ | _ | _ | _ | _ | kind | kind <;> try cases kind
  all_goals decide

theorem bracket_not_mem_name (t : KnownType) : '[' ∉ t.name.toList := by
  have hall : ∀ t ∈ KnownType.all, '[' ∉ t.name.toList := by decide
  exact hall t (known_mem_all t)

/-- What stands before the first bracket, and what stands between it and a bracket at the end. -/
theorem eq_append_of_inside {cs inner : List Char} {kind k : SequenceKind}
    (h : (match cs.dropWhile (· != '[') with
      | _ :: rest => if rest.getLast? = some ']' then some (k, rest.dropLast) else none
      | [] => none) = some (kind, inner)) :
    k = kind ∧ cs = cs.takeWhile (· != '[') ++ '[' :: (inner ++ [']']) := by
  split at h
  next c rest hdrop =>
    split at h
    next hlast =>
      obtain ⟨ys, rfl⟩ := List.getLast?_eq_some_iff.mp hlast
      rw [List.dropLast_concat] at h
      cases h
      have hhead : c = '[' := by
        have hstop := List.head?_dropWhile_not (· != '[') cs
        rw [hdrop] at hstop
        simpa using hstop
      refine ⟨rfl, ?_⟩
      rw [← hhead] at hdrop ⊢
      rw [← hdrop, List.takeWhile_append_dropWhile]
    next => cases h
  next => cases h

/-- The name of a sequence type is the kind, and the type of the elements in brackets. -/
theorem elementName?_eq_some_iff {cs inner : List Char} {kind : SequenceKind} :
    elementName? cs = some (kind, inner) ↔ cs = kind.name.toList ++ '[' :: (inner ++ [']']) := by
  constructor
  · intro h
    rw [elementName?] at h
    simp only at h
    split at h
    next hcontainer =>
      obtain ⟨rfl, hcs⟩ := eq_append_of_inside h
      rwa [hcontainer] at hcs
    split at h
    next hcontainer =>
      obtain ⟨rfl, hcs⟩ := eq_append_of_inside h
      rwa [hcontainer] at hcs
    split at h
    next hcontainer =>
      obtain ⟨rfl, hcs⟩ := eq_append_of_inside h
      rwa [hcontainer] at hcs
    next => cases h
  · rintro rfl
    -- the first bracket is the one behind the kind, whatever the name of the element type looks like
    have hname : ∀ c ∈ kind.name.toList, (c != '[') = true := by
      rw [← List.all_eq_true]
      cases kind <;> decide
    have htake : (kind.name.toList ++ '[' :: (inner ++ [']'])).takeWhile (· != '[')
        = kind.name.toList := by
      rw [List.takeWhile_append_of_pos hname]
      simp
    have hdrop : (kind.name.toList ++ '[' :: (inner ++ [']'])).dropWhile (· != '[')
        = '[' :: (inner ++ [']']) := by
      rw [List.dropWhile_append_of_pos hname]
      simp
    rw [elementName?]
    simp only [htake, hdrop]
    cases kind <;> simp [SequenceKind.name]

theorem toList_elementsName (kind : SequenceKind) (element : String) :
    (elementsName kind element).toList = kind.name.toList ++ '[' :: (element.toList ++ [']']) := by
  simp [elementsName, String.toList_append]

/-- The name of a known type is read as that type. -/
theorem ofText_known (t : KnownType) : ofText t.name = known t := by
  have hfind : ∀ t ∈ KnownType.all,
      KnownType.all.find? (fun u => u.name.toList == t.name.toList) = some t := by decide
  rw [ofText, ofChars, hfind t (known_mem_all t)]

theorem find?_eq_none_of_ne {name : String} (h : ∀ t : KnownType, name ≠ t.name) :
    KnownType.all.find? (fun t => t.name.toList == name.toList) = none := by
  refine List.find?_eq_none.mpr fun t _ heq => h t ?_
  exact (String.toList_inj.mp (eq_of_beq heq)).symm

/-- No known type has the name of a sequence type. -/
theorem elementsName_ne_name (kind : SequenceKind) (element : String) (t : KnownType) :
    elementsName kind element ≠ t.name := by
  intro heq
  have hbracket : '[' ∈ (elementsName kind element).toList := by
    rw [toList_elementsName]
    simp
  rw [heq] at hbracket
  exact bracket_not_mem_name t hbracket

/-- The name of a sequence type is read as that of sequences with these elements. -/
theorem ofText_elements (kind : SequenceKind) (element : String) :
    ofText (elementsName kind element) = elements kind (ofText element) := by
  have hinner : elementName? (elementsName kind element).toList = some (kind, element.toList) :=
    elementName?_eq_some_iff.mpr (toList_elementsName kind element)
  -- no known name has a bracket in it, so the name is read as one with a type for the elements
  rw [ofText, ofChars, find?_eq_none_of_ne (elementsName_ne_name kind element)]
  simp only
  split
  next k inner heq =>
    rw [hinner] at heq
    cases heq
    rfl
  next heq => rw [hinner] at heq; cases heq

/-- Any other name is read as the name of a type that every value has. -/
theorem ofText_other {name : String} (hknown : ∀ t : KnownType, name ≠ t.name)
    (helements : ∀ kind element, name ≠ elementsName kind element) : ofText name = other name := by
  rw [ofText, ofChars, find?_eq_none_of_ne hknown]
  simp only
  split
  next kind inner heq =>
    refine absurd (String.toList_inj.mp ?_) (helements kind (String.ofList inner))
    rw [toList_elementsName, String.toList_ofList]
    exact elementName?_eq_some_iff.mp heq
  next => rw [String.ofList_toList]

end SchemaType

/-- **Induction on the names of types.** -/
@[elab_as_elim]
theorem SchemaType.name_induction {motive : String → Prop} (known : ∀ t : KnownType, motive t.name)
    (elements : ∀ kind element, motive element → motive (elementsName kind element))
    (other : ∀ name, (∀ t : KnownType, name ≠ t.name) →
      (∀ kind element, name ≠ elementsName kind element) → motive name)
    (name : String) : motive name := by
  by_cases hknown : ∃ t : KnownType, name = t.name
  · obtain ⟨t, rfl⟩ := hknown
    exact known t
  by_cases helements : ∃ kind element, name = elementsName kind element
  · -- the induction is on the length: the inner name is shorter
    obtain ⟨kind, element, hname⟩ := helements
    have hshorter : element.length < name.length := by
      rw [hname, ← String.length_toList, ← String.length_toList, toList_elementsName]
      simp
      omega
    rw [hname]
    exact elements kind element (name_induction known elements other element)
  · exact other name (fun t h => hknown ⟨t, h⟩) fun kind element h => helements ⟨kind, element, h⟩
termination_by name.length
decreasing_by exact hshorter

/-- Reading the name of a type loses nothing. -/
theorem SchemaType.text_ofText (name : String) : (ofText name).text = name := by
  induction name using name_induction with
  | known t => rw [ofText_known]; rfl
  | elements kind element ih => rw [ofText_elements, text, ih]; rfl
  | other name hknown helements => rw [ofText_other hknown helements]; rfl

/-! ## Values of a type -/

/-- Whether a value has the type of a name: the known one, or that of sequences whose elements all
    have the type of the inner name.  Every value has the type of any other name. -/
inductive HasType : String → Value → Prop where
  | known (t : KnownType) {v : Value} (h : t.accepts v) : HasType t.name v
  | elements (kind : SequenceKind) {element : String} {items : List Value} {span : Span}
    (h : ∀ v ∈ items, HasType element v) :
    HasType (elementsName kind element) (.sequence kind items span)
  | other {name : String} {v : Value} (hknown : ∀ t : KnownType, name ≠ t.name)
    (helements : ∀ kind element, name ≠ elementsName kind element) : HasType name v

/-- What is found in a value, at the key `key`, that does not have the type of a name: the value
    itself is of another type, or it is a sequence, and its first element that does not have the type
    of the inner name is at fault. -/
inductive Mismatch : String → String → Value → Violation → Prop where
  | known (t : KnownType) {key : String} {v : Value} (h : t.accepts v = false) :
    Mismatch t.name key v (.typeMismatch key t.name v.typeName)
  | container (kind : SequenceKind) {element key : String} {v : Value}
    (h : (KnownType.sequence kind).accepts v = false) :
    Mismatch (elementsName kind element) key v
      (.typeMismatch key (elementsName kind element) v.typeName)
  | element (kind : SequenceKind) {element key : String} {before after : List Value} {v : Value}
    {span : Span} {violation : Violation} (hbefore : ∀ w ∈ before, HasType element w)
    (h : Mismatch element (key ++ "[]") v violation) :
    Mismatch (elementsName kind element) key (.sequence kind (before ++ v :: after) span) violation

/-! ### Known names -/

/-- Different known types have different names. -/
theorem KnownType.name_injective {t u : KnownType} (h : t.name = u.name) : t = u := by
  have hread := congrArg SchemaType.ofText h
  rw [SchemaType.ofText_known, SchemaType.ofText_known] at hread
  exact SchemaType.known.inj hread

/-- A value has a known type if that accepts it. -/
theorem hasType_known_iff {t : KnownType} {v : Value} : HasType t.name v ↔ t.accepts v := by
  refine ⟨fun h => ?_, .known t⟩
  generalize hname : t.name = name at h
  cases h with
  | known u h => rwa [KnownType.name_injective hname]
  | elements kind => exact absurd hname.symm (SchemaType.elementsName_ne_name kind _ t)
  | other hknown => exact absurd hname.symm (hknown t)

/-- What does not match a known type is refused with the name of its own. -/
theorem mismatch_known_iff {t : KnownType} {key : String} {v : Value} {violation : Violation} :
    Mismatch t.name key v violation ↔
      t.accepts v = false ∧ violation = .typeMismatch key t.name v.typeName := by
  constructor
  · intro h
    generalize hname : t.name = name at h ⊢
    cases h with
    | known u h =>
      rw [KnownType.name_injective hname]
      exact ⟨h, rfl⟩
    | container kind => exact absurd hname.symm (SchemaType.elementsName_ne_name kind _ t)
    | element kind => exact absurd hname.symm (SchemaType.elementsName_ne_name kind _ t)
  · rintro ⟨h, rfl⟩
    exact .known t h

/-! ### Names of sequences with typed elements -/

theorem elementsName_inj {kind k : SequenceKind} {element e : String}
    (h : elementsName kind element = elementsName k e) : kind = k ∧ element = e := by
  have hread : SchemaType.elementName? (elementsName kind element).toList
      = some (kind, element.toList) :=
    SchemaType.elementName?_eq_some_iff.mpr (SchemaType.toList_elementsName kind element)
  have hread' : SchemaType.elementName? (elementsName k e).toList = some (k, e.toList) :=
    SchemaType.elementName?_eq_some_iff.mpr (SchemaType.toList_elementsName k e)
  rw [h, hread'] at hread
  obtain ⟨hkind, hchars⟩ := Prod.mk.inj (Option.some.inj hread)
  exact ⟨hkind.symm, (String.toList_inj.mp hchars).symm⟩

/-- A value has a sequence type if it is such a sequence and all its elements have their type. -/
theorem hasType_elements_iff {kind : SequenceKind} {element : String} {v : Value} :
    HasType (elementsName kind element) v ↔
      ∃ items span, v = .sequence kind items span ∧ ∀ w ∈ items, HasType element w := by
  constructor
  · intro h
    generalize hname : elementsName kind element = name at h
    cases h with
    | known t => exact absurd hname (SchemaType.elementsName_ne_name kind element t)
    | elements k h =>
      obtain ⟨rfl, rfl⟩ := elementsName_inj hname
      exact ⟨_, _, rfl, h⟩
    | other _ helements => exact absurd hname.symm (helements kind element)
  · rintro ⟨items, span, rfl, h⟩
    exact .elements kind h

/-- What does not match a sequence type is no such sequence, or its first element that does not match is
    refused. -/
theorem mismatch_elements_iff {kind : SequenceKind} {element key : String} {v : Value}
    {violation : Violation} :
    Mismatch (elementsName kind element) key v violation ↔
      ((KnownType.sequence kind).accepts v = false ∧
        violation = .typeMismatch key (elementsName kind element) v.typeName) ∨
      ∃ before w after span, v = .sequence kind (before ++ w :: after) span ∧
        (∀ u ∈ before, HasType element u) ∧ Mismatch element (key ++ "[]") w violation := by
  constructor
  · intro h
    generalize hname : elementsName kind element = name at h ⊢
    cases h with
    | known t => exact absurd hname (SchemaType.elementsName_ne_name kind element t)
    | container k h =>
      obtain ⟨rfl, rfl⟩ := elementsName_inj hname
      exact .inl ⟨h, rfl⟩
    | element k hbefore h =>
      obtain ⟨rfl, rfl⟩ := elementsName_inj hname
      exact .inr ⟨_, _, _, _, rfl, hbefore, h⟩
  · rintro (⟨h, rfl⟩ | ⟨before, w, after, span, rfl, hbefore, h⟩)
    · exact .container kind h
    · exact .element kind hbefore h

/-! ## Checking -/

namespace SchemaType

/-- A sequence type accepts the sequences of its kind. -/
theorem accepts_sequence_iff {kind : SequenceKind} {v : Value} :
    (KnownType.sequence kind).accepts v ↔ ∃ items span, v = .sequence kind items span := by
  cases v with
  | sequence k items span =>
    simp only [KnownType.accepts, beq_iff_eq]
    constructor
    · rintro rfl
      exact ⟨items, span, rfl⟩
    · rintro ⟨_, _, h⟩
      cases h
      rfl
  | _ => simp [KnownType.accepts]

/-- Checking a sequence is checking its elements one after the other. -/
theorem check_sequence (kind : SequenceKind) (type : SchemaType) (key : String)
    (items : List Value) (span : Span) :
    (elements kind type).check key (.sequence kind items span)
      = items.forM (type.check (key ++ "[]")) := by
  simp [check]

/-- What is no sequence of the kind is refused. -/
theorem check_no_sequence {kind : SequenceKind} {type : SchemaType} {key : String} {v : Value}
    (h : (KnownType.sequence kind).accepts v = false) :
    (elements kind type).check key v
      = .error (.typeMismatch key (elements kind type).text v.typeName) := by
  unfold check
  split
  next k items span =>
    have hne : kind ≠ k := by simpa [KnownType.accepts] using h
    rw [if_neg hne]
  next => rfl

/-- **A value passes exactly if it has the type of the name.** -/
theorem check_eq_ok_iff {name key : String} {v : Value} :
    (ofText name).check key v = .ok () ↔ HasType name v := by
  induction name using name_induction generalizing key v with
  | known t =>
    rw [ofText_known, hasType_known_iff, check]
    split <;> simp [*]
  | elements kind element ih =>
    rw [ofText_elements, hasType_elements_iff]
    cases h : (KnownType.sequence kind).accepts v with
    | true =>
      obtain ⟨items, span, rfl⟩ := accepts_sequence_iff.mp h
      rw [check_sequence, forM_eq_ok]
      simp [ih]
    | false =>
      rw [check_no_sequence h]
      refine iff_of_false (fun h => by cases h) ?_
      rintro ⟨items, span, rfl, -⟩
      rw [accepts_sequence_iff.mpr ⟨items, span, rfl⟩] at h
      cases h
  -- a name that is neither known nor made of one is not checked at all
  | other name hknown helements =>
    rw [ofText_other hknown helements]
    exact ⟨fun _ => .other hknown helements, fun _ => rfl⟩

/-- **What the check finds** is what is wrong with the value. -/
theorem check_eq_error_iff {name key : String} {v : Value} {violation : Violation} :
    (ofText name).check key v = .error violation ↔ Mismatch name key v violation := by
  induction name using name_induction generalizing key v violation with
  | known t =>
    rw [ofText_known, mismatch_known_iff, check]
    split <;> simp [*, eq_comm]
  | elements kind element ih =>
    rw [ofText_elements, mismatch_elements_iff]
    cases h : (KnownType.sequence kind).accepts v with
    | true =>
      obtain ⟨items, span, rfl⟩ := accepts_sequence_iff.mp h
      rw [check_sequence, forM_eq_error]
      simp only [ih, check_eq_ok_iff, Value.sequence.injEq, true_and]
      constructor
      · rintro ⟨before, w, after, rfl, hbefore, hw⟩
        exact .inr ⟨before, w, after, span, ⟨rfl, rfl⟩, hbefore, hw⟩
      · rintro (⟨hno, -⟩ | ⟨before, w, after, _, ⟨rfl, rfl⟩, hbefore, hw⟩)
        · cases hno
        · exact ⟨before, w, after, rfl, hbefore, hw⟩
    | false =>
      rw [check_no_sequence h, text, text_ofText]
      constructor
      · intro herror
        exact .inl ⟨rfl, (Except.error.inj herror).symm⟩
      · rintro (⟨-, rfl⟩ | ⟨before, w, after, span, rfl, -⟩)
        · rfl
        · rw [accepts_sequence_iff.mpr ⟨_, span, rfl⟩] at h
          cases h
  | other name hknown helements =>
    -- every value passes, and no constructor of `Mismatch` has such a name
    rw [ofText_other hknown helements]
    refine iff_of_false (fun h => by cases h) fun h => ?_
    cases h with
    | known t => exact hknown t rfl
    | container kind => exact helements kind _ rfl
    | element kind => exact helements kind _ rfl

end SchemaType

end Yini
