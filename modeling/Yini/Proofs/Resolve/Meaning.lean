import Mathlib.Data.List.Forall2
import Yini.Proofs.Arithmetic
import Yini.Proofs.Value
import Yini.Resolve.Document

/-!
What an expression means, apart from the order in which a document is resolved.

`Value.meaning` evaluates an expression when it is known what every reference stands for.  It asks
for the references of the expression and for nothing else (`meaning_congr`), and a value without
references and operations means itself (`meaning_of_plain`).  What references stand for in a resolved
document is `Document.read`.  The expressions that stand in an expression are its parts (`Part`).
-/

namespace Yini

namespace Value

/-! ## References -/

mutual

/-- The references in a value, also those inside a rule.  The text of a deferred expression holds
    none. -/
def references : Value → List Reference
  | atom (.reference r) _ => [r]
  | atom _ _ => []
  | sequence _ items _ => itemReferences items
  | record _ fields _ => fieldReferences fields
  | binary l _ r _ => references l ++ references r
  | neg v _ => references v
  | rule _ d lo hi _ => optionReferences d ++ (optionReferences lo ++ optionReferences hi)
termination_by structural v => v

/-- The references in the values of a list. -/
def itemReferences : List Value → List Reference
  | [] => []
  | v :: vs => references v ++ itemReferences vs
termination_by structural vs => vs

/-- The references in the values of fields. -/
def fieldReferences : List (String × Value) → List Reference
  | [] => []
  | (_, v) :: fs => references v ++ fieldReferences fs
termination_by structural fs => fs

/-- The references in a value that may be absent. -/
def optionReferences : Option Value → List Reference
  | none => []
  | some v => references v
termination_by structural o => o

end

/-- The references of a list are those of its items. -/
theorem mem_itemReferences {vs : List Value} {r : Reference} :
    r ∈ itemReferences vs ↔ ∃ v ∈ vs, r ∈ v.references := by
  induction vs with
  | nil => simp [itemReferences]
  | cons v vs ih => simp [itemReferences, ih]

/-- The references of fields are those of their values. -/
theorem mem_fieldReferences {fs : Entries Value} {r : Reference} :
    r ∈ fieldReferences fs ↔ ∃ e ∈ fs, r ∈ e.2.references := by
  induction fs with
  | nil => simp [fieldReferences]
  | cons e fs ih => obtain ⟨k, v⟩ := e; simp [fieldReferences, ih]

theorem mem_optionReferences {o : Option Value} {r : Reference} :
    r ∈ optionReferences o ↔ ∃ v ∈ o, r ∈ v.references := by
  cases o <;> simp [optionReferences]

section Forall

/-! What holds of all references in an expression holds of those in each of its operands. -/

variable {P : Reference → Prop} {span : Span}

/-- What is true of the references in a sequence is true of those in its items. -/
theorem forall_references_sequence {k : SequenceKind} {items : List Value} :
    (∀ r ∈ (sequence k items span).references, P r) ↔ ∀ v ∈ items, ∀ r ∈ v.references, P r := by
  constructor
  · exact fun h v hv r hr => h r (mem_itemReferences.mpr ⟨v, hv, hr⟩)
  · intro h r hr
    obtain ⟨v, hv, hr⟩ := mem_itemReferences.mp hr
    exact h v hv r hr

/-- What is true of the references in a record is true of those in its values. -/
theorem forall_references_record {k : RecordKind} {fields : Entries Value} :
    (∀ r ∈ (record k fields span).references, P r) ↔ ∀ e ∈ fields, ∀ r ∈ e.2.references, P r := by
  constructor
  · exact fun h e he r hr => h r (mem_fieldReferences.mpr ⟨e, he, hr⟩)
  · intro h r hr
    obtain ⟨e, he, hr⟩ := mem_fieldReferences.mp hr
    exact h e he r hr

/-- What is true of the references in an operation is true of those in its operands. -/
theorem forall_references_binary {l v : Value} {op : BinaryOp} :
    (∀ r ∈ (binary l op v span).references, P r) ↔
      (∀ r ∈ l.references, P r) ∧ ∀ r ∈ v.references, P r :=
  List.forall_mem_append

/-- What is true of the references in a rule is true of those in its default and its bounds. -/
theorem forall_references_rule {m : RuleMarks} {d lo hi : Option Value} :
    (∀ r ∈ (rule m d lo hi span).references, P r) ↔ (∀ v ∈ d, ∀ r ∈ v.references, P r) ∧
      (∀ v ∈ lo, ∀ r ∈ v.references, P r) ∧ ∀ v ∈ hi, ∀ r ∈ v.references, P r := by
  have hpart : ∀ o : Option Value,
      (∀ r ∈ optionReferences o, P r) ↔ ∀ v ∈ o, ∀ r ∈ v.references, P r := by
    intro o
    cases o <;> simp [optionReferences]
  rw [references, List.forall_mem_append, List.forall_mem_append, hpart, hpart, hpart]

end Forall

/-! ## Parts -/

/-- Whether an expression stands in another one, at any depth; every expression stands in itself. -/
inductive Part (o : Value) : Value → Prop
  | self : Part o o
  | item {k items span v} (hv : v ∈ items) (h : Part o v) : Part o (sequence k items span)
  | field {k fields span e} (he : e ∈ fields) (h : Part o e.2) : Part o (record k fields span)
  | left {l op r span} (h : Part o l) : Part o (binary l op r span)
  | right {l op r span} (h : Part o r) : Part o (binary l op r span)
  | operand {v span} (h : Part o v) : Part o (neg v span)
  | fallback {m d lo hi span v} (hv : v ∈ d) (h : Part o v) : Part o (rule m d lo hi span)
  | least {m d lo hi span v} (hv : v ∈ lo) (h : Part o v) : Part o (rule m d lo hi span)
  | most {m d lo hi span v} (hv : v ∈ hi) (h : Part o v) : Part o (rule m d lo hi span)

/-- An expression refers to all that its parts refer to. -/
theorem Part.references_subset {o v : Value} (h : Part o v) : o.references ⊆ v.references := by
  induction h with
  | self => exact List.Subset.refl _
  | item hv _ ih => exact fun r hr => mem_itemReferences.mpr ⟨_, hv, ih hr⟩
  | field he _ ih => exact fun r hr => mem_fieldReferences.mpr ⟨_, he, ih hr⟩
  | left _ ih => exact fun r hr => List.mem_append_left _ (ih hr)
  | right _ ih => exact fun r hr => List.mem_append_right _ (ih hr)
  | operand _ ih => exact ih
  | fallback hv _ ih =>
    exact fun r hr => List.mem_append_left _ (mem_optionReferences.mpr ⟨_, hv, ih hr⟩)
  | least hv _ ih =>
    refine fun r hr => List.mem_append_right _ (List.mem_append_left _ ?_)
    exact mem_optionReferences.mpr ⟨_, hv, ih hr⟩
  | most hv _ ih =>
    refine fun r hr => List.mem_append_right _ (List.mem_append_right _ ?_)
    exact mem_optionReferences.mpr ⟨_, hv, ih hr⟩

/-- A part of a part is a part. -/
theorem Part.trans {o v w : Value} (h : Part o v) (h' : Part v w) : Part o w := by
  induction h' with
  | self => exact h
  | item hv _ ih => exact .item hv ih
  | field he _ ih => exact .field he ih
  | left _ ih => exact .left ih
  | right _ ih => exact .right ih
  | operand _ ih => exact .operand ih
  | fallback hv _ ih => exact .fallback hv ih
  | least hv _ ih => exact .least hv ih
  | most hv _ ih => exact .most hv ih

/-! ## Plain values -/

mutual

/-- Whether no reference and no operation is left in the value, not even inside a rule. -/
def plain : Value → Bool
  | atom (.reference _) _ => false
  | atom _ _ => true
  | sequence _ items _ => allPlain items
  | record _ fields _ => allFieldsPlain fields
  | binary .. => false
  | neg .. => false
  | rule _ d lo hi _ => optionPlain d && (optionPlain lo && optionPlain hi)
termination_by structural v => v

/-- Whether every value of a list is plain. -/
def allPlain : List Value → Bool
  | [] => true
  | v :: vs => plain v && allPlain vs
termination_by structural vs => vs

/-- Whether the value of every field is plain. -/
def allFieldsPlain : List (String × Value) → Bool
  | [] => true
  | (_, v) :: fs => plain v && allFieldsPlain fs
termination_by structural fs => fs

/-- Whether a value that may be absent is plain. -/
def optionPlain : Option Value → Bool
  | none => true
  | some v => plain v
termination_by structural o => o

end

/-- A list is plain if all its items are. -/
theorem allPlain_iff {vs : List Value} : allPlain vs ↔ ∀ v ∈ vs, v.plain := by
  induction vs with
  | nil => simp [allPlain]
  | cons v vs ih => simp [allPlain, ih]

/-- Fields are plain if all their values are. -/
theorem allFieldsPlain_iff {fs : Entries Value} : allFieldsPlain fs ↔ ∀ e ∈ fs, e.2.plain := by
  induction fs with
  | nil => simp [allFieldsPlain]
  | cons e fs ih => obtain ⟨k, v⟩ := e; simp [allFieldsPlain, ih]

theorem optionPlain_iff {o : Option Value} : optionPlain o ↔ ∀ v ∈ o, v.plain := by
  cases o <;> simp [optionPlain]

@[simp] theorem plain_withSpan (v : Value) (s : Span) : (v.withSpan s).plain = v.plain := by
  cases v with
  | atom a _ => cases a <;> rfl
  | _ => rfl

/-- The result of an operation is plain. -/
theorem plain_of_isResult {a : Atom} (h : a.isResult) (s : Span) : (atom a s).plain := by
  cases a <;> first | rfl | cases h

/-- A plain value holds no reference. -/
theorem references_of_plain (v : Value) (h : v.plain) : v.references = [] := by
  induction v using Value.induction with
  | atom a span => cases a <;> first | rfl | cases h
  | sequence k items span ih =>
    rw [plain, allPlain_iff] at h
    refine List.eq_nil_iff_forall_not_mem.mpr fun r hr => ?_
    obtain ⟨v, hv, hr⟩ := mem_itemReferences.mp hr
    rw [ih v hv (h v hv)] at hr
    exact List.not_mem_nil hr
  | record k fields span ih =>
    rw [plain, allFieldsPlain_iff] at h
    refine List.eq_nil_iff_forall_not_mem.mpr fun r hr => ?_
    obtain ⟨e, he, hr⟩ := mem_fieldReferences.mp hr
    rw [ih e he (h e he)] at hr
    exact List.not_mem_nil hr
  | binary l op r span _ _ => cases h
  | neg v span _ => cases h
  | rule m d lo hi span ihd ihlo ihhi =>
    simp only [plain, Bool.and_eq_true, optionPlain_iff] at h
    have hempty : ∀ o : Option Value, (∀ v ∈ o, v.plain → v.references = []) →
        (∀ v ∈ o, v.plain) → optionReferences o = [] := by
      intro o ih h
      cases o with
      | none => rfl
      | some v => exact ih v rfl (h v rfl)
    rw [references, hempty d ihd h.1, hempty lo ihlo h.2.1, hempty hi ihhi h.2.2]
    rfl

/-! ## Meaning -/

mutual

/-- The value of an expression, when `read` tells what every reference stands for.  Operations are
    carried out from the left, and the first fault is the fault of the whole. -/
def meaning (read : Reference → Span → Except Fault Value) : Value → Except Fault Value
  | atom (.reference r) span => read r span
  | atom a span => .ok (.atom a span)
  | sequence k items span => do return .sequence k (← itemMeanings read items) span
  | record k fields span => do return .record k (← fieldMeanings read fields) span
  | binary l op r span => do
    let l ← meaning read l
    let r ← meaning read r
    l.combine op r span
  | neg v span => do
    let v ← meaning read v
    v.opposite span
  | rule m d lo hi span => do
    let d ← optionMeaning read d
    let lo ← optionMeaning read lo
    let hi ← optionMeaning read hi
    return .rule m d lo hi span
termination_by structural v => v

/-- The values of the expressions of a list. -/
def itemMeanings (read : Reference → Span → Except Fault Value) :
    List Value → Except Fault (List Value)
  | [] => .ok []
  | v :: vs => do
    let v ← meaning read v
    let vs ← itemMeanings read vs
    return v :: vs
termination_by structural vs => vs

/-- Fields with the values of their expressions. -/
def fieldMeanings (read : Reference → Span → Except Fault Value) :
    List (String × Value) → Except Fault (List (String × Value))
  | [] => .ok []
  | (k, v) :: fs => do
    let v ← meaning read v
    let fs ← fieldMeanings read fs
    return (k, v) :: fs
termination_by structural fs => fs

/-- The value of an expression that may be absent. -/
def optionMeaning (read : Reference → Span → Except Fault Value) :
    Option Value → Except Fault (Option Value)
  | none => .ok none
  | some v => do return some (← meaning read v)
termination_by structural o => o

end

section

variable {read read' : Reference → Span → Except Fault Value}

/-- Two readings give a list the same meaning if they give the same to each item. -/
theorem itemMeanings_congr {vs : List Value} (h : ∀ v ∈ vs, v.meaning read = v.meaning read') :
    itemMeanings read vs = itemMeanings read' vs := by
  induction vs with
  | nil => rfl
  | cons v vs ih =>
    rw [itemMeanings, itemMeanings, h v List.mem_cons_self,
      ih fun w hw => h w (List.mem_cons_of_mem _ hw)]

/-- Two readings give fields the same meaning if they give the same to each value. -/
theorem fieldMeanings_congr {fs : Entries Value}
    (h : ∀ e ∈ fs, e.2.meaning read = e.2.meaning read') :
    fieldMeanings read fs = fieldMeanings read' fs := by
  induction fs with
  | nil => rfl
  | cons e fs ih =>
    obtain ⟨k, v⟩ := e
    rw [fieldMeanings, fieldMeanings, h (k, v) List.mem_cons_self,
      ih fun f hf => h f (List.mem_cons_of_mem _ hf)]

theorem optionMeaning_congr {o : Option Value} (h : ∀ v ∈ o, v.meaning read = v.meaning read') :
    optionMeaning read o = optionMeaning read' o := by
  cases o with
  | none => rfl
  | some v => rw [optionMeaning, optionMeaning, h v rfl]

/-- **The meaning of an expression depends on its references only.** -/
theorem meaning_congr (v : Value) (h : ∀ r ∈ v.references, ∀ span, read r span = read' r span) :
    v.meaning read = v.meaning read' := by
  induction v using Value.induction with
  | atom a span =>
    cases a with
    | reference r => exact h r List.mem_cons_self span
    | _ => rfl
  | sequence k items span ih =>
    have hitems := forall_references_sequence.mp h
    rw [meaning, meaning, itemMeanings_congr fun v hv => ih v hv (hitems v hv)]
  | record k fields span ih =>
    have hfields := forall_references_record.mp h
    rw [meaning, meaning, fieldMeanings_congr fun e he => ih e he (hfields e he)]
  | binary l op r span ihl ihr =>
    obtain ⟨hl, hr⟩ := forall_references_binary.mp h
    rw [meaning, meaning, ihl hl, ihr hr]
  | neg v span ih => rw [meaning, meaning, ih h]
  | rule m d lo hi span ihd ihlo ihhi =>
    obtain ⟨hd, hlo, hhi⟩ := forall_references_rule.mp h
    rw [meaning, meaning, optionMeaning_congr fun v hv => ihd v hv (hd v hv),
      optionMeaning_congr fun v hv => ihlo v hv (hlo v hv),
      optionMeaning_congr fun v hv => ihhi v hv (hhi v hv)]

/-- **A list means what its items mean**, one by one. -/
theorem itemMeanings_of_forall {vs ws : List Value}
    (h : List.Forall₂ (fun v w => v.meaning read = .ok w) vs ws) :
    itemMeanings read vs = .ok ws := by
  induction h with
  | nil => rfl
  | cons h _ ih => rw [itemMeanings, h, ih]; rfl

/-- Fields mean what their values mean, under the same names. -/
theorem fieldMeanings_of_forall {fs gs : Entries Value}
    (h : List.Forall₂ (fun e f => f.1 = e.1 ∧ e.2.meaning read = .ok f.2) fs gs) :
    fieldMeanings read fs = .ok gs := by
  induction h with
  | nil => rfl
  | @cons e f _ _ h _ ih =>
    obtain ⟨k, v⟩ := e
    obtain ⟨l, w⟩ := f
    obtain ⟨rfl, h⟩ := h
    simp only at h
    rw [fieldMeanings, h, ih]
    rfl

/-- **A plain value means itself**, whatever references stand for. -/
theorem meaning_of_plain (v : Value) (h : v.plain) : v.meaning read = .ok v := by
  -- a default or a bound that is missing is passed over by both
  have hself : ∀ o : Option Value, (∀ v ∈ o, v.plain → v.meaning read = .ok v) →
      (∀ v ∈ o, v.plain) → optionMeaning read o = .ok o := by
    intro o ih h
    cases o with
    | none => rfl
    | some v => rw [optionMeaning, ih v rfl (h v rfl)]; rfl
  induction v using Value.induction with
  | atom a span => cases a <;> first | rfl | cases h
  | sequence k items span ih =>
    rw [plain, allPlain_iff] at h
    rw [meaning, itemMeanings_of_forall (List.forall₂_same.mpr fun v hv => ih v hv (h v hv))]
    rfl
  | record k fields span ih =>
    rw [plain, allFieldsPlain_iff] at h
    have hfields := fieldMeanings_of_forall
      (List.forall₂_same.mpr fun e he => ⟨rfl, ih e he (h e he)⟩)
    rw [meaning, hfields]
    rfl
  | binary l op r span _ _ => cases h
  | neg v span _ => cases h
  | rule m d lo hi span ihd ihlo ihhi =>
    simp only [plain, Bool.and_eq_true, optionPlain_iff] at h
    rw [meaning, hself d ihd h.1, hself lo ihlo h.2.1, hself hi ihhi h.2.2]
    rfl

end

end Value

/-! ## Reading from a document -/

/-- What a reference stands for in a document: the value of the macro or of the property, the text of
    the environment variable or the localized text, at the position of the reference. -/
def Document.read (p : Providers) (d : Document) (r : Reference) (span : Span) :
    Except Fault Value :=
  match r.kind with
  | .macroName =>
    match d.macros.get? r.target with
    | some v => .ok (v.withSpan span)
    | none => .error (.compile (.macroMissing r.target) (some span))
  | .environment => p.environment r.target span
  | .localization => .ok (p.localized r.target span)
  | .crossSection =>
    match r.sectionKey? with
    | none => .error (.compile (.badTarget r.target) (some span))
    | some (name, key) =>
      match d.get? name key with
      | some v => .ok (v.withSpan span)
      | none => .error (.compile (.targetMissing r.target) (some span))

/-- Whether the reference stands for something, wherever it stands itself. -/
def Document.Reads (p : Providers) (d : Document) (r : Reference) : Prop :=
  ∀ span, ∃ v, d.read p r span = .ok v

/-- Where a reference stands does not decide whether it stands for something. -/
theorem Document.reads_of_read {p : Providers} {d : Document} {r : Reference} {span : Span}
    {v : Value} (h : d.read p r span = .ok v) : d.Reads p r := by
  intro span'
  obtain ⟨kind, target⟩ := r
  cases kind with
  | localization => exact ⟨_, rfl⟩
  | environment =>
    simp only [read, Providers.environment] at h ⊢
    split at h
    next => exact ⟨_, rfl⟩
    next => exact ⟨_, rfl⟩
    next => cases h
  | macroName =>
    simp only [read] at h ⊢
    split at h
    next => exact ⟨_, rfl⟩
    next => cases h
  | crossSection =>
    simp only [read] at h ⊢
    split at h
    next => cases h
    next =>
      split at h
      next => exact ⟨_, rfl⟩
      next => cases h

end Yini
