import Yini.Proofs.Number.Order
import Yini.Proofs.Schema.TypeName
import Yini.Proofs.Table
import Yini.Schema.Check

/-!
What a rule of a schema asks of a property.

A rule permits a value that has its type and is within its bounds (`Value.Permits`), or it permits that
the property is missing (`Value.PermitsAbsence`); `Violates` says how it is violated otherwise.  Bounds are
about exact numbers: integers and floats are compared by their values (`Extended.Below`).
Checking a section finds out exactly this, and brings in what the rule fills in
(`Section.checkRule_eq_ok_iff`, `Section.checkRule_eq_error_iff`).
-/

namespace Yini

/-! ## Numbers -/

/-- Whether a value is a number, and which: integers are, and floats, even those that stand for no number. -/
inductive Value.IsNumber : Value → Extended → Prop where
  | int (n : Int32) (span : Span) : IsNumber (.atom (.int n) span) (.ofInt n.toInt)
  | float (x : Binary32) (span : Span) : IsNumber (.atom (.float x) span) x.toExtended

/-- **What counts as a number**: integers and floats. -/
theorem Value.number?_eq_some_iff {v : Value} {x : Extended} : v.number? = some x ↔ v.IsNumber x := by
  constructor
  · intro h
    unfold number? at h
    split at h
    next n span => cases h; exact .int n span
    next y span => cases h; exact .float y span
    next => cases h
  · rintro (⟨n, span⟩ | ⟨y, span⟩) <;> rfl

/-- Whether a rule has a bound, and which number that is.  Bounds that are no numbers do not count. -/
def IsBound (bound : Option Value) (x : Extended) : Prop := ∃ v, bound = some v ∧ v.IsNumber x

theorem bind_number?_eq_some_iff {bound : Option Value} {x : Extended} :
    bound.bind Value.number? = some x ↔ IsBound bound x := by
  simp only [Option.bind_eq_some_iff, Value.number?_eq_some_iff, IsBound]

/-! ## Rules -/

/-- Whether a value, if it is a number, is within the bounds of a rule. -/
structure InRange (lower upper : Option Value) (v : Value) : Prop where
  lower : ∀ x lo, v.IsNumber x → IsBound lower lo → ¬x.Below lo
  upper : ∀ x hi, v.IsNumber x → IsBound upper hi → ¬hi.Below x

/-- How a number is out of the bounds of a rule, at the key `key`; the lower bound is looked at
    first. -/
inductive OutOfRange (lower upper : Option Value) (key : String) (v : Value) : Violation → Prop where
  | below {x lo : Extended} (hx : v.IsNumber x) (hlo : IsBound lower lo) (h : x.Below lo) :
    OutOfRange lower upper key v (.belowMinimum key x lo)
  | above {x hi : Extended} (hx : v.IsNumber x) (hhi : IsBound upper hi) (h : hi.Below x)
    (hlower : ∀ lo, IsBound lower lo → ¬x.Below lo) :
    OutOfRange lower upper key v (.aboveMaximum key x hi)

namespace Value

/-- Whether a rule permits a property to have a value: one of the type, within the bounds. -/
def Permits : Value → Value → Prop
  | rule m _ lower upper _, v =>
    (∀ name, m.typeName = some name → HasType name v) ∧ InRange lower upper v
  | _, _ => True

/-- Whether a rule permits that the property is missing. -/
def PermitsAbsence : Value → Prop
  | rule m fallback _ _ _ =>
    ¬(m.requirement = .required ∧ fallback = none) ∧
      ¬(m.requirement = .optional ∧ m.whenEmpty = .refuse)
  | _ => True

/-- Whether a value is a rule for a property that must be there, with a default or without one. -/
inductive IsRequired : Value → Prop where
  | rule {m : RuleMarks} {fallback lower upper : Option Value} {span : Span} (h : m.requirement = .required) :
    IsRequired (.rule m fallback lower upper span)

/-- **What must be there** is what a required rule is for. -/
theorem isRequiredRule_iff {v : Value} : v.isRequiredRule ↔ v.IsRequired := by
  constructor
  · intro h
    unfold isRequiredRule at h
    split at h
    next => exact .rule (eq_of_beq h)
    next => cases h
  · rintro ⟨h⟩
    exact beq_iff_eq.mpr h

theorem isRequiredRule_eq_false_iff {v : Value} : v.isRequiredRule = false ↔ ¬v.IsRequired := by
  rw [← isRequiredRule_iff, Bool.not_eq_true]

/-- Whether a rule permits what there is of a property. -/
def Allows (rule : Value) : Option Value → Prop
  | some v => rule.Permits v
  | none => rule.PermitsAbsence

/-- The value that a rule fills in for a property that is missing: its default, if the property is
    required or to be filled. -/
def supply? : Value → Option Value
  | rule m (some v) _ _ _ =>
    if m.requirement = .required ∨ m.whenEmpty = .fill then some v else none
  | _ => none

end Value

/-- How a rule is violated by what there is of the property `key`. -/
inductive Violates : Value → String → Option Value → Violation → Prop where
  | type {m : RuleMarks} {fallback lower upper : Option Value} {span : Span} {name key : String}
    {v : Value} {violation : Violation} (hname : m.typeName = some name)
    (h : Mismatch name key v violation) :
    Violates (.rule m fallback lower upper span) key (some v) violation
  | range {m : RuleMarks} {fallback lower upper : Option Value} {span : Span} {key : String}
    {v : Value} {violation : Violation} (htype : ∀ name, m.typeName = some name → HasType name v)
    (h : OutOfRange lower upper key v violation) :
    Violates (.rule m fallback lower upper span) key (some v) violation
  | missing {m : RuleMarks} {lower upper : Option Value} {span : Span} {key : String}
    (h : m.requirement = .required) :
    Violates (.rule m none lower upper span) key none (.missingProperty key)
  | empty {m : RuleMarks} {fallback lower upper : Option Value} {span : Span} {key : String}
    (h : m.requirement = .optional) (hempty : m.whenEmpty = .refuse) :
    Violates (.rule m fallback lower upper span) key none (.emptyProperty key)

/-! ### Bounds -/

section Range

variable {key : String} {v : Value} {lower upper : Option Value} {x : Extended}

theorem checkRange_of_no_number (hx : v.number? = none) : checkRange key v lower upper = .ok () := by
  rw [checkRange, hx]
  rfl

/-- A number below the lower bound is refused for that. -/
theorem checkRange_of_below {lo : Extended} (hx : v.IsNumber x) (hlo : IsBound lower lo) (h : x.Below lo) :
    checkRange key v lower upper = .error (.belowMinimum key x lo) := by
  rw [checkRange, Value.number?_eq_some_iff.mpr hx]
  simp only [bind_number?_eq_some_iff.mpr hlo, Extended.less_iff.mpr h]
  rfl

/-- Above the lower bound only the upper one is looked at. -/
theorem checkRange_of_not_below (hx : v.IsNumber x) (hlower : ∀ lo, IsBound lower lo → ¬x.Below lo) :
    checkRange key v lower upper =
      match upper.bind Value.number? with
      | some hi => if hi.less x then .error (.aboveMaximum key x hi) else .ok ()
      | none => .ok () := by
  rw [checkRange, Value.number?_eq_some_iff.mpr hx]
  cases hlo : lower.bind Value.number? with
  | none => cases upper.bind Value.number? <;> rfl
  | some lo =>
    have hless := Extended.less_eq_false_iff.mpr (hlower lo (bind_number?_eq_some_iff.mp hlo))
    simp only [hless]
    cases upper.bind Value.number? <;> rfl

/-- A value has at most one number. -/
theorem Value.IsNumber.unique {y : Extended} (hx : v.IsNumber x) (hy : v.IsNumber y) : x = y :=
  Option.some.inj ((number?_eq_some_iff.mpr hx).symm.trans (number?_eq_some_iff.mpr hy))

/-- **The bounds are checked successfully** exactly if the value is in range. -/
theorem checkRange_eq_ok_iff : checkRange key v lower upper = .ok () ↔ InRange lower upper v := by
  cases hv : v.number? with
  | none =>
    have hnone : ∀ x, ¬v.IsNumber x := fun x hx => by
      rw [Value.number?_eq_some_iff.mpr hx] at hv
      cases hv
    rw [checkRange_of_no_number hv]
    exact iff_of_true rfl ⟨fun x _ hx => absurd hx (hnone x), fun x _ hx => absurd hx (hnone x)⟩
  | some x =>
    have hx := Value.number?_eq_some_iff.mp hv
    by_cases hlower : ∀ lo, IsBound lower lo → ¬x.Below lo
    · rw [checkRange_of_not_below hx hlower]
      constructor
      · intro h
        refine ⟨fun y lo hy => hx.unique hy ▸ hlower lo, fun y hi hy hhi => ?_⟩
        simp only [bind_number?_eq_some_iff.mpr hhi] at h
        rw [← hx.unique hy, ← Extended.less_eq_false_iff]
        simpa using h
      · intro h
        split
        next hi hhi =>
          have hless := Extended.less_eq_false_iff.mpr (h.upper x hi hx (bind_number?_eq_some_iff.mp hhi))
          rw [hless]
          rfl
        next => rfl
    · push Not at hlower
      obtain ⟨lo, hlo, hbelow⟩ := hlower
      rw [checkRange_of_below hx hlo hbelow]
      exact iff_of_false nofun fun h => h.lower x lo hx hlo hbelow

/-- **The check of the bounds fails** exactly as the number is out of range. -/
theorem checkRange_eq_error_iff {violation : Violation} :
    checkRange key v lower upper = .error violation ↔ OutOfRange lower upper key v violation := by
  constructor
  · intro h
    cases hv : v.number? with
    | none =>
      rw [checkRange_of_no_number hv] at h
      cases h
    | some x =>
      have hx := Value.number?_eq_some_iff.mp hv
      by_cases hlower : ∀ lo, IsBound lower lo → ¬x.Below lo
      · rw [checkRange_of_not_below hx hlower] at h
        split at h
        next hi hhi =>
          split at h
          next hless =>
            cases h
            exact .above hx (bind_number?_eq_some_iff.mp hhi) (Extended.less_iff.mp hless) hlower
          next => cases h
        next => cases h
      · push Not at hlower
        obtain ⟨lo, hlo, hbelow⟩ := hlower
        rw [checkRange_of_below hx hlo hbelow] at h
        cases h
        exact .below hx hlo hbelow
  · rintro (⟨hx, hlo, h⟩ | ⟨hx, hhi, h, hlower⟩)
    · exact checkRange_of_below hx hlo h
    · rw [checkRange_of_not_below hx hlower]
      simp only [bind_number?_eq_some_iff.mpr hhi, Extended.less_iff.mpr h, if_true]

end Range

/-! ### Properties that are there -/

section Property

variable {s t : Section} {key : String} {rule v : Value} {violation : Violation}

/-- Checks a value against the type of a rule, if it names one. -/
def checkType (key : String) (v : Value) : Option String → Except Violation Unit
  | some name => (SchemaType.ofText name).check key v
  | none => .ok ()

/-- The type is checked successfully exactly if the value has it. -/
theorem checkType_eq_ok_iff {typeName : Option String} :
    checkType key v typeName = .ok () ↔ ∀ name, typeName = some name → HasType name v := by
  cases typeName with
  | none => exact iff_of_true rfl fun _ h => by cases h
  | some name => simp [checkType, SchemaType.check_eq_ok_iff]

/-- The check of the type fails exactly as the value does not match it. -/
theorem checkType_eq_error_iff {typeName : Option String} :
    checkType key v typeName = .error violation ↔
      ∃ name, typeName = some name ∧ Mismatch name key v violation := by
  cases typeName with
  | none => simp [checkType]
  | some name => simp [checkType, SchemaType.check_eq_error_iff]

/-- Checks a value against the type and the bounds of a rule. -/
def checkValue (key : String) (v : Value) (m : RuleMarks) (lower upper : Option Value) :
    Except Violation Unit := do
  checkType key v m.typeName
  checkRange key v lower upper

/-- A value that is there passes exactly if the rule permits it. -/
theorem checkValue_eq_ok_iff {m : RuleMarks} {lower upper : Option Value} (fallback : Option Value)
    (span : Span) :
    checkValue key v m lower upper = .ok () ↔ (Value.rule m fallback lower upper span).Permits v := by
  unfold checkValue
  rw [except_bind_eq_ok]
  constructor
  · rintro ⟨_, htype, hrange⟩
    exact ⟨checkType_eq_ok_iff.mp htype, checkRange_eq_ok_iff.mp hrange⟩
  · rintro ⟨htype, hrange⟩
    exact ⟨(), checkType_eq_ok_iff.mpr htype, checkRange_eq_ok_iff.mpr hrange⟩

/-- A value that is there fails exactly as it violates the rule. -/
theorem checkValue_eq_error_iff {m : RuleMarks} {lower upper : Option Value} (fallback : Option Value)
    (span : Span) :
    checkValue key v m lower upper = .error violation ↔
      Violates (.rule m fallback lower upper span) key (some v) violation := by
  unfold checkValue
  rw [except_bind_eq_error]
  simp only [checkType_eq_error_iff, checkRange_eq_error_iff]
  constructor
  · rintro (⟨name, hname, h⟩ | ⟨_, htype, h⟩)
    · exact .type hname h
    · exact .range (checkType_eq_ok_iff.mp htype) h
  · intro h
    cases h with
    | type hname h => exact .inl ⟨_, hname, h⟩
    | range htype h => exact .inr ⟨(), checkType_eq_ok_iff.mpr htype, h⟩

/-! ### Properties that are missing -/

/-- A missing value passes exactly if the rule permits that, and then what the rule supplies is filled in. -/
theorem fillMissing_eq_ok_iff {m : RuleMarks} {fallback o : Option Value} (lower upper : Option Value)
    (span : Span) :
    fillMissing key m fallback = .ok o ↔
      (Value.rule m fallback lower upper span).PermitsAbsence ∧
        o = (Value.rule m fallback lower upper span).supply? := by
  obtain ⟨requirement, typeName, whenEmpty⟩ := m
  cases requirement <;> cases fallback <;> cases whenEmpty <;>
    simp [fillMissing, Value.PermitsAbsence, Value.supply?, eq_comm]

/-- A missing value fails exactly as it violates the rule. -/
theorem fillMissing_eq_error_iff {m : RuleMarks} {fallback : Option Value} (lower upper : Option Value)
    (span : Span) :
    fillMissing key m fallback = .error violation ↔
      Violates (.rule m fallback lower upper span) key none violation := by
  constructor
  · obtain ⟨requirement, typeName, whenEmpty⟩ := m
    intro h
    cases requirement <;> cases fallback <;> cases whenEmpty <;> cases h
    all_goals first | exact .missing rfl | exact .empty rfl rfl
  · intro h
    cases h with
    | missing h =>
      unfold fillMissing
      rw [h]
    | empty h hempty =>
      unfold fillMissing
      rw [h, hempty]
      cases fallback <;> rfl

/-- The section with what a rule fills in for the property `key`. -/
def Section.supply (key : String) (rule : Value) (s : Section) : Section :=
  match s.properties.get? key, rule.supply? with
  | none, some v => { s with properties := s.properties.insert key v }
  | _, _ => s

/-- Nothing is filled in for a property that is there. -/
theorem Section.supply_of_some (h : s.properties.get? key = some v) (rule : Value) :
    s.supply key rule = s := by
  rw [supply, h]

/-- What is filled in does not change the name of the section. -/
theorem Section.name_supply (key : String) (rule : Value) (s : Section) :
    (s.supply key rule).name = s.name := by
  unfold supply
  split <;> rfl

theorem Section.get?_supply_of_ne {k : String} (h : key ≠ k) (rule : Value) (s : Section) :
    (s.supply key rule).properties.get? k = s.properties.get? k := by
  unfold supply
  split
  · exact Table.get?_insert_of_ne _ h _
  · rfl

/-- The property is what it was, or if it was missing what its rule supplies. -/
theorem Section.get?_supply_self (key : String) (rule : Value) (s : Section) :
    (s.supply key rule).properties.get? key = (s.properties.get? key).or rule.supply? := by
  unfold supply
  split
  next v hkey hsupply => rw [hkey, hsupply]; exact Table.get?_insert_self _ _ _
  next hnone =>
    cases hkey : s.properties.get? key with
    | some v => rfl
    | none =>
      cases hsupply : rule.supply? with
      | none => rfl
      | some v => exact absurd hsupply (hnone v hkey)

theorem Section.checkRule_of_present {m : RuleMarks} {fallback lower upper : Option Value}
    {span : Span} (h : s.properties.get? key = some v) :
    s.checkRule key (.rule m fallback lower upper span)
      = checkValue key v m lower upper >>= fun _ => .ok s := by
  unfold checkRule checkValue
  simp only [h]
  rw [bind_assoc]
  cases m.typeName <;> rfl

/-- A rule fills in the value that is missing, or refuses. -/
theorem Section.checkRule_of_missing {m : RuleMarks} {fallback lower upper : Option Value}
    {span : Span} (h : s.properties.get? key = none) :
    s.checkRule key (.rule m fallback lower upper span)
      = fillMissing key m fallback >>= fun
        | some v => .ok { s with properties := s.properties.insert key v }
        | none => .ok s := by
  unfold checkRule
  simp only [h]
  rcases fillMissing key m fallback with _ | (_ | _) <;> rfl

/-- **A section passes a rule exactly if the rule allows what there is of the property**, and what the
    rule supplies comes in. -/
theorem Section.checkRule_eq_ok_iff :
    s.checkRule key rule = .ok t ↔
      rule.Allows (s.properties.get? key) ∧ t = s.supply key rule := by
  cases rule with
  | rule m fallback lower upper span =>
    cases hv : s.properties.get? key with
    | some v =>
      rw [checkRule_of_present hv, except_bind_eq_ok, supply_of_some hv]
      simp only [checkValue_eq_ok_iff fallback span, Except.ok.injEq]
      exact ⟨fun ⟨_, h, heq⟩ => ⟨h, heq.symm⟩, fun ⟨h, heq⟩ => ⟨(), h, heq.symm⟩⟩
    | none =>
      rw [checkRule_of_missing hv, except_bind_eq_ok, supply, hv]
      simp only [fillMissing_eq_ok_iff lower upper span, and_assoc,
        exists_and_left, exists_eq_left]
      refine and_congr_right fun _ => ?_
      cases Value.supply? (.rule m fallback lower upper span) <;> simp [eq_comm]
  | _ =>
    simp only [checkRule]
    cases hv : s.properties.get? key <;>
      simp [Value.Allows, Value.Permits, Value.PermitsAbsence, supply, Value.supply?, hv, eq_comm]

/-- **A section fails a rule exactly if what there is of the property violates the rule.** -/
theorem Section.checkRule_eq_error_iff :
    s.checkRule key rule = .error violation ↔ Violates rule key (s.properties.get? key) violation := by
  cases rule with
  | rule m fallback lower upper span =>
    cases hv : s.properties.get? key with
    | some v =>
      rw [checkRule_of_present hv, except_bind_eq_error,
        checkValue_eq_error_iff fallback span]
      simp
    | none =>
      -- what is filled in is not checked, so only the missing value itself can be at fault
      rw [checkRule_of_missing hv, except_bind_eq_error,
        fillMissing_eq_error_iff lower upper span]
      refine ⟨fun h => h.resolve_right ?_, .inl⟩
      rintro ⟨o, -, h⟩
      cases o <;> cases h
  | _ => exact iff_of_false (fun h => by cases h) fun h => by cases h

end Property

end Yini
