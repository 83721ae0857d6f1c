import Yini.Proofs.Schema.Demand
import Yini.Proofs.Ybin.Cache

/-!
What it means that a document has been validated.

A document is valid exactly if it meets every demand of its schemas, and otherwise the fault is about
the first that it violates (`validate_exact`).  A fault does not undo what the demands before it have
filled in (`validateOrStop_error`).  Defaults are filled in as they are, and so to validate the result
again is to check them (`validate_again`).
-/

namespace Yini

open Demand

namespace Document

variable {d e r : Document} {f : Fault}

/-- Validating succeeds if all demands are checked successfully. -/
theorem validateOrStop_eq_ok : d.validateOrStop = .ok r ↔ d.demands.forM Demand.check d = .ok () r := by
  unfold validateOrStop demands
  rw [checkSchemas_eq]
  cases (demandsOf d.schemas.entries).forM Demand.check d <;> simp

/-- Validating fails with the fault of a demand, and leaves the document as that has left it. -/
theorem validateOrStop_eq_error :
    d.validateOrStop = .error (f, e) ↔ d.demands.forM Demand.check d = .error f e := by
  unfold validateOrStop demands
  rw [checkSchemas_eq]
  cases (demandsOf d.schemas.entries).forM Demand.check d <;> simp

/-- The result does not depend on what a fault would have left. -/
theorem validate_eq_ok : d.validate = .ok r ↔ d.validateOrStop = .ok r := by
  unfold validate
  cases d.validateOrStop <;> simp

/-- The fault does not depend on what it has left. -/
theorem validate_eq_error : d.validate = .error f ↔ ∃ e, d.validateOrStop = .error (f, e) := by
  unfold validate
  cases d.validateOrStop with
  | ok r => simp
  | error stop => simp [Prod.ext_iff]

/-- The demands of a document are about different properties. -/
theorem nodup_place_demands (d : Document) : (d.demands.map place).Nodup :=
  nodup_place_demandsOf d.schemas.nodup_keys

/-- What is left of a document after a fault. -/
theorem validateOrStop_eq_error_iff : d.validateOrStop = .error (f, e) ↔
    ∃ before c after, d.demands = before ++ c :: after ∧ (∀ b ∈ before, b.Met d) ∧ c.Violated d f ∧
      e = before.foldl fill d := by
  rw [validateOrStop_eq_error, forM_check_eq_error_iff d.nodup_place_demands]

/-- **A document is valid exactly if it meets all demands**, and then all of them are filled. -/
theorem validate_eq_ok_iff :
    d.validate = .ok r ↔ (∀ c ∈ d.demands, c.Met d) ∧ r = d.demands.foldl fill d := by
  rw [validate_eq_ok, validateOrStop_eq_ok, forM_check_eq_ok_iff d.nodup_place_demands]

/-- A valid document gets what its schemas fill in. -/
theorem filled_of_validate (h : d.validate = .ok r) : Filled d.demands d r := by
  obtain ⟨-, rfl⟩ := validate_eq_ok_iff.mp h
  exact filled_foldl_fill d.nodup_place_demands d

/-- **A document is valid exactly if it meets every demand of its schemas.**  Then it gets what they
    fill in, behind the properties that it has, and nothing else changes.  Otherwise the fault is how
    the document violates the first demand that it does not meet. -/
theorem validate_exact (d : Document) :
    ((∃ r, d.validate = .ok r) ↔ ∀ c ∈ d.demands, c.Met d) ∧
      (∀ r, d.validate = .ok r → Filled d.demands d r) ∧
      ∀ f, d.validate = .error f ↔ ∃ before c after, d.demands = before ++ c :: after ∧
        (∀ b ∈ before, b.Met d) ∧ ¬c.Met d ∧ c.Violated d f := by
  refine ⟨?_, fun r h => filled_of_validate h, fun f => ?_⟩
  · simp only [validate_eq_ok_iff, exists_and_left, exists_eq, and_true]
  · rw [validate_eq_error]
    simp only [validateOrStop_eq_error_iff]
    constructor
    · rintro ⟨_, before, c, after, hdemands, hbefore, hviolated, -⟩
      exact ⟨before, c, after, hdemands, hbefore, not_met_iff.mpr ⟨f, hviolated⟩, hviolated⟩
    · rintro ⟨before, c, after, hdemands, hbefore, -, hviolated⟩
      exact ⟨_, before, c, after, hdemands, hbefore, hviolated, rfl⟩

/-! ## After a fault -/

/-- **A fault leaves what the demands before it have filled in**, and nothing else changed.  So the
    document is as it was exactly if they fill in nothing. -/
theorem validateOrStop_error (h : d.validateOrStop = .error (f, e)) :
    ∃ before c after, d.demands = before ++ c :: after ∧ (∀ b ∈ before, b.Met d) ∧ ¬c.Met d ∧
      c.Violated d f ∧ Filled before d e ∧
      (e = d ↔ ∀ n s, d.sections.get? n = some s → fillings n s before = []) := by
  obtain ⟨before, c, after, hdemands, hbefore, hviolated, rfl⟩ := validateOrStop_eq_error_iff.mp h
  have hnodup : (before.map place).Nodup := by
    have hall := d.nodup_place_demands
    rw [hdemands, List.map_append] at hall
    exact (List.nodup_append.mp hall).1
  have hfilled := filled_foldl_fill hnodup d
  exact ⟨before, c, after, hdemands, hbefore, not_met_iff.mpr ⟨f, hviolated⟩, hviolated, hfilled,
    hfilled.eq_self_iff⟩

/-- A document with an empty section, whose rules fill in `a` and ask for `b`. -/
def halfFilled : Document where
  sections := .ofList [("C", { name := "C" })]
  schemas := .ofList [("C", {
    name := "C"
    properties := .ofList [
      ("a", .rule ⟨.optional, none, .fill⟩ (some (.atom (.int 1) .none)) none none .none),
      ("b", .rule ⟨.required, none, .ignore⟩ none none none .none)] })]

/-- A default is filled in before a later rule is violated. -/
theorem validateOrStop_error_halfFilled : ∃ f e, halfFilled.validateOrStop = .error (f, e) ∧
    ∃ before c after, halfFilled.demands = before ++ c :: after ∧ (∀ b ∈ before, b.Met halfFilled) ∧
      ¬c.Met halfFilled ∧ c.Violated halfFilled f ∧ Filled before halfFilled e ∧
      (e = halfFilled ↔ ∀ n s, halfFilled.sections.get? n = some s → fillings n s before = []) :=
  ⟨_, _, rfl, validateOrStop_error rfl⟩

/-- The section lacks `b`, and is left with `a`. -/
theorem halfFilled_changed : ∃ f e, halfFilled.validateOrStop = .error (f, e) ∧
    f = .validation (.missingProperty "b") "C" ∧ halfFilled.get? "C" "a" = none ∧
    e.get? "C" "a" = some (.atom (.int 1) .none) ∧ e ≠ halfFilled := by
  refine ⟨_, _, rfl, rfl, rfl, rfl, fun heq => ?_⟩
  have hget := congrArg (Document.get? · "C" "a") heq
  cases hget

/-! ## Validating the result -/

theorem demands_of_validate (h : d.validate = .ok r) : r.demands = d.demands := by
  rw [demands, demands, (filled_of_validate h).schemas]

variable {c : Demand}

/-- At the place of a demand, the result has what was there, or what the rule supplies. -/
theorem sections_of_validate (h : d.validate = .ok r) (hc : c ∈ d.demands) :
    d.sections.get? c.sectionName = none ∧ r.sections.get? c.sectionName = none ∨
      ∃ s t, d.sections.get? c.sectionName = some s ∧ r.sections.get? c.sectionName = some t ∧
        t.name = s.name ∧ t.properties.get? c.key = (s.properties.get? c.key).or c.rule.supply? := by
  obtain ⟨-, rfl⟩ := validate_eq_ok_iff.mp h
  rw [sections_foldl_fill]
  cases d.sections.get? c.sectionName with
  | none => exact .inl ⟨rfl, rfl⟩
  | some s =>
    refine .inr ⟨s, d.demands.foldl (supplied c.sectionName) s, rfl, rfl, ?_,
      get?_foldl_supplied d.nodup_place_demands hc s⟩
    obtain ⟨u, hu, -⟩ := foldl_supplied (n := c.sectionName) d.nodup_place_demands s
    rw [hu]

theorem fill_of_validate (h : d.validate = .ok r) (hc : c ∈ d.demands) : c.fill r = r := by
  rcases sections_of_validate h hc with ⟨-, hr⟩ | ⟨s, t, -, hr, -, hkey⟩
  · exact fill_of_missing hr
  · have hsupply : t.supply c.key c.rule = t := by
      cases hv : t.properties.get? c.key with
      | some v => exact Section.supply_of_some hv c.rule
      | none =>
        rw [hkey, Option.or_eq_none_iff] at hv
        rw [Section.supply, hv.2]
        split <;> simp_all
    rw [fill_of_present hr, hsupply, Table.insert_of_get? hr]

/-- The result meets a demand exactly if the default that was filled in for it is permitted. -/
theorem met_of_validate (h : d.validate = .ok r) (hc : c ∈ d.demands) :
    c.Met r ↔ ∀ v, c.property? d = none → c.property? r = some v → c.rule.Permits v := by
  have hmet := (validate_eq_ok_iff.mp h).1 c hc
  unfold Met at *
  rcases sections_of_validate h hc with ⟨hd, hr⟩ | ⟨s, t, hd, hr, -, hkey⟩
  · rw [hd] at hmet
    rw [hr, property?_of_missing hr]
    exact iff_of_true hmet fun v _ hv => by cases hv
  · rw [hd] at hmet
    rw [hr, property?_of_present hd, property?_of_present hr]
    simp only [hkey] at hmet ⊢
    cases hv : s.properties.get? c.key with
    | some v =>
      rw [hv] at hmet
      exact iff_of_true hmet fun _ hnone => by cases hnone
    | none =>
      rw [hv] at hmet
      cases hsupply : c.rule.supply? with
      | none => exact iff_of_true hmet fun _ _ hsome => by cases hsome
      | some v => exact ⟨fun h w _ hw => Option.some.inj hw ▸ h, fun h => h v rfl rfl⟩

/-- A property of the result was there and is permitted, or it is the default of its rule. -/
theorem property?_cases (h : d.validate = .ok r) (hc : c ∈ d.demands) {v : Value}
    (hv : c.property? r = some v) :
    c.property? d = some v ∧ c.rule.Permits v ∨ c.property? d = none ∧ c.rule.supply? = some v := by
  rcases sections_of_validate h hc with ⟨-, hr⟩ | ⟨s, t, hd, hr, -, hkey⟩
  · rw [property?_of_missing hr] at hv
    cases hv
  · rw [property?_of_present hr, hkey] at hv
    rw [property?_of_present hd]
    have hallows := (validate_eq_ok_iff.mp h).1 c hc
    rw [Met, hd] at hallows
    cases hw : s.properties.get? c.key with
    | some w =>
      simp only [hw] at hv hallows
      obtain rfl : w = v := Option.some.inj hv
      exact .inl ⟨rfl, hallows⟩
    | none => exact .inr ⟨rfl, by rwa [hw] at hv⟩

/-- What the result violates, it violates by a default that nobody has looked at. -/
theorem default_of_violated (h : d.validate = .ok r) (hc : c ∈ d.demands) {f : Fault}
    (hviolated : c.Violated r f) : ∃ s v violation,
      d.sections.get? c.sectionName = some s ∧ s.properties.get? c.key = none ∧
        c.rule.supply? = some v ∧ Violates c.rule c.key (some v) violation ∧
        f = .validation violation s.name := by
  have hnot := not_met_iff.mpr ⟨f, hviolated⟩
  simp only [met_of_validate h hc, not_forall] at hnot
  obtain ⟨v, hmissing, hfilled, -⟩ := hnot
  rcases sections_of_validate h hc with ⟨-, hr⟩ | ⟨s, t, hd, hr, hname, hkey⟩
  · rw [property?_of_missing hr] at hfilled
    cases hfilled
  · rw [property?_of_present hd] at hmissing
    rw [hmissing, Option.none_or] at hkey
    rw [property?_of_present hr, hkey] at hfilled
    rw [hfilled] at hkey
    cases hviolated with
    | «section» hnone => rw [hr] at hnone; cases hnone
    | property hs hviolates =>
      obtain rfl := Option.some.inj (hr.symm.trans hs)
      rw [hkey] at hviolates
      exact ⟨s, v, _, hd, hmissing, hfilled, hviolates, by rw [hname]⟩

/-- **To validate the result again is to check the defaults that were filled in.**  A property of the
    result was there and is permitted, or it is the default of its rule, which nobody has looked at.
    Nothing is filled in a second time; the result is valid exactly if the defaults are permitted, and
    otherwise the fault is about one that is not. -/
theorem validate_again (h : d.validate = .ok r) :
    (∀ c ∈ d.demands, ∀ v, c.property? r = some v →
      c.property? d = some v ∧ c.rule.Permits v ∨ c.property? d = none ∧ c.rule.supply? = some v) ∧
    (∀ r', r.validate = .ok r' ↔ r' = r ∧
      ∀ c ∈ d.demands, ∀ v, c.property? d = none → c.property? r = some v → c.rule.Permits v) ∧
    ∀ f e, r.validateOrStop = .error (f, e) → e = r ∧ ∃ c ∈ d.demands, ∃ s v violation,
      d.sections.get? c.sectionName = some s ∧ s.properties.get? c.key = none ∧
        c.rule.supply? = some v ∧ Violates c.rule c.key (some v) violation ∧
        f = .validation violation s.name := by
  refine ⟨fun c hc v hv => property?_cases h hc hv, fun r' => ?_, fun f e hstop => ?_⟩
  · rw [validate_eq_ok_iff, demands_of_validate h, and_comm,
      foldl_fill_eq_self fun c hc => fill_of_validate h hc]
    exact and_congr_right fun _ => forall₂_congr fun c hc => met_of_validate h hc
  · -- the demands before the violated one fill in nothing a second time
    obtain ⟨before, c, after, hdemands, -, hviolated, rfl⟩ := validateOrStop_eq_error_iff.mp hstop
    rw [demands_of_validate h] at hdemands
    have hbefore : ∀ b ∈ before, b.fill r = r := fun b hb =>
      fill_of_validate h (hdemands ▸ List.mem_append_left _ hb)
    have hc : c ∈ d.demands := hdemands ▸ List.mem_append_right _ List.mem_cons_self
    exact ⟨foldl_fill_eq_self hbefore, c, hc, default_of_violated h hc hviolated⟩

end Document

namespace Ybin

/-- A rule whose default is not of its type. -/
def wrongDefault : String := "[#schema]\n[C]\nx = ?, int, =\"a\"\n[#end_schema]\n[C]\n"

theorem validate_again_wrongDefault : ∃ d r,
    plainCompiler.compile wrongDefault = .ok d ∧ d.validate = .ok r ∧
    (∀ c ∈ d.demands, ∀ v, c.property? r = some v →
      c.property? d = some v ∧ c.rule.Permits v ∨ c.property? d = none ∧ c.rule.supply? = some v) ∧
    ∀ r', r.validate = .ok r' ↔ r' = r ∧
      ∀ c ∈ d.demands, ∀ v, c.property? d = none → c.property? r = some v → c.rule.Permits v := by
  have hok : ((plainCompiler.compile wrongDefault).toOption.bind fun d =>
      d.validate.toOption).isSome := by
    decide +kernel
  obtain ⟨r, hr⟩ := Option.isSome_iff_exists.mp hok
  obtain ⟨d, hd, hr⟩ := Option.bind_eq_some_iff.mp hr
  have hvalidate := eq_ok_of_toOption hr
  obtain ⟨hplaces, hagain, -⟩ := Document.validate_again hvalidate
  exact ⟨d, r, eq_ok_of_toOption hd, hvalidate, hplaces, hagain⟩

/-- The default of `x` comes in although it is no whole number, and so the result is not valid. -/
theorem wrongDefault_refused : ∃ d r v f, plainCompiler.compile wrongDefault = .ok d ∧
    d.validate = .ok r ∧ r.get? "C" "x" = some v ∧ ¬HasType "int" v ∧ r.validate = .error f := by
  have hvalues : ((plainCompiler.compile wrongDefault).toOption.bind fun d =>
      d.validate.toOption.bind fun r => (r.get? "C" "x").bind fun v => (fault? r.validate).map fun _ =>
        ((SchemaType.ofText "int").check "x" v).isOk) = some false := by
    decide +kernel
  obtain ⟨d, hd, hvalues⟩ := Option.bind_eq_some_iff.mp hvalues
  obtain ⟨r, hr, hvalues⟩ := Option.bind_eq_some_iff.mp hvalues
  obtain ⟨v, hv, hvalues⟩ := Option.bind_eq_some_iff.mp hvalues
  obtain ⟨f, hf, hcheck⟩ := Option.map_eq_some_iff.mp hvalues
  refine ⟨d, r, v, f, eq_ok_of_toOption hd, eq_ok_of_toOption hr, hv, fun htype => ?_,
    eq_error_of_fault? hf⟩
  rw [SchemaType.check_eq_ok_iff.mpr htype] at hcheck
  cases hcheck

end Ybin

end Yini
