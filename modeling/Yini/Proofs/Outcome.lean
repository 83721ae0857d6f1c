/-!
How a computation of several steps ends.  A step that fails ends the whole; if the whole succeeds, so
did every step.  One pair of lemmas takes computations with faults apart (`except_bind_eq_ok`,
`except_bind_eq_error`) and one pair computations that carry a state as well (`bind_eq_ok`,
`bind_eq_error`), so that the definitions of the binds are opened here and nowhere else.
-/

namespace Yini

variable {ε σ α β : Type}

/-! ## Computations with faults -/

/-- Two steps succeed exactly if the first does and the second does with its outcome. -/
theorem except_bind_eq_ok {x : Except ε α} {f : α → Except ε β} {b : β} :
    (x >>= f) = .ok b ↔ ∃ a, x = .ok a ∧ f a = .ok b := by
  cases x with
  | error e =>
    refine ⟨fun h => (by cases h), ?_⟩
    rintro ⟨_, h, _⟩
    cases h
  | ok a => exact ⟨fun h => ⟨a, rfl, h⟩, fun ⟨_, h, hf⟩ => by cases h; exact hf⟩

/-- Two steps fail exactly if the first does, or the second with the outcome of the first. -/
theorem except_bind_eq_error {x : Except ε α} {f : α → Except ε β} {e : ε} :
    (x >>= f) = .error e ↔ x = .error e ∨ ∃ a, x = .ok a ∧ f a = .error e := by
  cases x with
  | error e' =>
    show Except.error e' = Except.error e ↔ _
    refine ⟨fun h => .inl (by cases h; rfl), fun h => ?_⟩
    rcases h with h | ⟨_, h, _⟩
    · cases h; rfl
    · cases h
  | ok a =>
    refine ⟨fun h => .inr ⟨a, rfl, h⟩, fun h => ?_⟩
    rcases h with h | ⟨_, h, hf⟩
    · cases h
    · cases h; exact hf

/-- All steps of a list succeed exactly if each one does. -/
theorem forM_eq_ok {f : α → Except ε Unit} {as : List α} :
    as.forM f = .ok () ↔ ∀ a ∈ as, f a = .ok () := by
  induction as with
  | nil => exact ⟨fun _ _ h => absurd h List.not_mem_nil, fun _ => rfl⟩
  | cons a as ih =>
    show (f a >>= fun _ => as.forM f) = _ ↔ _
    rw [except_bind_eq_ok, List.forall_mem_cons]
    simp only [ih]
    exact ⟨fun ⟨_, h, hrest⟩ => ⟨h, hrest⟩, fun ⟨h, hrest⟩ => ⟨(), h, hrest⟩⟩

/-- The steps of a list fail exactly if one fails after those before it have succeeded. -/
theorem forM_eq_error {f : α → Except ε Unit} {as : List α} {e : ε} :
    as.forM f = .error e ↔ ∃ before a after, as = before ++ a :: after ∧
      (∀ b ∈ before, f b = .ok ()) ∧ f a = .error e := by
  induction as with
  | nil =>
    refine ⟨fun h => (by cases h), ?_⟩
    rintro ⟨before, a, after, h, -⟩
    cases before <;> cases h
  | cons a as ih =>
    show (f a >>= fun _ => as.forM f) = _ ↔ _
    rw [except_bind_eq_error]
    constructor
    · rintro (h | ⟨_, h, hrest⟩)
      · exact ⟨[], a, as, rfl, fun _ hb => absurd hb List.not_mem_nil, h⟩
      · obtain ⟨before, b, after, rfl, hbefore, hb⟩ := ih.mp hrest
        exact ⟨a :: before, b, after, rfl, List.forall_mem_cons.mpr ⟨h, hbefore⟩, hb⟩
    · -- if none comes before it, it is the first step that fails
      rintro ⟨before, b, after, heq, hbefore, hb⟩
      cases before with
      | nil =>
        cases heq
        exact .inl hb
      | cons c before =>
        cases heq
        obtain ⟨hc, hbefore⟩ := List.forall_mem_cons.mp hbefore
        exact .inr ⟨(), hc, ih.mpr ⟨before, b, after, rfl, hbefore, hb⟩⟩

/-- The fault of a computation that fails. -/
def fault? : Except ε α → Option ε
  | .ok _ => none
  | .error e => some e

theorem eq_error_of_fault? {x : Except ε α} {e : ε} (h : fault? x = some e) : x = .error e := by
  cases x with
  | ok a => cases h
  | error e' => rw [Option.some.inj h]

theorem eq_ok_of_toOption {x : Except ε α} {a : α} (h : x.toOption = some a) : x = .ok a := by
  cases x with
  | error e => cases h
  | ok b => rw [Option.some.inj h]

/-! ## Computations with faults and a state that a fault loses -/

/-- Two steps succeed exactly if both do, and the second starts in the state that the first ends in. -/
theorem stateT_bind_eq_ok {x : StateT σ (Except ε) α} {f : α → StateT σ (Except ε) β} {s s' : σ}
    {b : β} : (x >>= f) s = .ok (b, s') ↔ ∃ a t, x s = .ok (a, t) ∧ f a t = .ok (b, s') := by
  show (x s >>= fun r => f r.1 r.2) = _ ↔ _
  rw [except_bind_eq_ok]
  exact ⟨fun ⟨⟨a, t⟩, h, hf⟩ => ⟨a, t, h, hf⟩, fun ⟨a, t, h, hf⟩ => ⟨(a, t), h, hf⟩⟩

/-- A step without a state leaves the state as it is. -/
theorem stateT_lift_eq_ok {x : Except ε α} {s s' : σ} {a : α} :
    (liftM x : StateT σ (Except ε) α) s = .ok (a, s') ↔ x = .ok a ∧ s = s' := by
  show (x >>= fun a => Except.ok (a, s)) = _ ↔ _
  rw [except_bind_eq_ok]
  refine ⟨?_, fun ⟨h, hs⟩ => ⟨a, h, by rw [hs]⟩⟩
  rintro ⟨b, h, hb⟩
  obtain ⟨rfl, rfl⟩ := Prod.mk.inj (Except.ok.inj hb)
  exact ⟨h, rfl⟩

/-- Steps that do the same, and rests that do the same after what the step can give. -/
theorem stateT_bind_congr {x y : StateT σ (Except ε) α} {f g : α → StateT σ (Except ε) β} {s : σ}
    (h : x s = y s) (hf : ∀ a t, x s = .ok (a, t) → f a t = g a t) :
    (x >>= f) s = (y >>= g) s := by
  show (x s >>= fun r => f r.1 r.2) = (y s >>= fun r => g r.1 r.2)
  rw [← h]
  cases hx : x s with
  | error e => rfl
  | ok r => exact hf r.1 r.2 (by rw [hx])

/-! ## Computations with faults and a state -/

/-- Two steps succeed exactly if both do, and the second starts in the state that the first ends in. -/
theorem bind_eq_ok {x : EStateM ε σ α} {f : α → EStateM ε σ β} {s s' : σ} {b : β} :
    (x >>= f) s = .ok b s' ↔ ∃ a t, x s = .ok a t ∧ f a t = .ok b s' := by
  show EStateM.bind x f s = _ ↔ _
  unfold EStateM.bind
  cases x s with
  | error e t =>
    refine ⟨fun h => (by cases h), ?_⟩
    rintro ⟨_, _, h, _⟩
    cases h
  | ok a t => exact ⟨fun h => ⟨a, t, rfl, h⟩, fun ⟨_, _, h, hf⟩ => by cases h; exact hf⟩

/-- Looking at the state leaves it as it is. -/
theorem get_bind (f : σ → EStateM ε σ β) (s : σ) : (get >>= f) s = f s s := rfl

/-- After a step that succeeds comes the rest, in the state that the step leaves. -/
theorem bind_of_ok {x : EStateM ε σ α} {f : α → EStateM ε σ β} {s t : σ} {a : α}
    (h : x s = .ok a t) : (x >>= f) s = f a t := by
  show EStateM.bind x f s = _
  rw [EStateM.bind, h]

/-- Two steps fail exactly if the first does, or the second in the state that the first ends in. -/
theorem bind_eq_error {x : EStateM ε σ α} {f : α → EStateM ε σ β} {s s' : σ} {e : ε} :
    (x >>= f) s = .error e s' ↔
      x s = .error e s' ∨ ∃ a t, x s = .ok a t ∧ f a t = .error e s' := by
  show EStateM.bind x f s = _ ↔ _
  unfold EStateM.bind
  cases x s with
  | error e' t =>
    refine ⟨fun h => .inl (by cases h; rfl), fun h => ?_⟩
    rcases h with h | ⟨_, _, h, _⟩
    · cases h; rfl
    · cases h
  | ok a t =>
    refine ⟨fun h => .inr ⟨a, t, rfl, h⟩, fun h => ?_⟩
    rcases h with h | ⟨_, _, h, hf⟩
    · cases h
    · cases h; exact hf

end Yini
