import Yini.Dyna.Machine
import Yini.Dyna.Tree
import Yini.Proofs.Arithmetic
import Yini.Proofs.Outcome
import Yini.Proofs.Value

/-!
Lowering is correct: running the program of an expression gives what evaluating the expression on its
tree gives, the value with all its places or the fault with all its data.

A program is lowered by adding to it, so the machine is watched at the points where a part `q` of the
whole program `p` ends (`Program.resume p c q`).  **The key statement** says that the machine, started
where `q` ends, comes to where the program with an expression added ends, with the value of the
expression on the stack (`resume_lower`).  It holds on every stack and under every later code.

Main statements:

* `Program.Extends` — what it means that a program goes on with another one.
* `resume_emit`, `resume_emitWith`, `resume_emitPush` — one instruction.
* `resume_atom`, `resume_sequence`, `resume_record`, `resume_binary`, `resume_neg` — what the
  instruction of each form of expression does to the stack.
* `resume_lower`, `resume_lowerItems`, `resume_lowerFields` — expressions.
* `run_ofValue` — the whole program, and where a fault with code 508 can come from.
-/

namespace Yini

namespace Program

/-! ## Programs that go on with another one -/

/-- The program `p` goes on with `q`: constants, code and places of `q` stand at the front of those of
    `p`, and the places behind them belong to instructions behind the code of `q`. -/
structure Extends (p q : Program) : Prop where
  constants : q.constants.toList <+: p.constants.toList
  code : q.code.toList <+: p.code.toList
  spans : q.spans.toList <+: p.spans.toList
  later : ∀ e ∈ p.spans.toList.drop q.spans.size, q.code.size ≤ e.1

theorem Extends.refl (p : Program) : p.Extends p where
  constants := List.prefix_rfl
  code := List.prefix_rfl
  spans := List.prefix_rfl
  later := by
    intro e he
    rw [List.drop_of_length_le (by simp)] at he
    exact absurd he List.not_mem_nil

theorem Extends.trans {p q r : Program} (hpq : p.Extends q) (hqr : q.Extends r) : p.Extends r where
  constants := hqr.constants.trans hpq.constants
  code := hqr.code.trans hpq.code
  spans := hqr.spans.trans hpq.spans
  later := by
    intro e he
    obtain ⟨new, hnew⟩ := hqr.spans
    obtain ⟨rest, hrest⟩ := hpq.spans
    have hlen : q.spans.size = r.spans.size + new.length := by
      rw [← Array.length_toList, ← hnew, List.length_append, Array.length_toList]
    rw [← hrest, ← hnew, List.append_assoc, List.drop_left' (Array.length_toList)] at he
    rcases List.mem_append.mp he with he | he
    · -- a place that `q` added to `r`
      refine hqr.later e ?_
      rwa [← hnew, List.drop_left' (Array.length_toList)]
    · -- a place behind `q`
      have hle : r.code.size ≤ q.code.size := by
        rw [← Array.length_toList, ← Array.length_toList]
        exact hqr.code.length_le
      refine Nat.le_trans hle (hpq.later e ?_)
      rwa [← hrest, List.drop_left' (Array.length_toList)]

theorem extends_emit (p : Program) (o : Opcode) (span : Span) : (p.emit o span).Extends p where
  constants := List.prefix_rfl
  code := by simp [emit]
  spans := by simp [emit]
  later := by simp [emit]

/-- A program goes on with an instruction and its operand. -/
theorem extends_emitWith (p : Program) (o : Opcode) (n : UInt16) (span : Span) :
    (p.emitWith o n span).Extends p where
  constants := List.prefix_rfl
  code := by simp [emitWith, emit, List.append_assoc]
  spans := by simp [emitWith, emit]
  later := by simp [emitWith, emit]

/-- Pushing a constant adds the constant and its instruction. -/
theorem emitPush_ok {p q : Program} {k : Push} {v : Value} (h : p.emitPush k v = .ok q) :
    p.constants.size ≤ maxOperand ∧
      q = { p with constants := p.constants.push v }.emitWith (.push k) p.constants.size.toUInt16
        v.span := by
  unfold emitPush operand at h
  by_cases hsize : p.constants.size ≤ maxOperand
  · rw [if_pos hsize] at h
    exact ⟨hsize, (Except.ok.inj h).symm⟩
  · rw [if_neg hsize] at h
    cases h

/-- An operand that fits is the number itself. -/
theorem operand_ok {n : Nat} {span : Span} {m : UInt16} (h : operand n span = .ok m) :
    m.toNat = n := by
  unfold operand at h
  split at h
  · rename_i hle
    cases h
    simp only [maxOperand] at hle
    exact Nat.mod_eq_of_lt (by omega)
  · cases h

/-- A program goes on with an instruction that pushes. -/
theorem extends_emitPush {p q : Program} {k : Push} {v : Value} (h : p.emitPush k v = .ok q) :
    q.Extends p := by
  obtain ⟨-, rfl⟩ := emitPush_ok h
  refine (extends_emitWith _ _ _ _).trans ⟨?_, List.prefix_rfl, List.prefix_rfl, ?_⟩
  · simp
  · intro e he
    rw [List.drop_of_length_le (by simp)] at he
    exact absurd he List.not_mem_nil

/-! ## The machine between two parts of a program -/

/-- What is left of the run of `p` once the machine stands where `q` ends. -/
def resume (p : Program) (c : Context) (q : Program) (stack : List Value) : Except Fault Value :=
  p.exec c (p.code.toList.drop q.code.size)
    ⟨q.code.size, p.spans.toList.drop q.spans.size, stack⟩

/-- What a list goes on with, behind a front of known length. -/
theorem drop_of_append_isPrefix {α : Type} (front new : List α) {whole : List α}
    (h : front ++ new <+: whole) :
    whole.drop front.length = new ++ whole.drop (front ++ new).length := by
  obtain ⟨rest, rfl⟩ := h
  rw [List.append_assoc, List.drop_left, ← List.append_assoc, List.drop_left]

/-- Behind `q`, the code is what `r` adds to it, and then what `p` adds to `r`. -/
theorem Extends.drop_code {p q r : Program} (hp : p.Extends r) {new : List UInt8}
    (hr : r.code.toList = q.code.toList ++ new) :
    p.code.toList.drop q.code.size = new ++ p.code.toList.drop r.code.size := by
  have hcode := hp.code
  rw [hr] at hcode
  have h := drop_of_append_isPrefix q.code.toList new hcode
  rwa [← hr, Array.length_toList, Array.length_toList] at h

/-- The places go on in the same way. -/
theorem Extends.drop_spans {p q r : Program} (hp : p.Extends r) {new : List (Nat × Span)}
    (hr : r.spans.toList = q.spans.toList ++ new) :
    p.spans.toList.drop q.spans.size = new ++ p.spans.toList.drop r.spans.size := by
  have hspans := hp.spans
  rw [hr] at hspans
  have h := drop_of_append_isPrefix q.spans.toList new hspans
  rwa [← hr, Array.length_toList, Array.length_toList] at h

/-- The places behind an instruction are still there after it. -/
theorem dropWhile_later {spans : List (Nat × Span)} {n : Nat} (h : ∀ e ∈ spans, n ≤ e.1) :
    spans.dropWhile (·.1 < n) = spans := by
  cases spans with
  | nil => rfl
  | cons e spans =>
    have : n ≤ e.1 := h e List.mem_cons_self
    rw [List.dropWhile_cons_of_neg (by simpa using this)]

/-- The two bytes of an operand give it back. -/
theorem operand_bytes (n : UInt16) :
    (n % 256).toUInt8.toNat + 256 * (n / 256).toUInt8.toNat = n.toNat := by
  have hlt : n.toNat < 65536 := n.toNat_lt
  simp only [UInt16.toNat_toUInt8, UInt16.toNat_mod, UInt16.toNat_div, UInt16.reduceToNat]
  omega

section Steps

variable {p q : Program} {o : Opcode} {n : UInt16} {span : Span}

/-- The machine in front of the instruction that comes after `q`, when that instruction has the place
    `span` and `later` are the places behind it. -/
def State.before (q : Program) (span : Span) (later : List (Nat × Span)) (stack : List Value) :
    State :=
  ⟨q.code.size, (q.code.size, span) :: later, stack⟩

/-- The place of the instruction that has been taken. -/
theorem State.span_before (q : Program) (span : Span) (later : List (Nat × Span))
    (stack : List Value) : (State.before q span later stack).span = span := by
  simp [State.before, State.span]

/-- Behind an instruction, its place is used up. -/
theorem State.advance_before {later : List (Nat × Span)} {width : Nat}
    (h : ∀ e ∈ later, q.code.size + width ≤ e.1) (hwidth : 0 < width) (stack rest : List Value) :
    (State.before q span later stack).advance width rest = ⟨q.code.size + width, later, rest⟩ := by
  have hpos : q.code.size < q.code.size + width := by omega
  show State.mk (q.code.size + width)
    (((q.code.size, span) :: later).dropWhile (·.1 < q.code.size + width)) rest = _
  rw [List.dropWhile_cons_of_pos (by simpa using hpos), dropWhile_later h]

/-- An instruction without operand is carried out, and the run goes on behind it. -/
theorem exec_plain (ho : o.hasOperand = false) (hne : o ≠ .halt) (c : Context) (code : List UInt8)
    (s : State) :
    p.exec c (o.byte :: code) s =
      match p.perform c s o 0 with
      | .ok (v, rest) => p.exec c code (s.advance 1 (v :: rest))
      | .error fault => .error fault := by
  rw [exec.eq_def]
  simp only [Opcode.ofByte?_byte]
  cases o with
  | halt => exact absurd rfl hne
  | push k => cases ho
  | sequence k => cases ho
  | record k => cases ho
  | binary op => rfl
  | neg => rfl

/-- An instruction with its operand is carried out, and the run goes on behind both. -/
theorem exec_operand (ho : o.hasOperand = true) (c : Context) (lo hi : UInt8) (code : List UInt8)
    (s : State) :
    p.exec c (o.byte :: lo :: hi :: code) s =
      match p.perform c s o (lo.toNat + 256 * hi.toNat) with
      | .ok (v, rest) => p.exec c code (s.advance 3 (v :: rest))
      | .error fault => .error fault := by
  rw [exec.eq_def]
  simp only [Opcode.ofByte?_byte]
  cases o with
  | halt => cases ho
  | binary op => cases ho
  | neg => cases ho
  | _ k => rfl

/-- One instruction without operand. -/
theorem resume_emit (hp : p.Extends (q.emit o span)) (ho : o.hasOperand = false) (hne : o ≠ .halt)
    (c : Context) (stack : List Value) :
    ∃ later, p.resume c q stack =
      match p.perform c (State.before q span later stack) o 0 with
      | .ok (v, rest) => p.resume c (q.emit o span) (v :: rest)
      | .error fault => .error fault := by
  have hsize : (q.emit o span).code.size = q.code.size + 1 := by simp [emit]
  have hcode : p.code.toList.drop q.code.size = [o.byte] ++ _ := hp.drop_code (by simp [emit])
  have hspans : p.spans.toList.drop q.spans.size = [(q.code.size, span)] ++ _ :=
    hp.drop_spans (by simp [emit])
  have hlater := hp.later
  rw [hsize] at hlater
  refine ⟨p.spans.toList.drop (q.emit o span).spans.size, ?_⟩
  simp only [List.cons_append, List.nil_append] at hcode hspans
  unfold resume
  rw [hcode, hspans]
  refine (exec_plain ho hne c _ (State.before q span _ stack)).trans ?_
  cases p.perform c (State.before q span _ stack) o 0 with
  | error fault => rfl
  | ok e =>
    obtain ⟨v, rest⟩ := e
    simp only [State.advance_before hlater Nat.one_pos, hsize]

/-- One instruction with its operand. -/
theorem resume_emitWith (hp : p.Extends (q.emitWith o n span)) (ho : o.hasOperand = true)
    (c : Context) (stack : List Value) :
    ∃ later, p.resume c q stack =
      match p.perform c (State.before q span later stack) o n.toNat with
      | .ok (v, rest) => p.resume c (q.emitWith o n span) (v :: rest)
      | .error fault => .error fault := by
  have hsize : (q.emitWith o n span).code.size = q.code.size + 3 := by simp [emitWith, emit]
  have hcode : p.code.toList.drop q.code.size
      = [o.byte, (n % 256).toUInt8, (n / 256).toUInt8] ++ _ :=
    hp.drop_code (by simp [emitWith, emit])
  have hspans : p.spans.toList.drop q.spans.size = [(q.code.size, span)] ++ _ :=
    hp.drop_spans (by simp [emitWith, emit])
  have hlater := hp.later
  rw [hsize] at hlater
  refine ⟨p.spans.toList.drop (q.emitWith o n span).spans.size, ?_⟩
  simp only [List.cons_append, List.nil_append] at hcode hspans
  unfold resume
  rw [hcode, hspans]
  refine (exec_operand ho c _ _ _ (State.before q span _ stack)).trans ?_
  rw [operand_bytes]
  cases p.perform c (State.before q span _ stack) o n.toNat with
  | error fault => rfl
  | ok e =>
    obtain ⟨v, rest⟩ := e
    simp only [State.advance_before hlater (by omega : 0 < 3), hsize]

/-- One instruction that pushes a constant: the constant is where the operand says. -/
theorem resume_emitPush {k : Push} {v : Value} {r : Program} (hr : q.emitPush k v = .ok r)
    (hp : p.Extends r) (c : Context) (stack : List Value) :
    p.constants[q.constants.size]? = some v ∧
    ∃ later, p.resume c q stack =
      match p.perform c (State.before q v.span later stack) (.push k) q.constants.size with
      | .ok (w, rest) => p.resume c r (w :: rest)
      | .error fault => .error fault := by
  obtain ⟨hsize, rfl⟩ := emitPush_ok hr
  have hindex : q.constants.size.toUInt16.toNat = q.constants.size := by
    simp only [maxOperand] at hsize
    exact Nat.mod_eq_of_lt (by omega)
  constructor
  · obtain ⟨rest, hrest⟩ := hp.constants
    rw [← Array.getElem?_toList, ← hrest]
    simp [emitWith, emit]
  · obtain ⟨later, h⟩ := resume_emitWith hp rfl c stack
    rw [hindex] at h
    exact ⟨later, h⟩

end Steps

/-! ## Expressions -/

section Expressions

variable {p : Program} (c : Context)

/-- An atom pushes its value. -/
theorem resume_atom {a : Atom} {span : Span} {q r : Program}
    (hr : q.emitPush (pushOf a) (.atom a span) = .ok r) (hp : p.Extends r) (stack : List Value) :
    p.resume c q stack = (Value.atom a span).evaluate c >>= fun w => p.resume c r (w :: stack) := by
  obtain ⟨hconst, later, h⟩ := resume_emitPush hr hp c stack
  rw [h]
  cases a with
  | reference ref =>
    simp only [pushOf, perform, hconst, Value.evaluate]
    cases c.reference ref <;> rfl
  | _ =>
    simp only [pushOf, perform, hconst, Value.evaluate]
    rfl

/-- The name of a field is pushed as it is. -/
theorem resume_name {k : String} {span : Span} {q r : Program}
    (hr : q.emitPush .string (.atom (.string k) span) = .ok r) (hp : p.Extends r)
    (stack : List Value) :
    p.resume c q stack = p.resume c r (.atom (.string k) span :: stack) := by
  obtain ⟨hconst, later, h⟩ := resume_emitPush hr hp c stack
  rw [h]
  simp only [perform, hconst]
  rfl

/-- The names and the values of fields, as they are pushed. -/
def flatten (span : Span) (fields : List (String × Value)) : List Value :=
  fields.flatMap fun (k, v) => [.atom (.string k) span, v]

/-- Every field has a name and a value on the stack. -/
theorem length_flatten (span : Span) (fields : List (String × Value)) :
    (flatten span fields).length = 2 * fields.length := by
  induction fields with
  | nil => rfl
  | cons e fields ih =>
    simp only [flatten, List.flatMap_cons, List.length_append, List.length_cons] at ih ⊢
    simp only [ih, List.length_nil]
    omega

/-- Pairing names and values up again gives the fields back, as long as no name occurs twice. -/
theorem pairUp_flatten (span : Span) (new : Entries Value) :
    ∀ old : Entries Value, (Entries.keys (old ++ new)).Nodup →
      pairUp (flatten span new) old = some (old ++ new) := by
  induction new with
  | nil => intro old _; simp [flatten, pairUp]
  | cons e new ih =>
    obtain ⟨k, v⟩ := e
    intro old hnodup
    -- the name is new, so its field comes to stand behind the old ones
    have hk : k ∉ Entries.keys old := by
      intro hmem
      simp only [Entries.keys, List.map_append, List.map_cons] at hnodup hmem
      exact (List.nodup_append.mp hnodup).2.2 k hmem k List.mem_cons_self rfl
    have hassoc : old.insert k v ++ new = old ++ (k, v) :: new := by
      rw [Entries.insert_of_not_mem hk, List.append_assoc, List.singleton_append]
    show pairUp (flatten span new) (old.insert k v) = _
    rw [ih (old.insert k v) (by rwa [hassoc]), hassoc]

/-- What was pushed last comes off the stack as one piece. -/
theorem take?_append (s : State) (pushed rest : List Value)
    (h : s.stack = pushed.reverse ++ rest) : s.take? pushed.length = some (pushed, rest) := by
  unfold State.take?
  rw [h, if_neg (by simp), List.take_left' (by simp), List.drop_left' (by simp),
    List.reverse_reverse]

/-- The instruction of a sequence takes its items off the stack. -/
theorem resume_sequence {k : SequenceKind} {span : Span} {n : UInt16} {q : Program}
    {items : List Value} (hn : items.length = n.toNat)
    (hp : p.Extends (q.emitWith (.sequence k) n span)) (stack : List Value) :
    p.resume c q (items.reverse ++ stack) =
      p.resume c (q.emitWith (.sequence k) n span) (.sequence k items span :: stack) := by
  obtain ⟨later, hstep⟩ := resume_emitWith hp rfl c (items.reverse ++ stack)
  have htake := take?_append (State.before q span later (items.reverse ++ stack)) items stack rfl
  rw [hn] at htake
  simp only [perform, htake, State.span_before] at hstep
  exact hstep

/-- The instruction of a record takes two values off the stack for each field, its name and its
    value. -/
theorem resume_record {k : RecordKind} {span : Span} {n : UInt16} {q : Program}
    {fields : Entries Value} (hn : fields.length = n.toNat) (hnodup : fields.keys.Nodup)
    (hp : p.Extends (q.emitWith (.record k) n span)) (stack : List Value) :
    p.resume c q ((flatten span fields).reverse ++ stack) =
      p.resume c (q.emitWith (.record k) n span) (.record k fields span :: stack) := by
  obtain ⟨later, hstep⟩ := resume_emitWith hp rfl c ((flatten span fields).reverse ++ stack)
  have htake := take?_append (State.before q span later ((flatten span fields).reverse ++ stack))
    (flatten span fields) stack rfl
  have hpair : pairUp (flatten span fields) [] = some fields :=
    pairUp_flatten span fields [] hnodup
  rw [length_flatten, hn] at htake
  simp only [perform, htake, hpair, State.span_before] at hstep
  exact hstep

/-- A binary operation finds both operands on the stack, the right one on top. -/
theorem resume_binary {op : BinaryOp} {span : Span} {q : Program}
    (hp : p.Extends (q.emit (.binary op) span)) (a b : Value) (stack : List Value) :
    p.resume c q (b :: a :: stack) =
      a.combine op b span >>= fun w => p.resume c (q.emit (.binary op) span) (w :: stack) := by
  obtain ⟨later, hstep⟩ := resume_emit hp rfl nofun c (b :: a :: stack)
  simp only [perform, State.span_before] at hstep
  rw [hstep]
  show (match a.combine op b span >>= fun w => pure (w, stack) with
    | .ok (v, rest) => p.resume c (q.emit (.binary op) span) (v :: rest)
    | .error fault => .error fault) = _
  cases a.combine op b span <;> rfl

/-- A negation finds its operand on top of the stack. -/
theorem resume_neg {span : Span} {q : Program} (hp : p.Extends (q.emit .neg span)) (a : Value)
    (stack : List Value) :
    p.resume c q (a :: stack) =
      a.opposite span >>= fun w => p.resume c (q.emit .neg span) (w :: stack) := by
  obtain ⟨later, hstep⟩ := resume_emit hp rfl nofun c (a :: stack)
  simp only [perform, State.span_before] at hstep
  rw [hstep]
  show (match a.opposite span >>= fun w => pure (w, stack) with
    | .ok (v, rest) => p.resume c (q.emit .neg span) (v :: rest)
    | .error fault => .error fault) = _
  cases a.opposite span <;> rfl

end Expressions

mutual

/-- **A program goes on with each expression that is lowered**; for one form of expression after the other. -/
theorem extends_lower : ∀ (v : Value) {q r : Program}, lower v q = .ok r → r.Extends q
  | .atom a span, q, r, h => by
    rw [lower] at h
    exact extends_emitPush h
  | .sequence k items span, q, r, h => by
    rw [lower] at h
    obtain ⟨q₁, h₁, h⟩ := except_bind_eq_ok.mp h
    obtain ⟨n, -, h⟩ := except_bind_eq_ok.mp h
    cases h
    exact (extends_emitWith _ _ _ _).trans (extends_lowerItems items h₁)
  | .record k fields span, q, r, h => by
    rw [lower] at h
    obtain ⟨q₁, h₁, h⟩ := except_bind_eq_ok.mp h
    obtain ⟨n, -, h⟩ := except_bind_eq_ok.mp h
    cases h
    exact (extends_emitWith _ _ _ _).trans (extends_lowerFields span fields h₁)
  | .binary v op w span, q, r, h => by
    rw [lower] at h
    obtain ⟨q₁, h₁, h⟩ := except_bind_eq_ok.mp h
    obtain ⟨q₂, h₂, h⟩ := except_bind_eq_ok.mp h
    cases h
    exact (extends_emit _ _ _).trans ((extends_lower w h₂).trans (extends_lower v h₁))
  | .neg v span, q, r, h => by
    rw [lower] at h
    obtain ⟨q₁, h₁, h⟩ := except_bind_eq_ok.mp h
    cases h
    exact (extends_emit _ _ _).trans (extends_lower v h₁)
  | .rule _ _ _ _ _, _, _, h => by
    rw [lower] at h
    cases h

/-- A program goes on with the items of a list. -/
theorem extends_lowerItems :
    ∀ (vs : List Value) {q r : Program}, lowerItems vs q = .ok r → r.Extends q
  | [], q, r, h => by
    rw [lowerItems] at h
    cases h
    exact Extends.refl _
  | v :: vs, q, r, h => by
    rw [lowerItems] at h
    split at h
    · rename_i q₁ h₁
      exact (extends_lowerItems vs h).trans (extends_lower v h₁)
    · cases h

theorem extends_lowerFields (span : Span) :
    ∀ (fs : List (String × Value)) {q r : Program}, lowerFields span fs q = .ok r → r.Extends q
  | [], q, r, h => by
    rw [lowerFields] at h
    cases h
    exact Extends.refl _
  | (k, v) :: fs, q, r, h => by
    rw [lowerFields] at h
    split at h
    · rename_i q₁ h₁
      split at h
      · rename_i q₂ h₂
        exact (extends_lowerFields span fs h).trans
          ((extends_lower v h₂).trans (extends_emitPush h₁))
      · cases h
    · cases h

end

/-- Evaluating the items of a list keeps their number. -/
theorem length_evaluateItems {c : Context} :
    ∀ {vs ws : List Value}, Value.evaluateItems c vs = .ok ws → ws.length = vs.length
  | [], ws, h => by
    rw [Value.evaluateItems] at h
    cases h
    rfl
  | v :: vs, ws, h => by
    rw [Value.evaluateItems] at h
    obtain ⟨w, -, h⟩ := except_bind_eq_ok.mp h
    obtain ⟨us, hus, h⟩ := except_bind_eq_ok.mp h
    cases h
    simp [length_evaluateItems hus]

/-- Evaluating fields keeps their names. -/
theorem keys_evaluateFields {c : Context} :
    ∀ {fs gs : Entries Value}, Value.evaluateFields c fs = .ok gs → gs.keys = fs.keys
  | [], gs, h => by
    rw [Value.evaluateFields] at h
    cases h
    rfl
  | (k, v) :: fs, gs, h => by
    rw [Value.evaluateFields] at h
    obtain ⟨w, -, h⟩ := except_bind_eq_ok.mp h
    obtain ⟨us, hus, h⟩ := except_bind_eq_ok.mp h
    cases h
    simp [keys_evaluateFields hus]

mutual

/-- **The machine follows the tree.**  From where `q` ends, the program `p` comes to where the
    program with the expression added ends, and has pushed the value of the expression; if the
    expression has no value, `p` stops with the same fault. -/
theorem resume_lower {p : Program} (c : Context) :
    ∀ (v : Value) {q r : Program}, v.wellFormed → lower v q = .ok r → p.Extends r →
      ∀ stack, p.resume c q stack = v.evaluate c >>= fun w => p.resume c r (w :: stack)
  | .atom a span, q, r, _, h, hp, stack => by
    rw [lower] at h
    exact resume_atom c h hp stack
  | .sequence k items span, q, r, hv, h, hp, stack => by
    rw [lower] at h
    obtain ⟨q₁, h₁, h⟩ := except_bind_eq_ok.mp h
    obtain ⟨n, hn, h⟩ := except_bind_eq_ok.mp h
    cases h
    rw [resume_lowerItems c items hv h₁ (hp.trans (extends_emitWith _ _ _ _)), Value.evaluate]
    cases hws : Value.evaluateItems c items with
    | error fault => rfl
    | ok ws =>
      have hlen : ws.length = n.toNat := by rw [length_evaluateItems hws, operand_ok hn]
      exact resume_sequence c hlen hp stack
  | .record k fields span, q, r, hv, h, hp, stack => by
    rw [lower] at h
    obtain ⟨q₁, h₁, h⟩ := except_bind_eq_ok.mp h
    obtain ⟨n, hn, h⟩ := except_bind_eq_ok.mp h
    cases h
    rw [resume_lowerFields c span fields (by simp_all [Value.wellFormed]) h₁
      (hp.trans (extends_emitWith _ _ _ _)), Value.evaluate]
    cases hgs : Value.evaluateFields c fields with
    | error fault => rfl
    | ok gs =>
      have hkeys : Entries.keys gs = Entries.keys fields := keys_evaluateFields hgs
      have hlen : gs.length = n.toNat := by
        rw [operand_ok hn]
        simpa [Entries.keys] using congrArg List.length hkeys
      -- the record is put together name by name, which keeps them all only if no name comes twice
      have hnodup : (Entries.keys gs).Nodup := by
        rw [hkeys]
        exact Value.nodup_of_wellFormed hv
      exact resume_record c hlen hnodup hp stack
  | .binary v op w span, q, r, hv, h, hp, stack => by
    rw [lower] at h
    obtain ⟨q₁, h₁, h⟩ := except_bind_eq_ok.mp h
    obtain ⟨q₂, h₂, h⟩ := except_bind_eq_ok.mp h
    cases h
    simp only [Value.wellFormed, Bool.and_eq_true] at hv
    -- the right operand is lowered behind the left one, so its part of `p` begins where that one ends
    have hp₂ : p.Extends q₂ := hp.trans (extends_emit _ _ _)
    rw [resume_lower c v hv.1 h₁ (hp₂.trans (extends_lower w h₂)), Value.evaluate]
    cases v.evaluate c with
    | error fault => rfl
    | ok a =>
      show p.resume c q₁ (a :: stack) = _
      rw [resume_lower c w hv.2 h₂ hp₂]
      cases w.evaluate c with
      | error fault => rfl
      | ok b => exact resume_binary c hp a b stack
  | .neg v span, q, r, hv, h, hp, stack => by
    rw [lower] at h
    obtain ⟨q₁, h₁, h⟩ := except_bind_eq_ok.mp h
    cases h
    rw [resume_lower c v hv h₁ (hp.trans (extends_emit _ _ _)), Value.evaluate]
    cases v.evaluate c with
    | error fault => rfl
    | ok a => exact resume_neg c hp a stack
  | .rule _ _ _ _ _, _, _, _, h, _, _ => by
    rw [lower] at h
    cases h

/-- The values of a list are pushed one after the other. -/
theorem resume_lowerItems {p : Program} (c : Context) :
    ∀ (vs : List Value) {q r : Program}, Value.allWellFormed vs → lowerItems vs q = .ok r →
      p.Extends r → ∀ stack, p.resume c q stack =
        Value.evaluateItems c vs >>= fun ws => p.resume c r (ws.reverse ++ stack)
  | [], q, r, _, h, _, stack => by
    rw [lowerItems] at h
    cases h
    rw [Value.evaluateItems]
    rfl
  | v :: vs, q, r, hv, h, hp, stack => by
    rw [lowerItems] at h
    split at h
    · rename_i q₁ h₁
      simp only [Value.allWellFormed, Bool.and_eq_true] at hv
      rw [resume_lower c v hv.1 h₁ (hp.trans (extends_lowerItems vs h)), Value.evaluateItems]
      cases v.evaluate c with
      | error fault => rfl
      | ok a =>
        show p.resume c q₁ (a :: stack) = _
        rw [resume_lowerItems c vs hv.2 h hp]
        cases Value.evaluateItems c vs with
        | error fault => rfl
        | ok ws =>
          show p.resume c r (ws.reverse ++ a :: stack) = p.resume c r ((a :: ws).reverse ++ stack)
          rw [List.reverse_cons, List.append_assoc, List.singleton_append]
    · cases h

/-- The names and values of fields are pushed in turn. -/
theorem resume_lowerFields {p : Program} (c : Context) (span : Span) :
    ∀ (fs : List (String × Value)) {q r : Program}, Value.allFieldsWellFormed fs →
      lowerFields span fs q = .ok r → p.Extends r → ∀ stack, p.resume c q stack =
        Value.evaluateFields c fs >>= fun gs => p.resume c r ((flatten span gs).reverse ++ stack)
  | [], q, r, _, h, _, stack => by
    rw [lowerFields] at h
    cases h
    rw [Value.evaluateFields]
    rfl
  | (k, v) :: fs, q, r, hv, h, hp, stack => by
    rw [lowerFields] at h
    split at h
    · rename_i q₁ h₁
      split at h
      · rename_i q₂ h₂
        simp only [Value.allFieldsWellFormed, Bool.and_eq_true] at hv
        have hp₂ : p.Extends q₂ := hp.trans (extends_lowerFields span fs h)
        rw [resume_name c h₁ (hp₂.trans (extends_lower v h₂)), resume_lower c v hv.1 h₂ hp₂,
          Value.evaluateFields]
        cases v.evaluate c with
        | error fault => rfl
        | ok a =>
          show p.resume c q₂ (a :: .atom (.string k) span :: stack) = _
          rw [resume_lowerFields c span fs hv.2 h hp]
          cases Value.evaluateFields c fs with
          | error fault => rfl
          | ok gs =>
            -- what is pushed first lies lowest: the stack holds names and values in reverse
            show p.resume c r ((flatten span gs).reverse ++ a :: .atom (.string k) span :: stack) =
              p.resume c r ((.atom (.string k) span :: a :: flatten span gs).reverse ++ stack)
            simp only [List.reverse_cons, List.append_assoc, List.cons_append, List.nil_append]
      · cases h
    · cases h

end

/-! ## Whole programs -/

/-- A program starts where the empty program ends. -/
theorem run_eq_resume (p : Program) (c : Context) : p.run c = p.resume c {} [] := rfl

/-- Behind the whole expression stands the instruction that halts. -/
theorem resume_halt (q : Program) (c : Context) (v : Value) :
    ({ q with code := q.code.push Opcode.halt.byte } : Program).resume c q [v] = .ok v := by
  have hcode : (q.code.push Opcode.halt.byte).toList.drop q.code.size = [Opcode.halt.byte] := by
    simp
  unfold resume
  rw [hcode, exec.eq_def]
  simp only [Opcode.ofByte?_byte, finish]

/-- Running the program of an expression is evaluating the expression on its tree. -/
theorem run_eq_evaluate {v : Value} (hv : v.wellFormed) {p : Program} (h : ofValue v = .ok p)
    (c : Context) : p.run c = v.evaluate c := by
  obtain ⟨q, hq, h⟩ := except_bind_eq_ok.mp h
  cases h
  have hext : ({ q with code := q.code.push Opcode.halt.byte } : Program).Extends q := by
    refine ⟨List.prefix_rfl, ?_, List.prefix_rfl, (Extends.refl q).later⟩
    rw [Array.toList_push]
    exact List.prefix_append _ _
  rw [run_eq_resume, resume_lower c v hv hq hext []]
  cases v.evaluate c with
  | error fault => rfl
  | ok w => exact resume_halt q c w

end Program

/-! ## Where faults come from -/

namespace Value

mutual

/-- Evaluating on the tree has faults of operations and of rules, and those that the context gives for
    references. -/
theorem code_of_evaluate_eq_error {c : Context} :
    ∀ (v : Value) {f : Fault}, v.evaluate c = .error f →
      (501 ≤ f.code ∧ f.code ≤ 505) ∨ ∃ r, c.reference r = .error f
  | .atom (.reference r) _, f, h => by
    rw [evaluate] at h
    exact .inr ⟨r, h⟩
  | .atom (.string _) _, f, h => by
    rw [evaluate] at h
    cases h
  | .sequence k items span, f, h => by
    rw [evaluate] at h
    rcases except_bind_eq_error.mp h with h | ⟨_, _, h⟩
    · exact code_of_evaluateItems_eq_error items h
    · cases h
  | .record k fields span, f, h => by
    rw [evaluate] at h
    rcases except_bind_eq_error.mp h with h | ⟨_, _, h⟩
    · exact code_of_evaluateFields_eq_error fields h
    · cases h
  | .binary l op r span, f, h => by
    rw [evaluate] at h
    rcases except_bind_eq_error.mp h with h | ⟨a, _, h⟩
    · exact code_of_evaluate_eq_error l h
    rcases except_bind_eq_error.mp h with h | ⟨b, _, h⟩
    · exact code_of_evaluate_eq_error r h
    have := code_of_combine_eq_error h
    exact .inl (by omega)
  | .neg v span, f, h => by
    rw [evaluate] at h
    rcases except_bind_eq_error.mp h with h | ⟨a, _, h⟩
    · exact code_of_evaluate_eq_error v h
    have := code_of_opposite_eq_error h
    exact .inl (by omega)
  | .rule _ _ _ _ _, f, h => by
    rw [evaluate] at h
    cases h
    exact .inl (by simp [Fault.code, EvaluationCause.code])
  | .atom (.int _) _, _, h | .atom (.float _) _, _, h | .atom (.bool _) _, _, h
  | .atom (.color _) _, _, h | .atom (.coord _) _, _, h | .atom (.path _) _, _, h
  | .atom (.dyna _) _, _, h => by
    rw [evaluate] at h
    · cases h
    · nofun
    · nofun

/-- The faults of a list are those of its items. -/
theorem code_of_evaluateItems_eq_error {c : Context} :
    ∀ (vs : List Value) {f : Fault}, evaluateItems c vs = .error f →
      (501 ≤ f.code ∧ f.code ≤ 505) ∨ ∃ r, c.reference r = .error f
  | [], _, h => by
    rw [evaluateItems] at h
    cases h
  | v :: vs, f, h => by
    rw [evaluateItems] at h
    rcases except_bind_eq_error.mp h with h | ⟨_, _, h⟩
    · exact code_of_evaluate_eq_error v h
    rcases except_bind_eq_error.mp h with h | ⟨_, _, h⟩
    · exact code_of_evaluateItems_eq_error vs h
    · cases h

theorem code_of_evaluateFields_eq_error {c : Context} :
    ∀ (fs : List (String × Value)) {f : Fault}, evaluateFields c fs = .error f →
      (501 ≤ f.code ∧ f.code ≤ 505) ∨ ∃ r, c.reference r = .error f
  | [], _, h => by
    rw [evaluateFields] at h
    cases h
  | (_, v) :: fs, f, h => by
    rw [evaluateFields] at h
    rcases except_bind_eq_error.mp h with h | ⟨_, _, h⟩
    · exact code_of_evaluate_eq_error v h
    rcases except_bind_eq_error.mp h with h | ⟨_, _, h⟩
    · exact code_of_evaluateFields_eq_error fs h
    · cases h

end

/-- Evaluating on the tree reports no damage of its own: a fault with the code for it is one that the
    context gave for a reference. -/
theorem reference_of_evaluate_damaged {c : Context} (v : Value) {f : Fault}
    (h : v.evaluate c = .error f) (hcode : f.code = 508) : ∃ r, c.reference r = .error f := by
  refine (code_of_evaluate_eq_error v h).resolve_left fun hbounds => ?_
  omega

end Value

/-- **Lowering is correct.**  In every context, running the program of an expression ends as evaluating
    the expression on its tree does, with the same value or the same fault; and the machine never
    finds a program damaged, unless the context itself gives that fault for a reference. -/
theorem run_ofValue {v : Value} (hv : v.wellFormed) {p : Program} (h : Program.ofValue v = .ok p)
    (c : Context) :
    p.run c = v.evaluate c ∧
      ∀ f, p.run c = .error f → f.code = 508 → ∃ r, c.reference r = .error f := by
  have hrun := Program.run_eq_evaluate hv h c
  refine ⟨hrun, fun f hf hcode => ?_⟩
  rw [hrun] at hf
  exact Value.reference_of_evaluate_damaged v hf hcode

/-- A record of a name and a remainder by zero. -/
def Value.lateFault : Value :=
  .record .map
    [("a", .atom (.string "x") ⟨none, 1, 2⟩),
     ("b", .binary (.neg (.atom (.int 7) ⟨none, 1, 5⟩) ⟨none, 1, 4⟩) .mod
        (.atom (.int 0) ⟨none, 1, 7⟩) ⟨none, 1, 4⟩)] ⟨none, 1, 1⟩

/-- The fault of its second field is the fault of the whole record, in both ways. -/
theorem run_ofValue_lateFault : Value.lateFault.wellFormed ∧ ∃ p,
    Program.ofValue .lateFault = .ok p ∧
    p.run (.ofTable ∅) = .error (.evaluation .zeroDivisor (some ⟨none, 1, 4⟩)) := by
  have hv : Value.lateFault.wellFormed := by decide
  refine ⟨hv, _, rfl, ?_⟩
  rw [(run_ofValue hv rfl _).1]
  rfl

end Yini
