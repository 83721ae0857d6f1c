import Mathlib.Data.List.DropRight
import Mathlib.Data.Finset.Card
import Yini.Dyna.Sharing
import Yini.Proofs.Table

/-!
Nobody can tell whether a program was kept.

An evaluator is faithful if each program that it keeps is the program of its text.  This is the
invariant: a program is made from the text alone, so it does not matter who made it, what happened
between looking it up and keeping it, or that programs were thrown away meanwhile.  An answer of a
faithful evaluator is the answer of one that has kept nothing (`Shared.step_faithful`), and so it is for
every answer of a whole run, in whatever order the threads take their steps (`Shared.run_invisible`).
If no thread comes between, the calls have exactly the effect of `Evaluator.program`,
`Evaluator.evaluate`, `Evaluator.evaluateDyna` and `Evaluator.clear` (`Shared.run_inTurn`).
-/

namespace Yini

variable {e : Evaluator} {c : Call} {text : String} {p : Program}

/-! ## Programs that are kept -/

namespace Evaluator

/-- **Each program that is kept is the program of its text.** -/
def Faithful (e : Evaluator) : Prop :=
  ∀ text p, e.programs.get? text = some p → Program.ofSource text = .ok p

theorem faithful_empty : Faithful {} := by
  intro text p h
  cases h

theorem not_mem_keys_empty : text ∉ ({} : Evaluator).programs.keys := List.not_mem_nil

/-- **Keeping the program of a text stays faithful.** -/
theorem Faithful.keep (he : e.Faithful) (h : Program.ofSource text = .ok p) :
    (e.keep text p).Faithful := by
  intro other q hq
  by_cases hother : text = other
  · subst hother
    rw [Evaluator.keep, Table.get?_insert_self] at hq
    cases hq
    exact h
  · rw [Evaluator.keep, Table.get?_insert_of_ne _ hother] at hq
    exact he other q hq

/-- Looking a program up or making it anew comes to the same. -/
theorem Faithful.program (he : e.Faithful) (text : String) :
    (e.program text).1 = Program.ofSource text ∧ (e.program text).2.Faithful := by
  rw [Evaluator.program]
  cases hkept : e.programs.get? text with
  | some p => exact ⟨(he text p hkept).symm, he⟩
  | none =>
    cases hmade : Program.ofSource text with
    | ok p => exact ⟨rfl, he.keep hmade⟩
    | error fault => exact ⟨rfl, he⟩

/-- A text that has no program is not among those that are kept. -/
theorem Faithful.not_mem_keys (he : e.Faithful) {fault : Fault}
    (h : Program.ofSource text = .error fault) : text ∉ e.programs.keys := by
  rw [← Table.get?_eq_none_iff]
  cases hkept : e.programs.get? text with
  | none => rfl
  | some p =>
    have hp := he text p hkept
    rw [h] at hp
    cases hp

end Evaluator

/-! ## One call -/

namespace Call

/-- What a call is answered where nothing has been kept. -/
def afresh (c : Call) : Answer := (c.run {}).1

/-- Whether a call throws the programs away. -/
def isClear : Call → Bool
  | clear => true
  | _ => false

/-- A call that needs a program is a look-up, and whatever it makes of the program. -/
theorem run_of_text? (h : c.text? = some text) (e : Evaluator) :
    c.run e = (c.answer (e.program text).1, (e.program text).2) := by
  have hevaluate : ∀ c, e.evaluate text c .bytecode
      = ((e.program text).1.bind fun p => p.run c, (e.program text).2) := by
    intro c
    rw [Evaluator.evaluate]
    rcases e.program text with ⟨result, e'⟩
    cases result <;> rfl
  unfold text? at h
  split at h
  · cases h
    rfl
  · cases h
    rw [run, hevaluate]
    rfl
  · cases h
    rw [run, Evaluator.evaluateDyna, hevaluate]
    rfl
  · cases h

/-- Any other call does not look at what is kept, and only throwing it away has an effect on it. -/
theorem run_of_no_text (h : c.text? = none) (e : Evaluator) :
    (c.run e).1 = c.afresh ∧ (c.run e).2 = if c.isClear then {} else e := by
  unfold text? at h
  split at h
  · cases h
  · cases h
  · cases h
  · rename_i hprogram hbytecode hdyna
    cases c with
    | program text => exact absurd rfl (hprogram text)
    | evaluate text c s =>
      cases s with
      | treeWalk => exact ⟨rfl, rfl⟩
      | bytecode => exact absurd rfl (hbytecode text c)
    | evaluateDyna v c s =>
      cases s with
      | treeWalk => cases v with
        | atom a => cases a <;> exact ⟨rfl, rfl⟩
        | _ => exact ⟨rfl, rfl⟩
      | bytecode => cases v with
        | atom a span => cases a with
          | dyna text => exact absurd rfl (hdyna text span c)
          | _ => exact ⟨rfl, rfl⟩
        | _ => exact ⟨rfl, rfl⟩
    | clear => exact ⟨rfl, rfl⟩

/-- A call with a text is answered by the program of that text. -/
theorem afresh_of_text? (h : c.text? = some text) : c.afresh = c.answer (Program.ofSource text) := by
  rw [afresh, run_of_text? h, (Evaluator.faithful_empty.program text).1]

/-- **A call is answered as if nothing had been kept**, and leaves the evaluator faithful. -/
theorem run_faithful (he : e.Faithful) (c : Call) :
    (c.run e).1 = c.afresh ∧ (c.run e).2.Faithful := by
  cases h : c.text? with
  | some text =>
    obtain ⟨hresult, hkept⟩ := he.program text
    rw [run_of_text? h, afresh_of_text? h]
    exact ⟨congrArg (fun result => c.answer result) hresult, hkept⟩
  | none =>
    obtain ⟨hanswer, hkept⟩ := run_of_no_text h e
    refine ⟨hanswer, ?_⟩
    rw [hkept]
    split
    · exact Evaluator.faithful_empty
    · exact he

end Call

/-! ## Steps of several threads -/

namespace Shared

variable {s : Shared}

/-- A call that needs no program has one step. -/
theorem start_of_no_text (h : c.text? = none) (s : Shared) (thread : Nat) :
    s.start thread c = (some (c, (c.run s.evaluator).1), { s with evaluator := (c.run s.evaluator).2 }) := by
  unfold start
  split
  · rfl
  · rename_i other needs
    rw [h] at needs
    cases needs

/-- A call whose program is there has one step. -/
theorem start_of_hit (h : c.text? = some text) (hkept : s.evaluator.programs.get? text = some p)
    (thread : Nat) : s.start thread c = (some (c, c.answer (.ok p)), s) := by
  unfold start
  split
  · rename_i needs
    rw [h] at needs
    cases needs
  · rename_i other needs
    rw [h] at needs
    cases needs
    rw [hkept]

/-- A call whose program is missing remembers that. -/
theorem start_of_miss (h : c.text? = some text) (hmissing : s.evaluator.programs.get? text = none)
    (thread : Nat) : s.start thread c = (none, s.await thread (some ⟨c, text, h⟩)) := by
  unfold start
  split
  · rename_i needs
    rw [h] at needs
    cases needs
  · rename_i other needs
    have hother := needs
    rw [h] at hother
    cases hother
    rw [hmissing]

/-- What the first step of a call does: it answers as if nothing had been kept, or it remembers which
    program is missing and leaves the evaluator alone. -/
theorem start_cases (he : s.evaluator.Faithful) (thread : Nat) (c : Call) :
    (∃ e, e.Faithful ∧ s.start thread c = (some (c, c.afresh), { s with evaluator := e })) ∨
      ∃ m : Miss, m.call = c ∧ s.start thread c = (none, s.await thread (some m)) := by
  cases needs : c.text? with
  | none =>
    obtain ⟨hanswer, hkept⟩ := Call.run_faithful he c
    refine .inl ⟨_, hkept, ?_⟩
    rw [start_of_no_text needs, hanswer]
  | some text =>
    cases hkept : s.evaluator.programs.get? text with
    | none => exact .inr ⟨⟨c, text, needs⟩, rfl, start_of_miss needs hkept thread⟩
    | some p =>
      refine .inl ⟨s.evaluator, he, ?_⟩
      rw [start_of_hit needs hkept, Call.afresh_of_text? needs, he text p hkept]

/-- What the second step of a call does: it answers as if nothing had been kept, also if the programs
    have changed since the first step. -/
theorem finish_faithful (s : Shared) (thread : Nat) (m : Miss) (he : s.evaluator.Faithful) :
    (s.finish thread m).1 = some (m.call, m.call.afresh) ∧
      (s.finish thread m).2.evaluator.Faithful := by
  rw [finish, Call.afresh_of_text? m.needs]
  refine ⟨rfl, ?_⟩
  cases hmade : Program.ofSource m.text with
  | ok p => exact he.keep hmade
  | error fault => exact he

/-- **No step can tell what is kept**: the evaluator stays faithful, and an answer is what it would be
    if nothing had been kept. -/
theorem step_faithful (he : s.evaluator.Faithful) (event : Event) :
    (∀ answered ∈ (s.step event).1, answered.2 = answered.1.afresh) ∧
      (s.step event).2.evaluator.Faithful := by
  have hnone : ∀ answered ∈ (none : Option (Call × Answer)), answered.2 = answered.1.afresh := by
    intro answered h
    cases h
  cases event with
  | call thread c =>
    -- a thread that waits for its own program takes no other call meanwhile
    cases hmiss : s.misses thread with
    | some m =>
      simp only [step, hmiss]
      exact ⟨hnone, he⟩
    | none =>
      simp only [step, hmiss]
      rcases start_cases he thread c with ⟨e, hkept, hstart⟩ | ⟨m, -, hstart⟩
      · rw [hstart]
        refine ⟨fun answered h => ?_, hkept⟩
        cases h
        rfl
      · rw [hstart]
        exact ⟨hnone, he⟩
  | resume thread =>
    cases hmiss : s.misses thread with
    | some m =>
      simp only [step, hmiss]
      obtain ⟨hanswer, hkept⟩ := s.finish_faithful thread m he
      refine ⟨fun answered h => ?_, hkept⟩
      rw [hanswer] at h
      cases h
      rfl
    | none =>
      simp only [step, hmiss]
      exact ⟨hnone, he⟩

/-- **No run can tell what is kept.** -/
theorem run_faithful (he : s.evaluator.Faithful) (events : List Event) :
    (∀ answered ∈ (s.run events).1, answered.2 = answered.1.afresh) ∧
      (s.run events).2.evaluator.Faithful := by
  induction events generalizing s with
  | nil =>
    refine ⟨fun answered h => ?_, he⟩
    cases h
  | cons event events ih =>
    obtain ⟨hanswer, hkept⟩ := step_faithful he event
    obtain ⟨hanswers, hfinally⟩ := ih hkept
    refine ⟨fun answered h => ?_, hfinally⟩
    rcases List.mem_append.mp h with h | h
    · exact hanswer answered (Option.mem_toList.mp h)
    · exact hanswers answered h

/-! ## Calls in turn -/

/-- Steps can be taken in two parts. -/
theorem run_append (s : Shared) (events more : List Event) :
    s.run (events ++ more) =
      ((s.run events).1 ++ ((s.run events).2.run more).1, ((s.run events).2.run more).2) := by
  induction events generalizing s with
  | nil => rfl
  | cons event events ih => simp only [List.cons_append, run, ih, List.append_assoc]

/-- What was awaited is forgotten when the thread goes on. -/
theorem await_none {thread : Nat} (h : s.misses thread = none) (m : Option Miss) :
    (s.await thread m).await thread none = s := by
  have hmisses : ((s.await thread m).await thread none).misses = s.misses := by
    funext other
    by_cases hother : other = thread
    · subst hother
      simp [await, h]
    · simp [await, hother]
  show (⟨s.evaluator, ((s.await thread m).await thread none).misses⟩ : Shared) = s
  rw [hmisses]

/-- Looking a program up and keeping it at once is the same as one call. -/
theorem run_call {thread : Nat} (h : s.misses thread = none) (c : Call) :
    s.run [.call thread c, .resume thread] =
      ([(c, (c.run s.evaluator).1)], { s with evaluator := (c.run s.evaluator).2 }) := by
  have hcall : s.step (.call thread c) = s.start thread c := by
    simp only [step, h]
  have hidle : ∀ e : Evaluator, ({ s with evaluator := e } : Shared).step (.resume thread)
      = (none, { s with evaluator := e }) := by
    intro e
    simp only [step, h]
  simp only [run, hcall]
  cases needs : c.text? with
  | none =>
    rw [start_of_no_text needs]
    simp only [hidle]
    rfl
  | some text =>
    rw [Call.run_of_text? needs, Evaluator.program]
    cases hkept : s.evaluator.programs.get? text with
    | some p =>
      rw [start_of_hit needs hkept]
      simp only [hidle s.evaluator]
      rfl
    | none =>
      rw [start_of_miss needs hkept]
      have hmiss : (s.await thread (some ⟨c, text, needs⟩)).misses thread = some ⟨c, text, needs⟩ :=
        if_pos rfl
      simp only [step, hmiss, finish, await_none h]
      cases Program.ofSource text <;> rfl

/-- Calls of which each is finished before the next is made. -/
def inTurn (calls : List (Nat × Call)) : List Event :=
  calls.flatMap fun (thread, c) => [.call thread c, .resume thread]

/-- **Threads that take turns** make one call after the other. -/
theorem run_inTurn (calls : List (Nat × Call)) (e : Evaluator) :
    run { evaluator := e } (inTurn calls) =
      ((Call.runAll e (calls.map Prod.snd)).1, { evaluator := (Call.runAll e (calls.map Prod.snd)).2 }) := by
  induction calls generalizing e with
  | nil => rfl
  | cons call calls ih =>
    have hidle : ({ evaluator := e } : Shared).misses call.1 = none := rfl
    have hcall := run_call hidle call.2
    rw [inTurn, List.flatMap_cons, ← inTurn, run_append, hcall, ih]
    rfl

end Shared

/-! ## How many programs are kept -/

/-- Looking a program up adds its text, if there is a program. -/
theorem Evaluator.mem_keys_program (e : Evaluator) (other : String) :
    text ∈ (e.program other).2.programs.keys ↔
      text ∈ e.programs.keys ∨ other = text ∧ ∃ p, Program.ofSource text = .ok p := by
  rw [program]
  cases hkept : e.programs.get? other with
  | some p =>
    have hmem : other ∈ e.programs.keys := by
      rw [← Table.contains_iff, Table.contains, hkept]
      rfl
    constructor
    · exact .inl
    · rintro (hmem' | ⟨rfl, -⟩)
      · exact hmem'
      · exact hmem
  | none =>
    -- a text whose lowering fails is not kept, and will be tried again
    have hmem : other ∉ e.programs.keys := Table.get?_eq_none_iff.mp hkept
    cases hmade : Program.ofSource other with
    | ok p =>
      simp only [keep, Table.keys_insert_of_not_mem hmem, List.mem_append, List.mem_singleton]
      constructor
      · rintro (hmem' | rfl)
        · exact .inl hmem'
        · exact .inr ⟨rfl, p, hmade⟩
      · rintro (hmem' | ⟨rfl, -⟩)
        · exact .inl hmem'
        · exact .inr rfl
    | error fault =>
      constructor
      · exact .inl
      · rintro (hmem' | ⟨rfl, p, hp⟩)
        · exact hmem'
        · rw [hmade] at hp
          cases hp

namespace Call

/-- The text of a call that makes a program, if it succeeds. -/
def compiled? (c : Call) : Option String :=
  c.text?.filter fun text => (Program.ofSource text).isOk

/-- The texts whose programs calls have made, since programs were thrown away for the last time. -/
def compiledSince (calls : List Call) : Finset String :=
  ((calls.rtakeWhile fun c => !c.isClear).filterMap compiled?).toFinset

/-- A text that is compiled is that of a call, and has a program. -/
theorem compiled?_eq_some_iff :
    c.compiled? = some text ↔ c.text? = some text ∧ ∃ p, Program.ofSource text = .ok p := by
  rw [compiled?, Option.filter_eq_some_iff]
  cases Program.ofSource text <;> simp [Except.isOk, Except.toBool]

/-- What one call does to the texts that have a program. -/
theorem mem_keys_run (e : Evaluator) (c : Call) :
    text ∈ (c.run e).2.programs.keys ↔
      c.isClear = false ∧ (text ∈ e.programs.keys ∨ c.compiled? = some text) := by
  rw [compiled?_eq_some_iff]
  cases needs : c.text? with
  | none =>
    rw [(run_of_no_text needs e).2]
    cases c.isClear
    · simp
    · simpa using Evaluator.not_mem_keys_empty
  | some other =>
    have hclear : c.isClear = false := by
      cases c <;> first | rfl | cases needs
    rw [run_of_text? needs, Evaluator.mem_keys_program]
    simp only [hclear, true_and, Option.some.injEq]

/-- One call more, at the end. -/
theorem runAll_append (e : Evaluator) (calls more : List Call) :
    (runAll e (calls ++ more)).2 = (runAll (runAll e calls).2 more).2 := by
  induction calls generalizing e with
  | nil => rfl
  | cons c calls ih => exact ih _

/-- **The programs that are kept** are those of the texts that have been compiled since the last clearing. -/
theorem mem_keys_runAll (calls : List Call) :
    text ∈ (runAll {} calls).2.programs.keys ↔ text ∈ compiledSince calls := by
  induction calls using List.reverseRecOn with
  | nil => simpa [runAll, compiledSince] using Evaluator.not_mem_keys_empty
  | append_singleton calls c ih =>
    rw [runAll_append]
    show text ∈ (c.run _).2.programs.keys ↔ _
    rw [mem_keys_run, ih, compiledSince, compiledSince, List.rtakeWhile_concat]
    cases c.isClear with
    | true => simp
    | false =>
      rw [if_pos (show (!false) = true from rfl), List.filterMap_append]
      simp

/-- **As many programs are kept as different texts were compiled**, since programs were thrown away for
    the last time. -/
theorem size_runAll (calls : List Call) :
    (runAll {} calls).2.size = (compiledSince calls).card := by
  have hkeys : (runAll {} calls).2.programs.keys.toFinset = compiledSince calls := by
    ext text
    rw [List.mem_toFinset, mem_keys_runAll]
  have hnodup : (runAll {} calls).2.programs.keys.Nodup := (runAll {} calls).2.programs.nodup_keys
  rw [← hkeys, List.toFinset_card_of_nodup hnodup]
  exact (List.length_map _).symm

end Call

/-! ## Together -/

/-- **What is kept is invisible.**  Whatever calls threads make and in whatever order they take their
    steps, each call that is answered is answered as if nothing had been kept, and so will be the calls
    that are not answered yet; each program that is kept is the program of its text, and a text that has
    no program is not kept.  If the threads take turns, then they make one call after the other, and as
    many programs are kept as different texts were compiled since programs were thrown away. -/
theorem Shared.run_invisible :
    (∀ events : List Event,
      (∀ answered ∈ (run {} events).1, answered.2 = (answered.1.run {}).1) ∧
      (∀ thread c, (run {} events).2.misses thread = none →
        ((run {} events).2.step (.call thread c)).1 = some (c, (c.run {}).1) ∨
          ∃ m, m.call = c ∧ ((run {} events).2.step (.call thread c)).2.misses thread = some m) ∧
      (∀ thread m, (run {} events).2.misses thread = some m →
        ((run {} events).2.step (.resume thread)).1 = some (m.call, (m.call.run {}).1)) ∧
      (∀ e ∈ (run {} events).2.evaluator.programs.entries, Program.ofSource e.1 = .ok e.2) ∧
      ∀ text fault, Program.ofSource text = .error fault →
        text ∉ (run {} events).2.evaluator.programs.keys) ∧
    ∀ calls : List (Nat × Call),
      run {} (inTurn calls) =
        ((Call.runAll {} (calls.map Prod.snd)).1,
          { evaluator := (Call.runAll {} (calls.map Prod.snd)).2 }) ∧
      (run {} (inTurn calls)).2.evaluator.size = (Call.compiledSince (calls.map Prod.snd)).card := by
  refine ⟨fun events => ?_, fun calls => ⟨run_inTurn calls {}, ?_⟩⟩
  · obtain ⟨hanswers, hfaithful⟩ := run_faithful (s := {}) Evaluator.faithful_empty events
    refine ⟨hanswers, fun thread c hidle => ?_, fun thread m hmiss => ?_, fun e he => ?_, fun text fault h => ?_⟩
    · simp only [step, hidle]
      rcases start_cases hfaithful thread c with ⟨e, -, hstart⟩ | ⟨m, hcall, hstart⟩
      · rw [hstart]
        exact .inl rfl
      · rw [hstart]
        exact .inr ⟨m, hcall, if_pos rfl⟩
    · simp only [step, hmiss]
      exact (finish_faithful _ thread m hfaithful).1
    · exact hfaithful e.1 e.2 (Table.mem_entries_iff.mp he)
    · exact hfaithful.not_mem_keys h
  · rw [run_inTurn]
    exact Call.size_runAll _

-- two threads miss the same program, and a third throws all programs away before they keep theirs
example : (Shared.run {} [.call 0 (.program "1"), .call 1 (.program "1"), .resume 0, .call 2 .clear,
    .resume 1]).2.evaluator.programs.keys = ["1"] := by decide +kernel

end Yini
