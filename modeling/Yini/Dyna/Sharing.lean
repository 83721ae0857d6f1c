import Yini.Dyna.Evaluator

/-!
Threads that share an evaluator.  A call that needs a program looks it up first, and if it is there, the
call is answered.  If not, the thread makes the program by itself and keeps it in a second step.  Between
the two steps other threads can do anything, also make the same program or throw all programs away.
-/

namespace Yini

/-- What a thread can ask of an evaluator. -/
inductive Call where
  | program (text : String)
  | evaluate (text : String) (c : Context) (s : Strategy)
  | evaluateDyna (v : Value) (c : Context) (s : Strategy)
  | clear

/-- What an evaluator answers. -/
inductive Answer where
  | program (result : Except Fault Program)
  | value (result : Except Fault Value)
  | cleared

namespace Call

/-- A call that no other thread comes between. -/
def run (e : Evaluator) : Call → Answer × Evaluator
  | program text => (e.program text).map .program id
  | evaluate text c s => (e.evaluate text c s).map .value id
  | evaluateDyna v c s => (e.evaluateDyna v c s).map .value id
  | clear => (.cleared, e.clear)

/-- One call after the other: what each is answered, and the evaluator in the end. -/
def runAll (e : Evaluator) : List Call → List (Call × Answer) × Evaluator
  | [] => ([], e)
  | c :: cs =>
    let (answer, e) := c.run e
    let (answers, e) := runAll e cs
    ((c, answer) :: answers, e)

/-- The text whose program a call needs. -/
def text? : Call → Option String
  | program text => some text
  | evaluate text _ .bytecode => some text
  | evaluateDyna (.atom (.dyna text) _) _ .bytecode => some text
  | _ => none

/-- What a call makes of the program that it needs. -/
def answer (result : Except Fault Program) : Call → Answer
  | program _ => .program result
  | evaluate _ c _ => .value (result.bind fun p => p.run c)
  | evaluateDyna _ c _ => .value (result.bind fun p => p.run c)
  | clear => .cleared

end Call

/-- A call that has looked for the program of a text and not found it. -/
structure Miss where
  call : Call
  text : String
  needs : call.text? = some text

/-- What happens next: a thread makes a call, or goes on with the call that it has made. -/
inductive Event where
  | call (thread : Nat) (c : Call)
  | resume (thread : Nat)

/-- An evaluator and the threads that are about to keep a program in it. -/
structure Shared where
  evaluator : Evaluator := {}
  misses : Nat → Option Miss := fun _ => none

namespace Shared

/-- What a thread is about to keep becomes `m`. -/
def await (s : Shared) (thread : Nat) (m : Option Miss) : Shared :=
  { s with misses := fun other => if other = thread then m else s.misses other }

/-- The first step of a call, which is the only one unless a program is missing. -/
def start (s : Shared) (thread : Nat) (c : Call) : Option (Call × Answer) × Shared :=
  match needs : c.text? with
  | none => (some (c, (c.run s.evaluator).1), { s with evaluator := (c.run s.evaluator).2 })
  | some text =>
    match s.evaluator.programs.get? text with
    | some p => (some (c, c.answer (.ok p)), s)
    | none => (none, s.await thread (some ⟨c, text, needs⟩))

/-- The second step of a call: the missing program is kept, if there is one. -/
def finish (s : Shared) (thread : Nat) (m : Miss) : Option (Call × Answer) × Shared :=
  let s := s.await thread none
  let result := Program.ofSource m.text
  (some (m.call, m.call.answer result),
    match result with
    | .ok p => { s with evaluator := s.evaluator.keep m.text p }
    | .error _ => s)

/-- What happens at an event.  A thread makes one call after the other, and it can only go on with a
    call that is not answered yet. -/
def step (s : Shared) : Event → Option (Call × Answer) × Shared
  | .call thread c =>
    match s.misses thread with
    | some _ => (none, s)
    | none => s.start thread c
  | .resume thread =>
    match s.misses thread with
    | some m => s.finish thread m
    | none => (none, s)

/-- One event after the other: the calls that are answered, and what is shared in the end. -/
def run (s : Shared) : List Event → List (Call × Answer) × Shared
  | [] => ([], s)
  | event :: events =>
    let (answered, s) := s.step event
    let (answers, s) := s.run events
    (answered.toList ++ answers, s)

end Shared

end Yini
