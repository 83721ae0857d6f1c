import Yini.Compile.Batch

/-!
The workers of a batch.  Each worker goes through its own run of the paths and notes what becomes of
each file; the faults go to a sink that all of them share.  Which worker goes on next is not determined.
When all are finished, what they noted is joined in the order of the paths.
-/

namespace Yini

namespace Batch

/-- A worker: the paths that it still has to compile, and what became of the others. -/
structure Worker where
  todo : List String
  done : List (Option Document) := []

/-- The workers and the sink that they share. -/
structure State where
  workers : List Worker
  sink : List Failure

/-- The workers before they begin. -/
def start (workers : Nat) (paths : List String) (sink : List Failure) : State where
  workers := (deal workers paths).map fun run => { todo := run }
  sink

/-- The next worker to go on compiles one file.  If it has none left, nothing happens. -/
def step (c : Compiler) (s : State) (next : Nat) : State :=
  match s.workers[next]? with
  | some ⟨path :: todo, done⟩ =>
    match c.compileFile path with
    | .ok d => { s with workers := s.workers.set next ⟨todo, done ++ [some d]⟩ }
    | .error fault =>
      { workers := s.workers.set next ⟨todo, done ++ [none]⟩, sink := s.sink ++ [⟨path, fault⟩] }
  | _ => s

/-- The workers go on as the schedule says. -/
def run (c : Compiler) (s : State) (schedule : List Nat) : State := schedule.foldl (step c) s

/-- All files are compiled. -/
def State.Finished (s : State) : Prop := ∀ w ∈ s.workers, w.todo = []

instance (s : State) : Decidable s.Finished :=
  inferInstanceAs (Decidable (∀ w ∈ s.workers, w.todo = []))

/-- What the workers noted, put together with the paths. -/
def State.documents (s : State) (paths : List String) : List (String × Document) :=
  (paths.zip (s.workers.flatMap Worker.done)).filterMap fun (path, d?) => d?.map fun d => (path, d)

end Batch

end Yini
