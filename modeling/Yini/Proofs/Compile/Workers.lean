import Mathlib.Data.List.Basic
import Yini.Compile.Workers

/-!
Many workers compile what one compiles.

Two things are unchanged by each step of a worker: what it has noted together with what it will note
(`Worker.outcomes`), and the faults in the sink together with those still to come, up to the order in
which the workers go on (`sink_step`).  So at the end of a run every path has its own outcome, in the
order of the paths, and the sink holds an interleaving of the faults of the workers
(`Batch.run_finished`).  That dealing out neither loses nor moves a path is arithmetic of the length of
the runs (`flatten_deal`).
-/

namespace Yini

namespace Batch

variable {c : Compiler} {s : State}

/-! ## Dealing out -/

/-- Dealing out paths in runs neither loses nor moves one. -/
theorem flatten_chunks {size : Nat} (h : 0 < size) (paths : List String) :
    (chunks size paths).flatten = paths := by
  induction paths using chunks.induct size with
  | case1 paths hlong ih =>
    rw [chunks, dif_pos hlong, List.flatten_cons, ih, List.take_append_drop]
  | case2 paths hshort =>
    rw [chunks, dif_neg hshort]
    have hempty : paths = [] := by
      by_contra hne
      exact hshort ⟨h, hne⟩
    rw [hempty]
    rfl

/-- **Dealing out neither loses nor moves a path.** -/
theorem flatten_deal {workers : Nat} (h : 0 < workers) (paths : List String) :
    (deal workers paths).flatten = paths := by
  by_cases hempty : paths = []
  · rw [hempty, deal, chunks, dif_neg (fun hlong => hlong.2 rfl)]
    rfl
  · have hlength : 0 < paths.length := List.length_pos_iff.mpr hempty
    exact flatten_chunks (Nat.div_pos (by omega) h) paths

/-! ## Interleaving -/

/-- **Interleaving**: the list takes one element after the other from the front of any of the lists,
    until all are used up. -/
inductive Interleaves {α : Type} : List (List α) → List α → Prop
  | done {ls : List (List α)} (h : ∀ l ∈ ls, l = []) : Interleaves ls []
  | next {ls : List (List α)} {i : Nat} {a : α} {l as : List α} (h : ls[i]? = some (a :: l))
      (hrest : Interleaves (ls.set i l) as) : Interleaves ls (a :: as)

/-- Taking an element from the front of one of the lists. -/
theorem perm_flatten_set {α : Type} {ls : List (List α)} {i : Nat} {a : α} {l : List α}
    (h : ls[i]? = some (a :: l)) : ls.flatten.Perm (a :: (ls.set i l).flatten) := by
  induction ls generalizing i with
  | nil => cases h
  | cons l' ls ih =>
    cases i with
    | zero =>
      cases h
      exact .refl _
    | succ i =>
      have hrest : ls.flatten.Perm (a :: (ls.set i l).flatten) := ih h
      show (l' ++ ls.flatten).Perm (a :: (l' ++ (ls.set i l).flatten))
      exact (hrest.append_left l').trans List.perm_middle

/-- An interleaving has the elements of all lists, each as often as they have it together. -/
theorem Interleaves.perm {α : Type} {ls : List (List α)} {as : List α} (h : Interleaves ls as) :
    as.Perm ls.flatten := by
  induction h with
  | done h =>
    rw [List.flatten_eq_nil_iff.mpr h]
  | next h _ ih => exact (ih.cons _).trans (perm_flatten_set h).symm

/-! ## One step -/

/-- What becomes of a file. -/
def outcome (c : Compiler) (path : String) : Option Document := (c.compileFile path).toOption

/-- What a worker has noted and what it will note. -/
def Worker.outcomes (c : Compiler) (w : Worker) : List (Option Document) :=
  w.done ++ w.todo.map (outcome c)

/-- The faults that a worker will find. -/
def Worker.pending (c : Compiler) (w : Worker) : List Failure := failures c w.todo

/-- A worker that is not finished compiles its next file, and the sink takes the fault if there is one. -/
theorem step_of_todo {next : Nat} {path : String} {todo : List String} {done : List (Option Document)}
    (h : s.workers[next]? = some ⟨path :: todo, done⟩) :
    step c s next = ⟨s.workers.set next ⟨todo, done ++ [outcome c path]⟩, s.sink ++ failures c [path]⟩ := by
  rw [step, h]
  cases hfile : c.compileFile path <;> simp [outcome, failures, hfile, Except.toOption]

/-- **What one step of a worker does**: nothing, or its next path moves from what is to do to what is done. -/
theorem step_cases (c : Compiler) (s : State) (next : Nat) :
    step c s next = s ∨ ∃ path todo done, s.workers[next]? = some ⟨path :: todo, done⟩ ∧
      step c s next =
        ⟨s.workers.set next ⟨todo, done ++ [outcome c path]⟩, s.sink ++ failures c [path]⟩ := by
  rcases hworker : s.workers[next]? with _ | ⟨_ | ⟨path, todo⟩, done⟩
  · left
    rw [step, hworker]
  · left
    rw [step, hworker]
  · exact .inr ⟨path, todo, done, rfl, step_of_todo hworker⟩

/-- Putting back what is there changes nothing. -/
theorem set_of_getElem? {α : Type} {as : List α} {i : Nat} {a : α} (h : as[i]? = some a) :
    as.set i a = as := by
  obtain ⟨hi, rfl⟩ := List.getElem?_eq_some_iff.mp h
  exact List.set_getElem_self hi

/-- A step changes no outcome. -/
theorem outcomes_step (c : Compiler) (s : State) (next : Nat) :
    (step c s next).workers.map (Worker.outcomes c) = s.workers.map (Worker.outcomes c) := by
  rcases step_cases c s next with hstep | ⟨path, todo, done, hworker, hstep⟩
  · rw [hstep]
  · have hold : (s.workers.map (Worker.outcomes c))[next]? =
        some (done ++ outcome c path :: todo.map (outcome c)) := by
      rw [List.getElem?_map, hworker]
      rfl
    rw [hstep, List.map_set, Worker.outcomes, List.append_assoc]
    exact set_of_getElem? hold

/-- What the sink takes at a step stands in front of all that is still to come. -/
theorem sink_step (c : Compiler) (s : State) (next : Nat) {rest : List Failure}
    (hrest : Interleaves ((step c s next).workers.map (Worker.pending c)) rest) :
    ∃ new, (step c s next).sink = s.sink ++ new ∧
      Interleaves (s.workers.map (Worker.pending c)) (new ++ rest) := by
  rcases step_cases c s next with hstep | ⟨path, todo, done, hworker, hstep⟩
  · rw [hstep] at hrest ⊢
    exact ⟨[], (List.append_nil _).symm, hrest⟩
  · have hold : (s.workers.map (Worker.pending c))[next]? =
        some (failures c [path] ++ failures c todo) := by
      rw [List.getElem?_map, hworker, failures, failures, ← List.filterMap_append]
      rfl
    rw [hstep, List.map_set] at hrest
    change Interleaves ((s.workers.map (Worker.pending c)).set next (failures c todo)) rest at hrest
    rw [hstep]
    refine ⟨failures c [path], rfl, ?_⟩
    -- one file has one fault at most
    cases hfile : c.compileFile path with
    | ok d =>
      have hnone : failures c [path] = [] := by simp [failures, hfile]
      rw [hnone, List.nil_append] at hold
      rw [hnone, List.nil_append]
      rwa [set_of_getElem? hold] at hrest
    | error fault =>
      have hone : failures c [path] = [⟨path, fault⟩] := by simp [failures, hfile]
      rw [hone] at hold ⊢
      exact .next hold hrest

/-- A step of a worker that is not finished leaves one file less. -/
theorem todo_step {next : Nat} {path : String} {todo : List String} {done : List (Option Document)}
    (h : s.workers[next]? = some ⟨path :: todo, done⟩) :
    (s.workers.flatMap Worker.todo).length = ((step c s next).workers.flatMap Worker.todo).length + 1 := by
  have hold : (s.workers.map Worker.todo)[next]? = some (path :: todo) := by
    rw [List.getElem?_map, h]
    rfl
  rw [step_of_todo h, List.flatMap, List.flatMap, List.map_set]
  exact (perm_flatten_set hold).length_eq

/-! ## A whole run -/

theorem run_append (c : Compiler) (s : State) (schedule more : List Nat) :
    run c s (schedule ++ more) = run c (run c s schedule) more := List.foldl_append

/-- **No step changes what a worker comes to**: what it has noted and what it will note. -/
theorem outcomes_run (c : Compiler) (s : State) (schedule : List Nat) :
    (run c s schedule).workers.map (Worker.outcomes c) = s.workers.map (Worker.outcomes c) := by
  induction schedule generalizing s with
  | nil => rfl
  | cons next schedule ih => exact (ih (step c s next)).trans (outcomes_step c s next)

/-- **The sink takes an interleaving of what the workers find.** -/
theorem sink_run (schedule : List Nat) (h : (run c s schedule).Finished) :
    ∃ pushed, (run c s schedule).sink = s.sink ++ pushed ∧
      Interleaves (s.workers.map (Worker.pending c)) pushed := by
  induction schedule generalizing s with
  | nil =>
    refine ⟨[], (List.append_nil _).symm, .done fun l hl => ?_⟩
    obtain ⟨w, hw, rfl⟩ := List.mem_map.mp hl
    rw [Worker.pending, h w hw]
    rfl
  | cons next schedule ih =>
    obtain ⟨rest, hsink, hrest⟩ := ih (s := step c s next) h
    obtain ⟨new, hnew, hall⟩ := sink_step c s next hrest
    refine ⟨new ++ rest, ?_, hall⟩
    rw [← List.append_assoc, ← hnew]
    exact hsink

/-- **Every run can be finished**: as long as there is a file left, its worker can go on. -/
theorem exists_finished (c : Compiler) (s : State) : ∃ schedule, (run c s schedule).Finished := by
  by_cases hfinished : s.Finished
  · exact ⟨[], hfinished⟩
  · rw [State.Finished] at hfinished
    push Not at hfinished
    obtain ⟨⟨todo, done⟩, hw, htodo⟩ := hfinished
    obtain ⟨next, hnext⟩ := List.getElem?_of_mem hw
    obtain ⟨path, todo, rfl⟩ := List.exists_cons_of_ne_nil htodo
    have hless := todo_step (c := c) hnext
    obtain ⟨schedule, hrest⟩ := exists_finished c (step c s next)
    exact ⟨next :: schedule, hrest⟩
termination_by (s.workers.flatMap Worker.todo).length
decreasing_by omega

/-! ## The batch -/

/-- The outcomes of all paths, put together with the paths, are the documents. -/
theorem documents_outcomes (c : Compiler) (paths : List String) :
    (paths.zip (paths.map (outcome c))).filterMap (fun (path, d?) => d?.map fun d => (path, d)) =
      documents c paths := by
  induction paths with
  | nil => rfl
  | cons path paths ih =>
    rw [List.map_cons, List.zip_cons_cons, List.filterMap_cons, ih, documents, documents,
      List.filterMap_cons, outcome]
    cases c.compileFile path <;> rfl

/-- What finished workers noted is what became of the paths, in their order. -/
theorem done_run {workers : Nat} (h : 0 < workers) {paths : List String} {sink : List Failure}
    {schedule : List Nat} (hfinished : (run c (start workers paths sink) schedule).Finished) :
    (run c (start workers paths sink) schedule).workers.flatMap Worker.done = paths.map (outcome c) := by
  have hnoted : ∀ w ∈ (run c (start workers paths sink) schedule).workers,
      w.done = w.outcomes c := by
    intro w hw
    rw [Worker.outcomes, hfinished w hw]
    exact (List.append_nil _).symm
  have hstart : (start workers paths sink).workers.map (Worker.outcomes c) =
      (deal workers paths).map (List.map (outcome c)) := List.map_map
  rw [List.flatMap, List.map_congr_left hnoted, outcomes_run, hstart, ← List.map_flatten,
    flatten_deal h]

/-- **Many workers compile what one compiles.**  However many workers there are and in whatever order
    they go on, they can finish; and when they have finished, the documents are those of the paths that
    can be compiled, in the order of the paths, as `compileAll` gives them; the sink has kept what it
    held, and behind that it holds an interleaving of the faults of the workers, one for each path that
    cannot be compiled. -/
theorem run_finished {workers : Nat} (h : 0 < workers) (c : Compiler) (paths : List String)
    (sink : List Failure) (schedule : List Nat) :
    (∃ more, (run c (start workers paths sink) (schedule ++ more)).Finished) ∧
    ((run c (start workers paths sink) schedule).Finished →
      (run c (start workers paths sink) schedule).documents paths = documents c paths ∧
      (compileAll c workers paths).1 = documents c paths ∧
      ∃ pushed, (run c (start workers paths sink) schedule).sink = sink ++ pushed ∧
        Interleaves (compileAll c workers paths).2 pushed ∧ pushed.Perm (failures c paths)) := by
  have hdeal := flatten_deal h paths
  refine ⟨?_, fun hfinished => ⟨?_, ?_, ?_⟩⟩
  · obtain ⟨more, hmore⟩ := exists_finished c (run c (start workers paths sink) schedule)
    exact ⟨more, by rwa [run_append]⟩
  · rw [State.documents, done_run h hfinished, documents_outcomes]
  · show (deal workers paths).flatMap (documents c) = _
    unfold documents
    rw [List.flatMap, ← List.filterMap_flatten, hdeal]
  · obtain ⟨pushed, hsink, hpushed⟩ := sink_run schedule hfinished
    have hstart : (start workers paths sink).workers.map (Worker.pending c) =
        (compileAll c workers paths).2 := List.map_map
    rw [hstart] at hpushed
    refine ⟨pushed, hsink, hpushed, ?_⟩
    have hall : (compileAll c workers paths).2.flatten = failures c paths := by
      show ((deal workers paths).map (failures c)).flatten = _
      unfold failures
      rw [← List.filterMap_flatten, hdeal]
    rw [← hall]
    exact hpushed.perm

/-- A compiler that finds one file only, and that one is empty. -/
def oneFile : Compiler := ⟨.ofTexts (.ofList [("a", "")]), .none, none⟩

/-- Two workers take turns, and one of three paths leads to a file. -/
theorem run_finished_oneFile :
    (run oneFile (start 2 ["b", "a", "c"] []) [1, 0, 0]).Finished ∧
      ((run oneFile (start 2 ["b", "a", "c"] []) [1, 0, 0]).documents ["b", "a", "c"]).map Prod.fst =
        ["a"] ∧
      (run oneFile (start 2 ["b", "a", "c"] []) [1, 0, 0]).sink.map Failure.path = ["c", "b"] ∧
      (run oneFile (start 2 ["b", "a", "c"] []) [1, 0, 0]).sink.Perm
        (failures oneFile ["b", "a", "c"]) := by
  have hfinished : (run oneFile (start 2 ["b", "a", "c"] []) [1, 0, 0]).Finished := by decide +kernel
  obtain ⟨hdocuments, -, pushed, hsink, -, hpushed⟩ :=
    (run_finished (by decide) oneFile ["b", "a", "c"] [] [1, 0, 0]).2 hfinished
  refine ⟨hfinished, ?_, by decide +kernel, ?_⟩
  · rw [hdocuments]
    decide +kernel
  · rw [hsink]
    exact hpushed

end Batch

end Yini
