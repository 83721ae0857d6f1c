import Yini.Compile.Compiler

/-!
Compiling many files.  The paths are dealt out to workers in runs of equal length; each worker
compiles its files in order.  Documents come back in the order of the paths, and the faults of each
worker in its order.
-/

namespace Yini

/-- A file that could not be compiled. -/
structure Failure where
  path : String
  fault : Fault
deriving DecidableEq

namespace Batch

/-- The paths in runs of `size`, the last one perhaps shorter. -/
def chunks (size : Nat) (paths : List String) : List (List String) :=
  if _long : 0 < size ∧ paths ≠ [] then
    paths.take size :: chunks size (paths.drop size)
  else []
termination_by paths.length
decreasing_by
  have := List.length_pos_iff.mpr _long.2
  rw [List.length_drop]
  omega

/-- The runs of paths for a number of workers. -/
def deal (workers : Nat) (paths : List String) : List (List String) :=
  chunks ((paths.length + workers - 1) / workers) paths

/-- The documents of a run, each with its path. -/
def documents (c : Compiler) (paths : List String) : List (String × Document) :=
  paths.filterMap fun path =>
    match c.compileFile path with
    | .ok d => some (path, d)
    | .error _ => none

/-- The files of a run that could not be compiled. -/
def failures (c : Compiler) (paths : List String) : List Failure :=
  paths.filterMap fun path =>
    match c.compileFile path with
    | .ok _ => none
    | .error fault => some ⟨path, fault⟩

/-- Compiles all files with a number of workers: the documents, and for each worker the files that
    could not be compiled. -/
def compileAll (c : Compiler) (workers : Nat) (paths : List String) :
    List (String × Document) × List (List Failure) :=
  let runs := deal workers paths
  (runs.flatMap (documents c), runs.map (failures c))

end Batch

end Yini
