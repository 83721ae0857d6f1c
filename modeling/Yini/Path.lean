/-!
Paths as texts.  A path is absolute or relative and goes through steps, each into a directory or up
again; `Path.location` is where it leads without a look at any directory, and `Path.normalize` is
the one text for that place.  Files are told apart by these texts, so `sub/../a` and `./a` are one.

Joining works on the texts (`Path.join`) and normalizes nothing.
-/

namespace Yini

/-! ## Texts -/

namespace Path

/-- Whether a path starts at the root. -/
def isAbsolute (path : String) : Bool :=
  match path.toList with
  | '/' :: _ => true
  | _ => false

/-- What stands between the separators, with the empty pieces. -/
def pieces : List Char → List (List Char)
  | [] => [[]]
  | c :: cs =>
    if c = '/' then [] :: pieces cs
    else
      match pieces cs with
      | [] => [[c]]
      | p :: ps => (c :: p) :: ps

/-- The text of a path in a directory.  An absolute path stays as it is. -/
def join (directory path : String) : String :=
  if isAbsolute path then path
  else if directory.isEmpty || directory.toList.getLast? = some '/' then directory ++ path
  else directory ++ "/" ++ path

end Path

/-! ## Steps and places -/

/-- A step of a path. -/
inductive Step where
  | up
  | into (name : String)
deriving DecidableEq

/-- A path as its steps.  Empty pieces and `.` are no steps. -/
structure Path where
  absolute : Bool
  steps : List Step
deriving DecidableEq

/-- A place, seen from the root or from an unknown directory: so many levels up, and then through
    the named directories, the innermost first. -/
structure Location where
  absolute : Bool
  ups : Nat
  names : List String
deriving DecidableEq

namespace Step

/-- The step that a piece of a path stands for. -/
def ofPiece? : List Char → Option Step
  | [] => none
  | ['.'] => none
  | ['.', '.'] => some up
  | name => some (into (String.ofList name))

end Step

namespace Location

/-- The place one step further.  There is no step up from the root. -/
def step (l : Location) : Step → Location
  | .into name => { l with names := name :: l.names }
  | .up =>
    match l.names with
    | _ :: names => { l with names }
    | [] => if l.absolute then l else { l with ups := l.ups + 1 }

/-- The text of a place. -/
def text (l : Location) : String :=
  (if l.absolute then "/" else "") ++
    String.intercalate "/" (List.replicate l.ups ".." ++ l.names.reverse)

end Location

namespace Path

/-- The path that a text stands for. -/
def ofText (text : String) : Path where
  absolute := isAbsolute text
  steps := (pieces text.toList).filterMap Step.ofPiece?

/-- The path without its last step.  The root, and a path without steps, give the path without steps
    that is relative. -/
def parent (p : Path) : Path :=
  match p.steps with
  | [] => ⟨false, []⟩
  | steps => { p with steps := steps.dropLast }

/-- A path continued by the steps of a relative one. -/
def append (p q : Path) : Path := { p with steps := p.steps ++ q.steps }

/-- Where a path leads. -/
def location (p : Path) : Location := p.steps.foldl Location.step ⟨p.absolute, 0, []⟩

/-- The text of the place where a path leads. -/
def normalize (text : String) : String := (ofText text).location.text

example : normalize "a/./b/../c" = "a/c" := by decide
example : normalize "../a/../../b" = "../../b" := by decide
example : normalize "/../a//b/" = "/a/b" := by decide

end Path

end Yini
