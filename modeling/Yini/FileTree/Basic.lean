import Yini.Fault.Basic
import Yini.Path

/-!
Trees of files.  A path is followed step by step, as it is written: each step leads into a directory, or
up again, and only directories lead anywhere.  A relative path is taken from a base directory, and one
that begins with `~/` from the home directory.
-/

namespace Yini

/-- Files by the places where they are, seen from the root or from the working directory.  Where the
    working directory itself is in the tree is not known.  A step up from the root leads nowhere, so that a
    file has only finitely many normalized paths. -/
structure FileTree where
  /-- The contents of each file. -/
  files : List (Location × ByteArray)
  /-- The directory that `~/` stands for. -/
  home : String

/-- What a path may lead to, step by step. -/
inductive Spot where
  | directory (place : Location)
  | file (content : ByteArray)

namespace FileTree

/-- Whether a place is a directory: the root and the working directory are, what is above them, and what
    has files below it. -/
def isDirectory (t : FileTree) (l : Location) : Bool :=
  l.names.isEmpty || t.files.any fun (place, _) =>
    place.absolute == l.absolute && place.ups == l.ups && l.names.isSuffixOf place.names

/-- What is at a place. -/
def look (t : FileTree) (l : Location) : Except ReadFailure Spot :=
  match t.files.find? (·.1 == l) with
  | some (_, content) => .ok (.file content)
  | none => if t.isDirectory l then .ok (.directory l) else .error .notFound

/-- One step further.  Only directories lead anywhere. -/
def go (t : FileTree) : Spot → Step → Except ReadFailure Spot
  | .file _, _ => .error .notADirectory
  | .directory l, .into name => t.look { l with names := name :: l.names }
  | .directory l, .up =>
    match l.names with
    | _ :: names => .ok (.directory { l with names })
    | [] => .ok (.directory { l with ups := l.ups + 1 })

/-- One piece of a path further.  A piece that is no step stays where it is, unless that is a file. -/
def step (t : FileTree) (s : Spot) (piece : List Char) : Except ReadFailure Spot :=
  match s, Step.ofPiece? piece with
  | s, some next => t.go s next
  | .file _, none => .error .notADirectory
  | s, none => .ok s

/-- What a text leads to, from the working directory or from the root. -/
def walk (t : FileTree) (path : String) : Except ReadFailure Spot :=
  if path.isEmpty then .error .notFound
  else (Path.pieces path.toList).foldlM t.step (.directory ⟨Path.isAbsolute path, 0, []⟩)

/-- The path that is opened for a text: `~/` stands for the home directory, and a relative path is
    taken from the base directory. -/
def resolve (t : FileTree) (base path : String) : String :=
  let expanded :=
    match path.toList with
    | '~' :: '/' :: rest => Path.join t.home (String.ofList rest)
    | _ => path
  if Path.isAbsolute expanded then expanded else Path.join base expanded

/-- Whether a path leads to a file. -/
def isFile (t : FileTree) (base path : String) : Bool :=
  match t.walk (t.resolve base path) with
  | .ok (.file _) => true
  | _ => false

/-- The text of the file that a path leads to. -/
def read (t : FileTree) (base path : String) : Except Fault String :=
  let full := t.resolve base path
  let refuse (failure : ReadFailure) : Except Fault String :=
    .error (.file (.unreadable failure) full)
  match t.walk full with
  | .ok (.file content) =>
    match String.fromUTF8? content with
    | some text => .ok text
    | none => refuse .notText
  | .ok _ => refuse .isADirectory
  | .error failure => refuse failure

/-- Normalized paths, among them all that lead to files.  The names of such a path are the innermost ones of
    a file's place; in front of them stands the root, or the home directory, or the path goes up from the
    base directory. -/
def names (t : FileTree) (base : String) : List String :=
  t.files.flatMap fun (place, _) => (List.range (place.names.length + 1)).flatMap fun n =>
    let inner := place.names.take n
    let climbs := List.range ((Path.ofText base).steps.length + place.ups + 1)
    (⟨true, 0, inner⟩ : Location).text :: (⟨false, 0, inner ++ ["~"]⟩ : Location).text ::
      climbs.map fun ups => (⟨false, ups, inner⟩ : Location).text

end FileTree

end Yini
