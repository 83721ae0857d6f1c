import Yini.Fault.Basic
import Yini.Path
import Yini.Proofs.Table

/-!
Where sources come from.  A `Source` knows which paths lead to files and what is read from them.  Its
files have finitely many normalized paths, so following includes from file to file comes to an end.

The simplest kind is a table of texts (`Source.ofTexts`), where a path is looked up as it is written.
-/

namespace Yini

/-- Files that can be read. -/
structure Source where
  /-- Whether a path leads to a file. -/
  isFile : String → Bool
  /-- The text of the file that a path leads to. -/
  read : String → Except Fault String
  /-- Normalized paths, among them all that lead to files. -/
  names : List String
  complete : ∀ path, isFile (Path.normalize path) → Path.normalize path ∈ names

/-- Files that are texts in a table. -/
def Source.ofTexts (texts : Table String) : Source where
  isFile := texts.contains
  read path :=
    match texts.get? path with
    | some text => .ok text
    | none => .error (.file .unknownPath path)
  names := texts.keys
  complete _ := Table.contains_iff.mp

end Yini
