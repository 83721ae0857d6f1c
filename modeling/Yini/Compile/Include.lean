import Yini.Grammar.Document
import Yini.Source

/-!
Includes.  A document that has an include list stands for all the documents named there, one after
the other, with itself merged in last.  Each file is loaded once, at its first mention, so including
a file that is being loaded adds nothing.
-/

namespace Yini

/-- The file name of an entry of the include list. -/
def includeName? : Value → Option String
  | .atom (.string s) _ => some s
  | .atom (.path p) _ => some p
  | _ => none

/-- The normalized path of a file that is named in another one: relative to the directory of that
    file, unless it starts at the root or in the home directory. -/
def includePath (file : Option String) (name : String) : String :=
  let fromHome : Bool := ['~', '/'].isPrefixOf name.toList
  if fromHome || Path.isAbsolute name then Path.normalize name
  else
    let directory : Path :=
      match file with
      | some f => (Path.ofText f).parent
      | none => ⟨false, []⟩
    (directory.append (Path.ofText name)).location.text

/-- A computation that keeps the normalized paths of the files that have been loaded. -/
abbrev Loading (α : Type) : Type := StateT (List String) (Except Fault) α

/-- One entry of an include list.  `load` gives the document of the text of a file with its includes. -/
def includeEntry (source : Source) (file : Option String) (load : String → String → Loading Document)
    (merged : Document) (entry : Value) : Loading Document := do
  match includeName? entry with
  | none => throw (.compile (.includeEntry entry.typeName) (some entry.span))
  | some name =>
    let path := includePath file name
    if path ∈ (← get) then return merged
    modify (path :: ·)
    if source.isFile path then
      let text ← source.read path
      return merged.merge (← load path text)
    else throw (.file .includeMissing path)

/-- The document of a text with its includes, if `load` gives that of the text of a file. -/
def expandWith (source : Source) (load : String → String → Loading Document) (file : Option String)
    (text : String) : Loading Document := do
  let current ← Document.ofSource file text
  match current.sections.get? includeName with
  | none => return current
  | some list =>
    let merged ← list.registry.foldlM (includeEntry source file load) Document.empty
    return merged.merge current

/-- The document of a text with its includes.  `idle` are paths, among them all that lead to files and are not
    being loaded.  The list gets shorter with every file, and so the recursion ends; no file is missing
    from it (`expand_names`). -/
def expand (source : Source) (idle : List String) (file : Option String) (text : String) :
    Loading Document :=
  expandWith source (fun path text =>
    if _idle : path ∈ idle then expand source (idle.erase path) (some path) text
    else throw (.file .includeMissing path)) file text
termination_by idle.length
decreasing_by
  have := List.length_pos_of_mem _idle
  rw [List.length_erase_of_mem _idle]
  omega

/-- The document of a text with its includes, and the paths of the files that were loaded.  The file
    that the text comes from, if it has a name, is not loaded again. -/
def gather (source : Source) (file : Option String) (text : String) :
    Except Fault (Document × List String) :=
  expand source source.names file text (file.toList.map Path.normalize)

end Yini
