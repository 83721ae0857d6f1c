import Yini.Json.Reader
import Yini.Resolve.Providers

/-!
Options of a compilation, as they are read from JSON: an object with the members `missing_env` and
`file_name`, or a list with the two values in this order.  What is not given has its default, and
unknown members are passed over.
-/

namespace Yini

/-- What can be chosen for a compilation. -/
structure CompileOptions where
  missing : MissingVariable := .empty
  fileName : Option String := none
deriving DecidableEq

/-- The word for a policy. -/
def MissingVariable.text : MissingVariable → String
  | empty => "empty_string"
  | refuse => "error"

/-- The policy of a word. -/
def MissingVariable.ofText? (word : String) : Option MissingVariable :=
  [empty, refuse].find? (·.text == word)

namespace CompileOptions

/-- The policy that a value stands for: its word, alone or as the one member of an object that holds
    nothing. -/
def missing? : Json.Node → Option MissingVariable
  | .string (some word) => MissingVariable.ofText? word
  | .object [(some word, .null)] => MissingVariable.ofText? word
  | _ => none

/-- The file name that a value stands for.  Null stands for none. -/
def fileName? : Json.Node → Option (Option String)
  | .null => some none
  | .string (some name) => some (some name)
  | _ => none

/-- Options from the members of an object.  Each may be given once. -/
def ofMembers? (members : List (Option String × Json.Node)) : Option CompileOptions := do
  let names ← members.mapM Prod.fst
  if 1 < names.count "missing_env" ∨ 1 < names.count "file_name" then none
  let given (name : String) : Option Json.Node :=
    (members.find? (·.1 == some name)).map Prod.snd
  let missing ← match given "missing_env" with
    | some node => missing? node
    | none => some .empty
  let fileName ← match given "file_name" with
    | some node => fileName? node
    | none => some none
  return ⟨missing, fileName⟩

/-- Options from the items of a list. -/
def ofItems? : List Json.Node → Option CompileOptions
  | [] => some {}
  | [m] => do return ⟨← missing? m, none⟩
  | [m, f] => do return ⟨← missing? m, ← fileName? f⟩
  | _ => none

/-- The options that a JSON text stands for. -/
def ofJson? (text : String) : Option CompileOptions := do
  match ← Json.read? text with
  | .object members => ofMembers? members
  | .array items => ofItems? items
  | _ => none

end CompileOptions

end Yini
