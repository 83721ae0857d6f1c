import Yini.Fault.Basic

/-!
What a document may refer to outside itself: environment variables and localized texts.  A key
without a localized text stands for itself; a variable that is not set is empty or refused, as the
policy says.
-/

namespace Yini

/-- What a variable that is not set stands for. -/
inductive MissingVariable where
  /-- The empty text. -/
  | empty
  /-- Nothing: it is a fault. -/
  | refuse
deriving DecidableEq

/-- The values that come from outside a document. -/
structure Providers where
  /-- The text of an environment variable. -/
  variableText? : String → Option String
  /-- The text that stands for a key in the language of the user. -/
  localText? : String → Option String
  missing : MissingVariable

namespace Providers

/-- No variables and no localized texts. -/
def none : Providers := ⟨fun _ => .none, fun _ => .none, .empty⟩

/-- The value of an environment variable. -/
def environment (p : Providers) (name : String) (span : Span) : Except Fault Value :=
  match p.variableText? name, p.missing with
  | some text, _ => .ok (.atom (.string text) span)
  | .none, .empty => .ok (.atom (.string "") span)
  | .none, .refuse => .error (.compile (.environmentMissing name) (some span))

/-- The localized text of a key. -/
def localized (p : Providers) (key : String) (span : Span) : Value :=
  .atom (.string ((p.localText? key).getD key)) span

end Providers

end Yini
