import Yini.Fault.Basic

/-!
Types of a schema.  A type is one of the known names, a sequence whose elements have a type, or some
other name, which every value fits.  `SchemaType.ofText` reads the name of a type, and
`SchemaType.text` is its inverse.
-/

namespace Yini

/-- The known names of types. -/
inductive KnownType where
  | int
  | float
  | bool
  | string
  | color
  | coord
  | path
  | dyna
  | sequence (kind : SequenceKind)
  | record (kind : RecordKind)
deriving DecidableEq

/-- The name of a kind of sequence. -/
def SequenceKind.name : SequenceKind → String
  | array => "array"
  | list => "list"
  | set => "set"

namespace KnownType

/-- The name of a known type. -/
def name : KnownType → String
  | int => "int"
  | float => "float"
  | bool => "bool"
  | string => "string"
  | color => "color"
  | coord => "coord"
  | path => "path"
  | dyna => "dyna"
  | sequence k => k.name
  | record .map => "map"
  | record .struct => "struct"

/-- All known types. -/
def all : List KnownType :=
  [int, float, bool, string, color, coord, path, dyna, sequence .array, sequence .list,
   sequence .set, record .map, record .struct]

/-- Whether a value has the type.  An integer has the type of floats too. -/
def accepts : KnownType → Value → Bool
  | int, .atom (.int _) _ => true
  | float, .atom (.float _) _ => true
  | float, .atom (.int _) _ => true
  | bool, .atom (.bool _) _ => true
  | string, .atom (.string _) _ => true
  | color, .atom (.color _) _ => true
  | coord, .atom (.coord _) _ => true
  | path, .atom (.path _) _ => true
  | dyna, .atom (.dyna _) _ => true
  | sequence k, .sequence k' _ _ => k == k'
  | record k, .record k' _ _ => k == k'
  | _, _ => false

end KnownType

/-- A type of a schema. -/
inductive SchemaType where
  | known (type : KnownType)
  /-- Sequences of one kind whose elements have the type. -/
  | elements (kind : SequenceKind) (element : SchemaType)
  /-- A name that is not known.  Every value fits it. -/
  | other (name : String)
deriving DecidableEq

namespace SchemaType

/-- The name of the type. -/
def text : SchemaType → String
  | known t => t.name
  | elements k e => k.name ++ "[" ++ e.text ++ "]"
  | other name => name

/-- The kind of sequence, and the name of the element type, in a name such as `array[int]`. -/
def elementName? (cs : List Char) : Option (SequenceKind × List Char) :=
  let inside (kind : SequenceKind) : Option (SequenceKind × List Char) :=
    match cs.dropWhile (· != '[') with
    | _ :: rest => if rest.getLast? = some ']' then some (kind, rest.dropLast) else none
    | [] => none
  let container := cs.takeWhile (· != '[')
  if container = "array".toList then inside .array
  else if container = "list".toList then inside .list
  else if container = "set".toList then inside .set
  else none

/-- The name of the elements is shorter than that of their sequence, so reading a type comes to an end. -/
theorem length_lt_of_elementName? {cs : List Char} {r : SequenceKind × List Char}
    (h : elementName? cs = some r) : r.2.length < cs.length := by
  have key : ∀ kind : SequenceKind,
      (match cs.dropWhile (· != '[') with
        | _ :: rest => if rest.getLast? = some ']' then some (kind, rest.dropLast) else none
        | [] => none) = some r → r.2.length < cs.length := by
    intro kind hk
    have hle : (cs.dropWhile (· != '[')).length ≤ cs.length :=
      (List.dropWhile_sublist _).length_le
    split at hk
    · next rest heq =>
      rw [heq] at hle
      split at hk
      · cases hk
        simp only [List.length_dropLast, List.length_cons] at *
        omega
      · simp at hk
    · simp at hk
  unfold elementName? at h
  dsimp only at h
  split at h
  · exact key _ h
  · split at h
    · exact key _ h
    · split at h
      · exact key _ h
      · simp at h

/-- The type of a name. -/
def ofChars (cs : List Char) : SchemaType :=
  match KnownType.all.find? (fun t => t.name.toList == cs) with
  | some t => known t
  | none =>
    match _inner : elementName? cs with
    | some (kind, inner) => elements kind (ofChars inner)
    | none => other (String.ofList cs)
termination_by cs.length
decreasing_by exact length_lt_of_elementName? _inner

/-- The type of a name. -/
def ofText (name : String) : SchemaType := ofChars name.toList

/-- Checks a value, under the key that it has in messages.  An element has the key of its sequence
    with a pair of brackets. -/
def check : SchemaType → String → Value → Except Violation Unit
  | known t, key, v =>
    if t.accepts v then .ok () else .error (.typeMismatch key t.name v.typeName)
  | other _, _, _ => .ok ()
  | elements k e, key, v =>
    match v with
    | .sequence k' items _ =>
      if k = k' then items.forM (e.check (key ++ "[]"))
      else .error (.typeMismatch key (elements k e).text v.typeName)
    | v => .error (.typeMismatch key (elements k e).text v.typeName)

end SchemaType

end Yini
