/-!
JSON values and their texts.  Objects are made from members in any order and hold them sorted by
name (`Json.ofMembers`).  There is one text without white space (`Json.compact`) and one with a line
for each part, indented by two spaces a level (`Json.pretty`).
-/

namespace Yini

/-- A JSON value.  A number is the text that it is written as. -/
inductive Json where
  | null
  | bool (b : Bool)
  | number (text : String)
  | string (s : String)
  | array (items : List Json)
  | object (members : List (String × Json))

namespace Json

instance : Inhabited Json := ⟨.null⟩

/-! ## Building -/

/-- The members with one more, at its place in the order of names.  A member of the same name is
    replaced. -/
def insertMember : List (String × Json) → String → Json → List (String × Json)
  | [], k, v => [(k, v)]
  | (k', v') :: ms, k, v =>
    if k = k' then (k, v) :: ms
    else if k < k' then (k, v) :: (k', v') :: ms
    else (k', v') :: insertMember ms k v

/-- An object, with its members sorted by name.  Of several members of one name the last stays. -/
def ofMembers (ms : List (String × Json)) : Json :=
  .object (ms.foldl (fun sorted m => insertMember sorted m.1 m.2) [])

/-- A text, or null. -/
def ofOption (s : Option String) : Json :=
  match s with
  | some s => .string s
  | none => .null

/-! ## Texts -/

/-- The characters that stand for `c` in a string. -/
def escape (c : Char) : List Char :=
  if c = '"' then ['\\', '"']
  else if c = '\\' then ['\\', '\\']
  else if c = '\n' then ['\\', 'n']
  else if c = '\r' then ['\\', 'r']
  else if c = '\t' then ['\\', 't']
  else if c = '\x08' then ['\\', 'b']
  else if c = '\x0c' then ['\\', 'f']
  else if c.toNat < 32 then
    ['\\', 'u', '0', '0', Nat.digitChar (c.toNat / 16), Nat.digitChar (c.toNat % 16)]
  else [c]

/-- A string in quotes. -/
def quote (s : String) : String := String.ofList ('"' :: s.toList.flatMap escape ++ ['"'])

mutual

/-- The text without white space. -/
def compact : Json → String
  | null => "null"
  | bool true => "true"
  | bool false => "false"
  | number text => text
  | string s => quote s
  | array items => "[" ++ String.intercalate "," (compactItems items) ++ "]"
  | object ms => "\x7b" ++ String.intercalate "," (compactMembers ms) ++ "\x7d"
termination_by structural j => j

/-- The texts of the items of an array. -/
def compactItems : List Json → List String
  | [] => []
  | j :: js => j.compact :: compactItems js
termination_by structural js => js

/-- The texts of the members of an object. -/
def compactMembers : List (String × Json) → List String
  | [] => []
  | (k, j) :: ms => (quote k ++ ":" ++ j.compact) :: compactMembers ms
termination_by structural ms => ms

end

/-- Lines between an opening and a closing mark, or the marks alone if there are none. -/
def block (opening closing : String) (level : Nat) (lines : List String) : String :=
  let indent (n : Nat) : String := "\n" ++ String.ofList (List.replicate (2 * n) ' ')
  if lines.isEmpty then opening ++ closing
  else
    opening ++ indent (level + 1) ++ String.intercalate ("," ++ indent (level + 1)) lines ++
      indent level ++ closing

mutual

/-- The text with a line for each part, inside so many levels. -/
def prettyAt (level : Nat) : Json → String
  | null => "null"
  | bool true => "true"
  | bool false => "false"
  | number text => text
  | string s => quote s
  | array items => block "[" "]" level (prettyItems (level + 1) items)
  | object ms => block "\x7b" "\x7d" level (prettyMembers (level + 1) ms)
termination_by structural j => j

/-- The texts of the items of an array. -/
def prettyItems (level : Nat) : List Json → List String
  | [] => []
  | j :: js => j.prettyAt level :: prettyItems level js
termination_by structural js => js

/-- The texts of the members of an object. -/
def prettyMembers (level : Nat) : List (String × Json) → List String
  | [] => []
  | (k, j) :: ms => (quote k ++ ": " ++ j.prettyAt level) :: prettyMembers level ms
termination_by structural ms => ms

end

/-- The text with a line for each part. -/
def pretty (j : Json) : String := j.prettyAt 0

end Json

end Yini
