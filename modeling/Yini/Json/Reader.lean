import Yini.Text.CharClass

/-!
Reading JSON, strictly: no comments, no commas at the end, no numbers with extra zeros.  The text is
cut into marks and values (`Json.Piece`), and these are put together to a tree (`Json.Node`).

A string may contain halves of surrogate pairs, written as escapes, and is then no text.  Such a
string is an error only where its text is needed.
-/

namespace Yini.Json

/-! ## Pieces -/

/-- A piece of a JSON text. -/
inductive Piece where
  | mark (c : Char)
  | null
  | bool (b : Bool)
  | number
  /-- A string, if it is a text. -/
  | string (text : Option String)
deriving DecidableEq

/-- The value of a hexadecimal digit. -/
def hexDigit? (c : Char) : Option Nat :=
  if c.isDigit then some (c.toNat - 48)
  else if 'a' ≤ c ∧ c ≤ 'f' then some (c.toNat - 87)
  else if 'A' ≤ c ∧ c ≤ 'F' then some (c.toNat - 55)
  else none

/-- The number of four hexadecimal digits. -/
def hex4? (a b c d : Char) : Option Nat :=
  match hexDigit? a, hexDigit? b, hexDigit? c, hexDigit? d with
  | some a, some b, some c, some d => some (4096 * a + 256 * b + 16 * c + d)
  | _, _, _, _ => none

/-- The character of an escape of one letter. -/
def shortEscape? : Char → Option Char
  | '"' => some '"'
  | '\\' => some '\\'
  | '/' => some '/'
  | 'b' => some '\x08'
  | 'f' => some '\x0c'
  | 'n' => some '\n'
  | 'r' => some '\r'
  | 't' => some '\t'
  | _ => none

/-- The code points of a string, up to its closing quote, and what follows.  Halves of surrogate
    pairs stay apart, and what has been read is kept in reverse. -/
def scanString : List Char → List Nat → Option (List Nat × List Char)
  | [], _ => none
  | '"' :: rest, before => some (before.reverse, rest)
  | '\\' :: 'u' :: a :: b :: c :: d :: rest, before =>
    match hex4? a b c d with
    | some n => scanString rest (n :: before)
    | none => none
  | '\\' :: c :: rest, before =>
    match shortEscape? c with
    | some c => scanString rest (c.toNat :: before)
    | none => none
  | c :: rest, before => if c.toNat < 32 then none else scanString rest (c.toNat :: before)

/-- Joins the halves of surrogate pairs.  A half that stands alone makes the string no text. -/
def joinSurrogates : List Nat → Option (List Char)
  | [] => some []
  | [n] => if 0xD800 ≤ n ∧ n ≤ 0xDFFF then none else some [Char.ofNat n]
  | n :: m :: rest =>
    if 0xD800 ≤ n ∧ n ≤ 0xDBFF then
      if 0xDC00 ≤ m ∧ m ≤ 0xDFFF then
        (joinSurrogates rest).map (Char.ofNat (0x10000 + 1024 * (n - 0xD800) + (m - 0xDC00)) :: ·)
      else none
    else if 0xDC00 ≤ n ∧ n ≤ 0xDFFF then none
    else (joinSurrogates (m :: rest)).map (Char.ofNat n :: ·)

/-- Passes over digits, of which there must be one at least. -/
def skipDigits (cs : List Char) : Option (List Char) :=
  match cs with
  | c :: rest => if c.isDigit then some (rest.dropWhile Char.isDigit) else none
  | [] => none

/-- Passes over an unsigned number. -/
def skipNumber (cs : List Char) : Option (List Char) := do
  let rest ← match cs with
    | '0' :: rest =>
      match rest with
      | c :: _ => if c.isDigit then none else some rest
      | [] => some rest
    | cs => skipDigits cs
  let rest ← match rest with
    | '.' :: rest => skipDigits rest
    | rest => some rest
  let exponent (rest : List Char) : Option (List Char) :=
    match rest with
    | '+' :: rest => skipDigits rest
    | '-' :: rest => skipDigits rest
    | rest => skipDigits rest
  match rest with
    | 'e' :: rest => exponent rest
    | 'E' :: rest => exponent rest
    | rest => some rest

/-- The piece at the front of a text, and what follows. -/
def piece? : List Char → Option (Piece × List Char)
  | 'n' :: 'u' :: 'l' :: 'l' :: rest => some (.null, rest)
  | 't' :: 'r' :: 'u' :: 'e' :: rest => some (.bool true, rest)
  | 'f' :: 'a' :: 'l' :: 's' :: 'e' :: rest => some (.bool false, rest)
  | '"' :: rest => do
    let (points, rest) ← scanString rest []
    return (.string ((joinSurrogates points).map String.ofList), rest)
  | '-' :: rest => do return (.number, ← skipNumber rest)
  | c :: rest =>
    if c ∈ ['[', ']', '{', '}', ':', ','] then some (.mark c, rest)
    else do return (.number, ← skipNumber (c :: rest))
  | [] => none

/-- Whether a character may stand between pieces. -/
def isSpace (c : Char) : Bool := c == ' ' || c == '\t' || c == '\n' || c == '\r'

/-- The pieces of a text.  `n` bounds their number. -/
def piecesFrom : Nat → List Char → List Piece → Option (List Piece)
  | 0, _, _ => none
  | n + 1, cs, before =>
    match cs.dropWhile isSpace with
    | [] => some before.reverse
    | cs =>
      match piece? cs with
      | some (p, rest) => piecesFrom n rest (p :: before)
      | none => none

/-- The pieces of a text.  Each takes a character at least. -/
def pieces? (text : String) : Option (List Piece) :=
  piecesFrom (text.toList.length + 1) text.toList []

/-! ## Trees -/

/-- A JSON value as it was written.  Numbers are not told apart. -/
inductive Node where
  | null
  | bool (b : Bool)
  | number
  | string (text : Option String)
  | array (items : List Node)
  | object (members : List (Option String × Node))

mutual

/-- The value at the front of the pieces, and what follows.  `n` bounds the number of values. -/
def node? : Nat → List Piece → Option (Node × List Piece)
  | 0, _ => none
  | n + 1, ps =>
    match ps with
    | .null :: rest => some (.null, rest)
    | .bool b :: rest => some (.bool b, rest)
    | .number :: rest => some (.number, rest)
    | .string s :: rest => some (.string s, rest)
    | .mark '[' :: .mark ']' :: rest => some (.array [], rest)
    | .mark '[' :: rest => items? n rest []
    | .mark '{' :: .mark '}' :: rest => some (.object [], rest)
    | .mark '{' :: rest => members? n rest []
    | _ => none

/-- The items of an array up to its closing mark; those read before are kept in reverse. -/
def items? : Nat → List Piece → List Node → Option (Node × List Piece)
  | 0, _, _ => none
  | n + 1, ps, before =>
    match node? n ps with
    | some (item, .mark ',' :: rest) => items? n rest (item :: before)
    | some (item, .mark ']' :: rest) => some (.array (item :: before).reverse, rest)
    | _ => none

/-- The members of an object up to its closing mark; those read before are kept in reverse. -/
def members? : Nat → List Piece → List (Option String × Node) → Option (Node × List Piece)
  | 0, _, _ => none
  | n + 1, ps, before =>
    match ps with
    | .string k :: .mark ':' :: ps =>
      match node? n ps with
      | some (v, .mark ',' :: rest) => members? n rest ((k, v) :: before)
      | some (v, .mark '}' :: rest) => some (.object ((k, v) :: before).reverse, rest)
      | _ => none
    | _ => none

end

/-- The value of a text.  Each step of `node?` takes a piece, except that items of arrays and members
    of objects start where it stands, so twice the number of pieces bounds the steps. -/
def read? (text : String) : Option Node := do
  let ps ← pieces? text
  match ← node? (2 * ps.length + 1) ps with
  | (node, []) => return node
  | _ => none

end Yini.Json
