import Yini.Token.Lexer

/-!
Reading lexemes one after the other.  A `Parser` is what is left of a source that has been cut into
lexemes, and a rule of the grammar is a computation in `Grammar` that takes lexemes from the front.
A rule that fails leaves the parser where it failed, so that a caller can see how far it came.
-/

namespace Yini

/-! ## The state -/

/-- What is left to read of a source. -/
structure Parser where
  file : Option String
  source : List Char
  /-- The lexemes to come, without the end of the source. -/
  rest : List Lexeme
  /-- The end of the source. -/
  finish : Lexeme
  /-- The bytes of the source up to the end of the lexeme read last. -/
  lastStop : Nat
  /-- Whether the sections to come hold schema rules. -/
  schemaMode : Bool
  /-- The number of lexemes to come, so that it need not be counted again and again. -/
  left : Nat
  left_eq : left = rest.length

namespace Parser

/-- A parser before the lexemes of a source. -/
def start (file : Option String) (source : List Char) (lexemes : List Lexeme) (finish : Lexeme) : Parser :=
  ⟨file, source, lexemes, finish, 0, false, lexemes.length, rfl⟩

/-- A parser at the beginning of a source. -/
def ofSource (file : Option String) (source : String) : Except Fault Parser :=
  match Lexeme.read file source with
  | .ok (lexemes, finish) => .ok (start file source.toList lexemes finish)
  | .error fault => .error fault

/-- The next lexeme.  The end of the source comes again and again. -/
def current (p : Parser) : Lexeme :=
  match p.rest with
  | [] => p.finish
  | l :: _ => l

/-- The token after the next one. -/
def second (p : Parser) : Token :=
  match p.rest with
  | _ :: l :: _ => l.token
  | _ => p.finish.token

/-- The parser behind the next lexeme. -/
def advance (p : Parser) : Parser :=
  match _rest : p.rest with
  | [] => p
  | l :: rest =>
    { p with
      rest
      lastStop := l.stop
      left := p.left - 1
      left_eq := by simp [p.left_eq, _rest] }

/-- Whether the next lexeme begins where the last one ended, with nothing in between. -/
def isAdjacent (p : Parser) : Bool := p.current.start == p.lastStop

theorem left_advance (p : Parser) : p.advance.left = p.left - 1 := by
  unfold advance
  split
  · next h => simp [p.left_eq, h]
  · rfl

end Parser

/-- The characters after the first `n` bytes. -/
def dropBytes : Nat → List Char → List Char
  | _, [] => []
  | 0, cs => cs
  | n, c :: cs => dropBytes (n - c.utf8Size) cs

/-- The characters of the first `n` bytes. -/
def takeBytes : Nat → List Char → List Char
  | _, [] => []
  | 0, _ => []
  | n, c :: cs => c :: takeBytes (n - c.utf8Size) cs

/-! ## Rules -/

/-- A rule of the grammar: takes lexemes from the front of the parser. -/
abbrev Grammar (α : Type) : Type := EStateM Fault Parser α

namespace Grammar

/-- The next token. -/
def peek : Grammar Token := do return (← get).current.token

/-- The position of the next token. -/
def here : Grammar Span := do
  let p ← get
  return p.current.span p.file

/-- Takes the next token. -/
def bump : Grammar Unit := modify Parser.advance

/-- Fails at the next token. -/
def fail {α : Type} (cause : ParseCause) : Grammar α := do
  let p ← get
  throw (.parse cause p.current.token.describe (p.current.span p.file))

/-- Whether a mark comes next. -/
def sees (m : Mark) : Grammar Bool := do return (← peek) = .mark m

/-- Takes a mark if it comes next. -/
def eat (m : Mark) : Grammar Bool := do
  if ← sees m then
    bump
    return true
  else
    return false

/-- Takes a mark that has to come next. -/
def expect (m : Mark) (w : Wanted) : Grammar Unit := do
  unless ← eat m do fail (.wanted w)

/-- Takes a name that has to come next, with its position. -/
def expectName (w : Wanted) : Grammar (String × Span) := do
  match ← peek with
  | .ident name =>
    let span ← here
    bump
    return (name, span)
  | _ => fail (.wanted w)

/-- How many lexemes are left.  It bounds every repetition, because each round takes one at least. -/
def remaining : Grammar Nat := do return (← get).left

end Grammar

end Yini
