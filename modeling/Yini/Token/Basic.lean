/-!
Tokens: the words of the notation, and where they stand in a source.  A `Token` is what a piece of
source says; a `Lexeme` is a token in place, with the line and column of its first character and the
range of bytes that it covers.  Every source ends in the token `Token.finish`, which covers nothing.
-/

namespace Yini

/-- The signs of the notation. -/
inductive Mark where
  | openBracket
  | closeBracket
  | openBrace
  | closeBrace
  | openParen
  | closeParen
  | colon
  | comma
  | point
  | assign
  | append
  | plus
  | minus
  | star
  | slash
  | percent
  | atSign
  | dollar
  | hash
  | bang
  | question
  | tilde
deriving DecidableEq

namespace Mark

/-- The sign as it is written. -/
def text : Mark → String
  | openBracket => "["
  | closeBracket => "]"
  | openBrace => "\x7b"
  | closeBrace => "\x7d"
  | openParen => "("
  | closeParen => ")"
  | colon => ":"
  | comma => ","
  | point => "."
  | assign => "="
  | append => "+="
  | plus => "+"
  | minus => "-"
  | star => "*"
  | slash => "/"
  | percent => "%"
  | atSign => "@"
  | dollar => "$"
  | hash => "#"
  | bang => "!"
  | question => "?"
  | tilde => "~"

/-- The sign that consists of this one character. -/
def ofChar? : Char → Option Mark
  | '[' => some openBracket
  | ']' => some closeBracket
  | '{' => some openBrace
  | '}' => some closeBrace
  | '(' => some openParen
  | ')' => some closeParen
  | ':' => some colon
  | ',' => some comma
  | '.' => some point
  | '=' => some assign
  | '+' => some plus
  | '-' => some minus
  | '*' => some star
  | '/' => some slash
  | '%' => some percent
  | '@' => some atSign
  | '$' => some dollar
  | '#' => some hash
  | '!' => some bang
  | '?' => some question
  | '~' => some tilde
  | _ => none

end Mark

/-- A word of the notation. -/
inductive Token where
  | ident (name : String)
  /-- A quoted text, with its escapes replaced. -/
  | string (text : String)
  /-- The digits of a number, perhaps with a point between them. -/
  | number (digits : String)
  | bool (value : Bool)
  | mark (m : Mark)
  /-- The end of the source. -/
  | finish
deriving DecidableEq

namespace Token

/-- The token as messages name it. -/
def describe : Token → String
  | ident name => "identifier '" ++ name ++ "'"
  | string text => "string \"" ++ text ++ "\""
  | number digits => "number " ++ digits
  | bool true => "boolean true"
  | bool false => "boolean false"
  | mark m => "'" ++ m.text ++ "'"
  | finish => "end of input"

end Token

/-- A token in place. -/
structure Lexeme where
  token : Token
  line : Nat
  column : Nat
  /-- The bytes of the source before the token. -/
  start : Nat
  /-- The bytes of the source up to its end. -/
  stop : Nat
deriving DecidableEq

end Yini
