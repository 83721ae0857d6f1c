import Yini.Fault.Basic
import Yini.Text.CharClass
import Yini.Token.Basic

/-!
Cutting a source into tokens.  A `Cursor` stands between two characters of the source; `Cursor.skip`
passes over white space and comments, `Token.scan` reads the token at the front of the characters
that follow, and `Cursor.next` puts both together.  `Lexeme.read` cuts the whole source.

The token read, and its length, depend only on the characters from the cursor on, never on the
position; `Token.scan_pos` says that it takes at least one character, so that reading ends.
-/

namespace Yini

/-! ## Positions -/

/-- A place in a source: what is still to come, and the position of its first character. -/
structure Cursor where
  rest : List Char
  offset : Nat
  line : Nat
  column : Nat

namespace Cursor

/-- The beginning of a source. -/
def start (source : List Char) : Cursor := ⟨source, 0, 1, 1⟩

/-- The position as a span of a file. -/
def span (file : Option String) (p : Cursor) : Span := ⟨file, p.line, p.column⟩

/-- The cursor after `c`, in front of `rest`.  A line break leads to the first column of the next
    line, every other character to the next column. -/
def after (p : Cursor) (c : Char) (rest : List Char) : Cursor :=
  if c = '\n' then ⟨rest, p.offset + c.utf8Size, p.line + 1, 1⟩
  else ⟨rest, p.offset + c.utf8Size, p.line, p.column + 1⟩

@[simp] theorem rest_after (p : Cursor) (c : Char) (rest : List Char) :
    (p.after c rest).rest = rest := by
  unfold after; split <;> rfl

/-- The cursor `n` characters further on, or at the end of the source. -/
def advance : Nat → Cursor → Cursor
  | 0, p => p
  | n + 1, p =>
    match p.rest with
    | [] => p
    | c :: rest => advance n (p.after c rest)

/-- Going on by some characters drops them from what follows, and no more. -/
theorem rest_advance (n : Nat) (p : Cursor) : (p.advance n).rest = p.rest.drop n := by
  induction n generalizing p with
  | zero => rfl
  | succ n ih =>
    unfold advance
    split
    · next h => simp [h]
    · next c rest h => simp [ih, h]

/-- The end of the source. -/
def finish (p : Cursor) : Cursor := p.advance p.rest.length

end Cursor

/-! ## White space and comments -/

/-- What the gap between two tokens consists of at one place: white space, a comment up to the end
    of the line, or a comment in brackets that began at a known place. -/
inductive Gap where
  | blank
  | line
  | block (origin : Cursor)

/-- Passes over white space and comments.  A comment that is not closed gives the place where it
    began.  The characters are those that `p` stands before. -/
def Gap.skip : Gap → List Char → Cursor → Except Cursor Cursor
  | .blank, [], p => .ok p
  | .blank, '/' :: '/' :: cs, p => skip .line cs ((p.after '/' ('/' :: cs)).after '/' cs)
  | .blank, '/' :: '*' :: cs, p => skip (.block p) cs ((p.after '/' ('*' :: cs)).after '*' cs)
  | .blank, c :: cs, p => if Text.isBlank c then skip .blank cs (p.after c cs) else .ok p
  | .line, [], p => .ok p
  | .line, '\n' :: cs, p => skip .blank cs (p.after '\n' cs)
  | .line, c :: cs, p => skip .line cs (p.after c cs)
  | .block origin, [], _ => .error origin
  | .block _, '*' :: '/' :: cs, p => skip .blank cs ((p.after '*' ('/' :: cs)).after '/' cs)
  | .block origin, c :: cs, p => skip (.block origin) cs (p.after c cs)

/-- The place of the next token. -/
def Cursor.skip (p : Cursor) : Except Cursor Cursor := Gap.skip .blank p.rest p

/-- Passing over white space and comments leaves no more to read than there was. -/
theorem Gap.length_skip_le (g : Gap) (cs : List Char) (p q : Cursor) (hp : p.rest = cs)
    (h : g.skip cs p = .ok q) : q.rest.length ≤ cs.length := by
  fun_induction Gap.skip g cs p <;> simp_all <;> grind

/-! ## Tokens at the front -/

namespace Token

/-- The character that a backslash and `c` stand for in a string. -/
def unescape : Char → Char
  | 'n' => '\n'
  | 't' => '\t'
  | 'r' => '\r'
  | c => c

/-- The text up to the closing quote, and the number of characters with the quote.  What has been
    read is kept in reverse, and its length in the source in `count`. -/
def scanString : List Char → List Char → Nat → Option (List Char × Nat)
  | [], _, _ => none
  | '"' :: _, text, count => some (text.reverse, count + 1)
  | '\\' :: c :: cs, text, count => scanString cs (unescape c :: text) (count + 2)
  | c :: cs, text, count => scanString cs (c :: text) (count + 1)

/-- The digits at the front, with the digits after a point if there are any. -/
def scanNumber (cs : List Char) : List Char :=
  let whole := cs.takeWhile Char.isDigit
  match cs.drop whole.length with
  | '.' :: cs' =>
    match cs'.takeWhile Char.isDigit with
    | [] => whole
    | fraction => whole ++ '.' :: fraction
  | _ => whole

/-- The token that a word stands for: `true` and `false` are truth values. -/
def ofWord (word : String) : Token :=
  if word = "true" then bool true else if word = "false" then bool false else ident word

/-- The token at the front of the characters, and how many of them it takes. -/
def scan : List Char → Except LexCause (Token × Nat)
  | [] => .ok (finish, 0)
  | '+' :: '=' :: _ => .ok (mark .append, 2)
  | '"' :: cs =>
    match scanString cs [] 1 with
    | some (text, count) => .ok (string (String.ofList text), count)
    | none => .error .openString
  | c :: cs =>
    match Mark.ofChar? c with
    | some m => .ok (mark m, 1)
    | none =>
      if c.isDigit then
        let digits := scanNumber (c :: cs)
        .ok (number (String.ofList digits), digits.length)
      else if Text.startsName c then
        let word := c :: cs.takeWhile Text.continuesName
        .ok (ofWord (String.ofList word), word.length)
      else .error (.unexpected c)

theorem ofWord_ne_finish (word : String) : ofWord word ≠ finish := by
  unfold ofWord; split
  · simp
  · split <;> simp

/-- A number that starts with a digit has at least this one. -/
theorem scanNumber_ne_nil {c : Char} (h : c.isDigit = true) (cs : List Char) :
    0 < (scanNumber (c :: cs)).length := by
  unfold scanNumber
  simp only [List.takeWhile_cons, h, if_true, List.length_cons, List.drop_succ_cons]
  split
  · split <;> simp
  · simp

/-- The end of a text is behind all its characters, the closing mark included. -/
theorem count_le_scanString {cs text : List Char} {count : Nat} {r : List Char × Nat}
    (h : scanString cs text count = some r) : count < r.2 := by
  fun_induction scanString cs text count <;> grind

/-- A token takes a character at least, unless it is the end. -/
theorem scan_pos {cs : List Char} {t : Token} {n : Nat} (h : scan cs = .ok (t, n))
    (ht : t ≠ finish) : 0 < n := by
  unfold scan at h
  split at h
  · simp_all
  · simp_all; omega
  · split at h
    · next hs => have := count_le_scanString hs; simp_all; omega
    · simp at h
  · next c cs _ _ =>
    split at h
    · simp_all; omega
    · split at h
      · next hd =>
        have := scanNumber_ne_nil hd cs
        simp_all
      · split at h
        · simp_all; omega
        · simp at h

end Token

/-! ## One token after the other -/

/-- Reads the next token.  After a fault the cursor stands before the character that starts no
    token, or, if a comment or a string is not closed, at the end. -/
def Cursor.next (file : Option String) (p : Cursor) : Except Fault Lexeme × Cursor :=
  match p.skip with
  | .error origin => (.error (.lex .openComment (origin.span file)), p.finish)
  | .ok p =>
    match Token.scan p.rest with
    | .ok (token, count) =>
      let q := p.advance count
      (.ok ⟨token, p.line, p.column, p.offset, q.offset⟩, q)
    | .error .openString => (.error (.lex .openString (p.span file)), p.finish)
    | .error cause => (.error (.lex cause (p.span file)), p)

/-- **Every token takes at least one character**, so reading comes to an end. -/
theorem Cursor.length_next_lt {file : Option String} {p q : Cursor} {l : Lexeme}
    (h : p.next file = (.ok l, q)) (hl : l.token ≠ .finish) : q.rest.length < p.rest.length := by
  unfold Cursor.next at h
  split at h
  · simp at h
  · next p' hs =>
    have hle := Gap.length_skip_le _ _ _ _ rfl hs
    split at h
    · next token count ht =>
      simp only [Prod.mk.injEq, Except.ok.injEq] at h
      obtain ⟨rfl, rfl⟩ := h
      have hpos := Token.scan_pos ht hl
      rw [Cursor.rest_advance, List.length_drop]
      have : p'.rest ≠ [] := by
        intro hnil
        rw [hnil] at ht
        simp only [Token.scan, Except.ok.injEq, Prod.mk.injEq] at ht
        exact hl ht.1.symm
      have := List.length_pos_iff.mpr this
      omega
    · simp at h
    · simp at h

namespace Lexeme

/-- The lexemes from a cursor on, with those read before in reverse, and the end of the source. -/
def readFrom (file : Option String) (p : Cursor) (before : List Lexeme) :
    Except Fault (List Lexeme × Lexeme) :=
  match _next : p.next file with
  | (.error fault, _) => .error fault
  | (.ok l, q) =>
    if _more : l.token = .finish then .ok (before.reverse, l) else readFrom file q (l :: before)
termination_by p.rest.length
decreasing_by exact Cursor.length_next_lt _next _more

/-- Cuts a source into lexemes, and gives its end as a lexeme of its own.  The first fault ends the
    reading. -/
def read (file : Option String) (source : String) : Except Fault (List Lexeme × Lexeme) :=
  readFrom file (.start source.toList) []

/-- Where the token stands. -/
def span (file : Option String) (l : Lexeme) : Span := ⟨file, l.line, l.column⟩

end Lexeme

end Yini
