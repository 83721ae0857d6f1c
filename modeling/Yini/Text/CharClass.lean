import Yini.Text.Alphabetic
import Yini.Text.Numeric

/-!
Classes of characters.  What separates tokens, what starts a name and what continues one is decided
by Unicode properties: `White_Space`, `Alphabetic`, and the number categories.  A property is a list
of ascending closed ranges, and `inRanges` looks a code point up in one.
-/

namespace Yini.Text

/-! ## Looking a code point up -/

/-- Whether `n` lies in one of the ranges.  The ranges ascend, so a range that begins above `n` ends
    the search. -/
def inRanges : List (Nat × Nat) → Nat → Bool
  | [], _ => false
  | (lo, hi) :: rest, n => if n < lo then false else if n ≤ hi then true else inRanges rest n

/-! ## The classes -/

/-- The closed ranges of code points with the property `White_Space`. -/
def blankRanges : List (Nat × Nat) :=
  [(0x9, 0xD), (0x20, 0x20), (0x85, 0x85), (0xA0, 0xA0), (0x1680, 0x1680), (0x2000, 0x200A),
   (0x2028, 0x2029), (0x202F, 0x202F), (0x205F, 0x205F), (0x3000, 0x3000)]

/-- White space: the characters that separate tokens. -/
def isBlank (c : Char) : Bool := inRanges blankRanges c.toNat

/-- Letters, in the sense of the property `Alphabetic`. -/
def isAlphabetic (c : Char) : Bool := inRanges alphabeticRanges c.toNat

/-- Letters and numbers. -/
def isAlphanumeric (c : Char) : Bool := isAlphabetic c || inRanges numericRanges c.toNat

/-- A character that may start a name. -/
def startsName (c : Char) : Bool := isAlphabetic c || c == '_'

/-- A character that may continue a name. -/
def continuesName (c : Char) : Bool := isAlphanumeric c || c == '_'

theorem continuesName_of_startsName {c : Char} (h : startsName c = true) :
    continuesName c = true := by
  simp only [startsName, continuesName, isAlphanumeric, Bool.or_eq_true] at *
  rcases h with h | h
  · exact Or.inl (Or.inl h)
  · exact Or.inr h

/-! ## Trimming -/

/-- The characters without the white space at their end. -/
def trimEnd (cs : List Char) : List Char := (cs.reverse.dropWhile isBlank).reverse

/-- The characters without the white space at either end. -/
def trim (cs : List Char) : List Char := trimEnd (cs.dropWhile isBlank)

example : trim [' ', 'a', ' ', 'b', '\u3000'] = ['a', ' ', 'b'] := by decide

end Yini.Text
