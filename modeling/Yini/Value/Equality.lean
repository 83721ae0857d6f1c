import Yini.Value.Basic

/-!
Equality of values as configuration: `Value.same` compares contents and leaves positions out, takes
records as equal whatever the order of their fields, and compares floats as numbers, so that the two
zeros are equal and a float that is no number differs from itself.
-/

namespace Yini

/-- Whether two points have the same kind and coordinates. -/
def Coord.same (c d : Coord) : Bool :=
  c.x.same d.x && c.y.same d.y && c.z.same d.z && c.spatial == d.spatial

/-- Whether two atoms are equal, floats compared as numbers. -/
def Atom.same : Atom → Atom → Bool
  | .float x, .float y => x.same y
  | .coord c, .coord d => c.same d
  | a, b => a == b

namespace Value

mutual

/-- Whether two values have the same contents. -/
def same : Value → Value → Bool
  | atom a _, atom b _ => a.same b
  | sequence k vs _, sequence k' ws _ => k == k' && sameItems vs ws
  | record k fs _, record k' gs _ => k == k' && fs.length == gs.length && sameFields fs gs
  | binary l op r _, binary l' op' r' _ => op == op' && same l l' && same r r'
  | neg v _, neg w _ => same v w
  | rule m d lo hi _, rule m' d' lo' hi' _ =>
    m == m' && sameOption d d' && sameOption lo lo' && sameOption hi hi'
  | _, _ => false
termination_by structural v => v

/-- Whether two lists have the same contents, place by place. -/
def sameItems : List Value → List Value → Bool
  | [], [] => true
  | v :: vs, w :: ws => same v w && sameItems vs ws
  | _, _ => false
termination_by structural vs => vs

/-- Whether each field has a field of the same name and contents in `gs`. -/
def sameFields : List (String × Value) → Entries Value → Bool
  | [], _ => true
  | (k, v) :: fs, gs =>
    (match gs.get? k with
      | some w => same v w
      | none => false) && sameFields fs gs
termination_by structural fs => fs

/-- Whether both are absent, or both there with the same contents. -/
def sameOption : Option Value → Option Value → Bool
  | none, none => true
  | some v, some w => same v w
  | _, _ => false
termination_by structural o => o

end

example : same (.atom (.int 1) .none) (.atom (.int 1) ⟨none, 3, 4⟩) = true := by decide

end Value

end Yini
