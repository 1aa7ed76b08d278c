/-!
# Sets of characters as runs

A set of characters is given by the lengths of the runs of code points that lie alternately outside
and inside of it, from code point 0 on. What follows the last run lies outside.
-/

namespace SoapKit.Text

/-- Whether a number lies inside, where the first run is inside as `inside` says. -/
def inRuns : List Nat → Bool → Nat → Bool
  | [], _, _ => false
  | run :: rest, inside, n => if n < run then inside else inRuns rest (!inside) (n - run)

/-- Whether a character belongs to the set of the given runs. -/
def memberOf (runs : List Nat) (c : Char) : Bool :=
  inRuns runs false c.toNat

end SoapKit.Text
