/-!
# Fresh names

Names are handed out so that no two are equal. A name that is taken gets a number behind an
underscore; the numbers begin one above the count of taken names that start with it and go up until
one is free.
-/

namespace SoapKit.Naming

/-- The names taken so far. -/
structure FreshNames where
  taken : List String
  deriving Repr, DecidableEq, Inhabited

namespace FreshNames

def empty : FreshNames := ⟨[]⟩

/-- Takes a name, whether it was taken before or not. -/
def reserve (names : FreshNames) (name : String) : FreshNames :=
  ⟨names.taken ++ [name]⟩

def numbered (base : String) (number : Nat) : String :=
  base ++ "_" ++ toString number

/-- The first number from `number` on whose name is free. Among more numbers than there are taken
names one is free, so as many steps as names are enough. -/
def firstFree (taken : List String) (base : String) : Nat → Nat → Nat
  | 0, number => number
  | steps + 1, number =>
    if taken.contains (numbered base number) then firstFree taken base steps (number + 1)
    else number

def startNumber (names : FreshNames) (base : String) : Nat :=
  names.taken.countP (fun name => base.toList.isPrefixOf name.toList) + 1

/-- The free name for a base. -/
def choose (names : FreshNames) (base : String) : String :=
  if names.taken.contains base then
    numbered base (firstFree names.taken base names.taken.length (names.startNumber base))
  else base

/-- Takes the free name for a base. -/
def allocate (names : FreshNames) (base : String) : String × FreshNames :=
  (names.choose base, names.reserve (names.choose base))

end FreshNames

end SoapKit.Naming
