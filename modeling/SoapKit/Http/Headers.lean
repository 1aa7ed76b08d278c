import SoapKit.Text.Blank
import SoapKit.Text.Split

/-!
# Header lists

Headers are a list of names and values in order. A name may occur several times, and the case of its
ASCII letters does not matter.
-/

namespace SoapKit.Http

/-- Whether two names differ at most in the case of ASCII letters. -/
def sameName (a b : String) : Bool :=
  a.toList.map Char.toLower == b.toList.map Char.toLower

/-- A list of headers. -/
structure Headers where
  entries : List (String × String)
  deriving Repr, DecidableEq, Inhabited

namespace Headers

def empty : Headers := ⟨[]⟩

/-- Adds a header at the end. -/
def add (h : Headers) (name value : String) : Headers :=
  ⟨h.entries ++ [(name, value)]⟩

/-- Removes all headers of a name. -/
def remove (h : Headers) (name : String) : Headers :=
  ⟨h.entries.filter fun entry => !sameName entry.1 name⟩

/-- Replaces all headers of a name by one at the end. -/
def set (h : Headers) (name value : String) : Headers :=
  (h.remove name).add name value

def getAll (h : Headers) (name : String) : List String :=
  (h.entries.filter fun entry => sameName entry.1 name).map (·.2)

def get? (h : Headers) (name : String) : Option String :=
  (h.getAll name).head?

def isEmpty (h : Headers) : Bool :=
  h.entries.isEmpty

/-! ## Reading -/

/-- Goes on with the value of the last header. -/
def extendLast (entries : List (String × String)) (more : String) : List (String × String) :=
  match entries.getLast? with
  | some (name, value) => entries.dropLast ++ [(name, value ++ " " ++ more)]
  | none => []

/-- Takes a line into account. Blank lines and status lines are passed over, a line that begins with
a space or a tab goes on with the header before it, and any other line without a colon is passed
over. -/
def takeLine (entries : List (String × String)) (line : String) : List (String × String) :=
  let line := String.ofList (line.toList.reverse.dropWhile (· == '\r')).reverse
  if Text.isAllBlank line || (Text.after? "HTTP/".toList line.toList).isSome then entries
  else if line.toList.head?.any fun c => c == ' ' || c == '\t' then
    extendLast entries (Text.trimmed line)
  else match Text.splitOnce ':' line.toList with
    | some (name, value) =>
      entries ++ [(String.ofList (Text.trim name), String.ofList (Text.trim value))]
    | none => entries

def read (raw : String) : Headers :=
  ⟨(Text.lines raw).foldl takeLine []⟩

end Headers

/-! ## Parameters -/

/-- Removes a character from both ends as often as it stands there. -/
def stripAround (c : Char) (s : List Char) : List Char :=
  ((s.dropWhile (· == c)).reverse.dropWhile (· == c)).reverse

/-- The value of a parameter when a piece of a header gives it: a name, an equals sign and a value
with or without double quotes. -/
def parameterOf (name : String) (piece : List Char) : Option String := do
  let (key, value) ← Text.splitOnce '=' piece
  if sameName (String.ofList (Text.trim key)) name then
    some (String.ofList (stripAround '"' (Text.trim value)))
  else none

/-- The value of a parameter of a content type. Every semicolon separates parameters. -/
def contentTypeParameter (contentType name : String) : Option String :=
  ((Text.pieces ';' contentType.toList).drop 1).findSome? (parameterOf name)

end SoapKit.Http
