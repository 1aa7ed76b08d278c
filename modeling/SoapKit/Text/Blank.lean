/-!
# Blank characters

Two notions of blank occur in this library. Unicode's White_Space property decides what surrounds a
value and which character data is empty; the four blanks of XML separate names and attributes.
-/

namespace SoapKit.Text

/-- The characters of Unicode's White_Space property. -/
def isBlank (c : Char) : Bool :=
  let n := c.toNat
  (9 ≤ n && n ≤ 13) || n == 0x20 || n == 0x85 || n == 0xA0 || n == 0x1680 ||
    (0x2000 ≤ n && n ≤ 0x200A) || n == 0x2028 || n == 0x2029 || n == 0x202F || n == 0x205F ||
    n == 0x3000

/-- The blanks of XML: space, tab, carriage return and line feed. -/
def isXmlBlank (c : Char) : Bool :=
  c == ' ' || c == '\t' || c == '\r' || c == '\n'

theorem isBlank_of_isXmlBlank {c : Char} (h : isXmlBlank c = true) : isBlank c = true := by
  simp only [isXmlBlank, Bool.or_eq_true, beq_iff_eq] at h
  rcases h with ((rfl | rfl) | rfl) | rfl <;> decide

/-! ## Trimming -/

/-- Removes blanks from the front. -/
def trimStart (s : List Char) : List Char :=
  s.dropWhile isBlank

/-- Removes blanks from the back. -/
def trimEnd (s : List Char) : List Char :=
  (s.reverse.dropWhile isBlank).reverse

/-- Removes blanks from both ends. -/
def trim (s : List Char) : List Char :=
  trimEnd (trimStart s)

/-- A text without the blanks around it. -/
def trimmed (s : String) : String :=
  String.ofList (trim s.toList)

/-- The words between the blanks of a text. -/
def words (s : String) : List String :=
  let (last, done) := s.toList.foldr (fun c (word, done) =>
    if isBlank c then ([], if word.isEmpty then done else String.ofList word :: done)
    else (c :: word, done)) ([], [])
  if last.isEmpty then done else String.ofList last :: done

def isAllBlank (s : String) : Bool :=
  s.toList.all isBlank

@[simp] theorem trimStart_nil : trimStart [] = [] := rfl

@[simp] theorem trim_nil : trim [] = [] := rfl

theorem trimStart_cons_of_not {c : Char} {s : List Char} (h : isBlank c = false) :
    trimStart (c :: s) = c :: s := by
  simp [trimStart, h]

theorem trimStart_cons_of_blank {c : Char} {s : List Char} (h : isBlank c = true) :
    trimStart (c :: s) = trimStart s := by
  simp [trimStart, h]

end SoapKit.Text
