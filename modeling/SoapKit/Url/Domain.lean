import SoapKit.Text.Split

/-!
# Domain names

A domain name is compared in lower case, and its labels are sent in ASCII: a label with other
characters is written in Punycode (RFC 3492), which lists the ASCII characters first and then, for
every other character in ascending order, how far to advance until it is put in.
-/

namespace SoapKit.Url.Domain

/-! ## Lower case -/

/-- Runs of capital letters beyond ASCII: first, last, the step between them, and the distance to
the small letters. The letters of the Latin, Greek, Cyrillic and Armenian scripts are listed. -/
def capitals : List (Nat × Nat × Nat × Int) :=
  [(0xC0, 0xD6, 1, 32), (0xD8, 0xDE, 1, 32), (0x100, 0x12E, 2, 1), (0x132, 0x136, 2, 1),
    (0x139, 0x147, 2, 1), (0x14A, 0x176, 2, 1), (0x178, 0x178, 1, -121), (0x179, 0x17D, 2, 1),
    (0x1A0, 0x1A4, 2, 1), (0x1CD, 0x1DB, 2, 1), (0x1DE, 0x1EE, 2, 1), (0x1F8, 0x21E, 2, 1),
    (0x222, 0x232, 2, 1), (0x246, 0x24E, 2, 1), (0x386, 0x386, 1, 38), (0x388, 0x38A, 1, 37),
    (0x38C, 0x38C, 1, 64), (0x38E, 0x38F, 1, 63), (0x391, 0x3A1, 1, 32), (0x3A3, 0x3AB, 1, 32),
    (0x400, 0x40F, 1, 80), (0x410, 0x42F, 1, 32), (0x460, 0x480, 2, 1), (0x48A, 0x4BE, 2, 1),
    (0x4C1, 0x4CD, 2, 1), (0x4D0, 0x52E, 2, 1), (0x531, 0x556, 1, 48), (0x1E00, 0x1E94, 2, 1),
    (0x1EA0, 0x1EFE, 2, 1), (0xFF21, 0xFF3A, 1, -65248), (0xFF10, 0xFF19, 1, -65248),
    (0xFF41, 0xFF5A, 1, -65248)]

/-- A character in the form in which domain names are compared. Full-width letters and digits become
ASCII ones. -/
def lower (c : Char) : Char :=
  if c.toNat < 0x80 then c.toLower
  else match capitals.find? fun (first, last, step, _) =>
      first ≤ c.toNat && c.toNat ≤ last && (c.toNat - first) % step == 0 with
    | some (_, _, _, distance) => Char.ofNat (c.toNat + distance).toNat
    | none => c

/-! ## Punycode -/

/-- The digit of a value below 36. -/
def digit (d : Nat) : Char :=
  if d < 26 then Char.ofNat (0x61 + d) else Char.ofNat (0x30 + d - 26)

def digitValue? (c : Char) : Option Nat :=
  if 'a' ≤ c ∧ c ≤ 'z' then some (c.toNat - 0x61)
  else if '0' ≤ c ∧ c ≤ '9' then some (c.toNat - 0x30 + 26)
  else none

/-- The value from which on a digit at some position is followed by another one. -/
def threshold (position bias : Nat) : Nat :=
  if position ≤ bias then 1 else if bias + 26 ≤ position then 26 else position - bias

/-- Divides a distance until it is small, and counts the positions that this takes. -/
def scaleDown (distance position : Nat) : Nat × Nat :=
  if _h : 455 < distance then scaleDown (distance / 35) (position + 36) else (distance, position)
termination_by distance
decreasing_by exact Nat.div_lt_self (by omega) (by omega)

/-- The bias after a distance was written, with `count` characters known by then. -/
def adapt (distance count : Nat) (first : Bool) : Nat :=
  let start := if first then distance / 700 else distance / 2
  let (rest, position) := scaleDown (start + start / count) 0
  position + 36 * rest / (rest + 38)

/-- The digits of a distance, the least significant first. -/
def digits (bias : Nat) : Nat → Nat → Nat → List Char
  | 0, _, _ => []
  | steps + 1, position, distance =>
    let t := threshold position bias
    if distance < t then [digit distance]
    else digit (t + (distance - t) % (36 - t)) ::
      digits bias steps (position + 36) ((distance - t) / (36 - t))

/-- What is known while a label is written. -/
structure Writing where
  written : List Char
  distance : Nat
  bias : Nat
  count : Nat

/-- Goes over one character of the label while `point` is put in. -/
def Writing.pass (basic point : Nat) (w : Writing) (c : Char) : Writing :=
  if c.toNat < point then { w with distance := w.distance + 1 }
  else if c.toNat = point then
    { written := w.written ++ digits w.bias 32 36 w.distance
      distance := 0
      bias := adapt w.distance (w.count + 1) (w.count == basic)
      count := w.count + 1 }
  else w

/-- A list in ascending order with one more number in it. -/
def insertAscending (n : Nat) : List Nat → List Nat
  | [] => [n]
  | m :: rest =>
    if n < m then n :: m :: rest else if n = m then m :: rest else m :: insertAscending n rest

/-- A label in Punycode, without the mark for it. -/
def encode (label : List Char) : List Char :=
  let basic := label.filter (·.toNat < 0x80)
  let points := (label.filter (0x80 ≤ ·.toNat)).foldl (fun ps c => insertAscending c.toNat ps) []
  let start : Writing :=
    { written := if basic.isEmpty then [] else basic ++ ['-']
      distance := 0
      bias := 72
      count := basic.length }
  let (w, _) := points.foldl (fun (w, low) point =>
    let w := { w with distance := w.distance + (point - low) * (w.count + 1) }
    let w := label.foldl (fun w c => w.pass basic.length point c) w
    ({ w with distance := w.distance + 1 }, point + 1)) (start, 0x80)
  w.written

/-- Reads the digits of a distance, with `scale` the weight of the next one. -/
def readDistance (bias : Nat) : Nat → Nat → Nat → List Char → Option (Nat × List Char)
  | _, _, _, [] => none
  | position, scale, distance, c :: rest => do
    let d ← digitValue? c
    let distance := distance + d * scale
    let t := threshold position bias
    if d < t then return (distance, rest)
    else readDistance bias (position + 36) (scale * (36 - t)) distance rest

/-- Puts in the characters whose distances are left to read. -/
def readPoints : Nat → List Char → List Char → Nat → Nat → Nat → Option (List Char)
  | _, [], known, _, _, _ => some known
  | 0, _, _, _, _, _ => none
  | steps + 1, text, known, point, place, bias => do
    let (distance, rest) ← readDistance bias 36 1 0 text
    let count := known.length + 1
    let point := point + (place + distance) / count
    let index := (place + distance) % count
    if 0x110000 ≤ point ∨ (0xD800 ≤ point ∧ point < 0xE000) then none
    else
      readPoints steps rest (known.take index ++ Char.ofNat point :: known.drop index) point
        (index + 1)
        (adapt distance count (place == 0))

/-- The label that a text in Punycode stands for. -/
def decode (text : List Char) : Option (List Char) :=
  let reversed := text.reverse
  match Text.splitOnce '-' reversed with
  | some (tail, basic) => readPoints text.length tail.reverse basic.reverse 0x80 0 72
  | none => readPoints text.length text [] 0x80 0 72

/-! ## Labels -/

/-- The mark of a label in Punycode. -/
def mark : List Char := ['x', 'n', '-', '-']

/-- A label in ASCII. A label that is marked as Punycode has to be it. -/
def label? (label : List Char) : Option (List Char) :=
  let label := label.map lower
  if label.any (0x80 ≤ ·.toNat) then some (mark ++ encode label)
  else match Text.after? mark label with
    | none => some label
    | some text => do
      let decoded ← decode text
      if decoded.any (0x80 ≤ ·.toNat) then some label else none

/-- Whether a character separates labels. -/
def isDot (c : Char) : Bool :=
  c == '.' || c == '\u3002' || c == '\uff0e' || c == '\uff61'

/-- A domain name in lower case and in ASCII. Soft hyphens are left out. -/
def toAscii (name : List Char) : Option (List Char) := do
  let name := (name.filter (· ≠ '\u00ad')).map fun c => if isDot c then '.' else c
  let labels ← (Text.pieces '.' name).mapM label?
  return List.intercalate ['.'] labels

/-- Whether a character may not stand in a domain name. -/
def isForbidden (c : Char) : Bool :=
  c.toNat ≤ 0x20 || c.toNat == 0x7F ||
    ['#', '%', '/', ':', '<', '>', '?', '@', '[', '\\', ']', '^', '|'].contains c

end SoapKit.Url.Domain
