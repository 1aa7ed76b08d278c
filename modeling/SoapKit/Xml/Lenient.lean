import SoapKit.Text.Blank
import SoapKit.Xml.Assembly
import SoapKit.Xml.Reference

/-!
# Lenient reading

The lenient dialect takes markup as it comes: names are not checked, comments may hold anything,
document types are passed over, and values keep their line breaks. A text is first cut into pieces
of markup. The pieces then drive an assembly one after the other, so that the first fault in the
text is the one reported.
-/

namespace SoapKit.Xml.Lenient

open Text (isXmlBlank)

/-- A piece of a text. Tags hold what stands between their angle brackets. -/
inductive Markup where
  | text (raw : List Char)
  | literal (data : List Char)
  | opening (inside : List Char)
  | empty (inside : List Char)
  | closing (name : List Char)
  /-- A comment, a processing instruction, a declaration or a document type. -/
  | passed
  /-- Markup that does not end or is none; nothing follows it. -/
  | broken
  deriving Repr, DecidableEq

/-! ## Cutting a text into pieces -/

/-- Takes characters up to the first closing angle bracket at which `done` holds of the characters
taken so far, newest first. -/
def takeUntil (done : List Char → Bool) : List Char → List Char → Option (List Char × List Char)
  | _, [] => none
  | taken, c :: rest =>
    if c = '>' ∧ done taken then some (taken, rest) else takeUntil done (c :: taken) rest

/-- Takes a tag up to the first closing angle bracket outside of quotes. -/
def takeTag : Option Char → List Char → Option (List Char × List Char)
  | _, [] => none
  | none, c :: rest =>
    if c = '>' then some ([], rest)
    else (takeTag (if c = '"' ∨ c = '\'' then some c else none) rest).map
      fun (inside, after) => (c :: inside, after)
  | some quote, c :: rest =>
    (takeTag (if c = quote then none else some quote) rest).map
      fun (inside, after) => (c :: inside, after)

/-- Two hyphens end a comment that has room for both its pairs of hyphens. -/
def endsComment (taken : List Char) : Bool :=
  taken.length > 4 && "--".toList.isPrefixOf taken

/-- Two brackets end a literal section. -/
def endsLiteral (taken : List Char) : Bool :=
  "]]".toList.isPrefixOf taken

/-- A document type ends where its angle brackets balance. -/
def endsDocumentType (taken : List Char) : Bool :=
  taken.count '<' == taken.count '>'

/-- Whether a text begins with `lead`, whatever the case of ASCII letters. -/
def beginsLike (lead : String) (s : List Char) : Bool :=
  (s.take lead.length).map Char.toUpper == lead.toList

/-- Reads what begins with an exclamation mark. -/
def readBang (s : List Char) : Option (Markup × List Char) :=
  match s with
  | _ :: '-' :: _ => do
    let (_, rest) ← takeUntil endsComment [] s
    if "!--".toList.isPrefixOf s then some (.passed, rest) else none
  | _ :: '[' :: _ => do
    let (taken, rest) ← takeUntil endsLiteral [] s
    let inside := (taken.drop 2).reverse
    if beginsLike "![CDATA[" inside then some (.literal (inside.drop 8), rest) else none
  | _ :: 'D' :: _ | _ :: 'd' :: _ => do
    let (taken, rest) ← takeUntil endsDocumentType [] s
    let inside := taken.reverse
    if beginsLike "!DOCTYPE" inside && !(inside.drop 8).all isXmlBlank then some (.passed, rest)
    else none
  | _ => none

/-- The name of a closing tag: blanks and form feeds after it do not count. -/
def closingName (s : List Char) : List Char :=
  let isFiller (c : Char) : Bool := isXmlBlank c || c == '\x0c'
  if s.all isFiller then s else (s.reverse.dropWhile isFiller).reverse

/-- Reads the markup after an opening angle bracket. A closing tag may lack its angle bracket at the
end of the text. -/
def readMarkup (s : List Char) : Option (Markup × List Char) :=
  match s with
  | '!' :: _ => readBang s
  | '/' :: rest =>
    let (inside, after) := Text.cut '>' rest
    some (.closing (closingName inside), after)
  | '?' :: _ =>
    let (inside, after) := Text.cut '>' s
    if inside.length > 2 ∧ inside.getLast? = some '?' then some (.passed, after) else none
  | _ => do
    let (inside, after) ← takeTag none s
    if inside.getLast? = some '/' then some (.empty inside.dropLast, after)
    else some (.opening inside, after)

theorem takeUntil_length {done : List Char → Bool} {s taken inside after : List Char}
    (h : takeUntil done taken s = some (inside, after)) : after.length < s.length := by
  induction s generalizing taken with
  | nil => simp [takeUntil] at h
  | cons c rest ih =>
    simp only [takeUntil] at h
    split at h
    · simp only [Option.some.injEq, Prod.mk.injEq] at h
      simp [← h.2]
    · exact Nat.lt_succ_of_lt (ih h)

theorem takeTag_length {quote : Option Char} {s inside after : List Char}
    (h : takeTag quote s = some (inside, after)) : after.length < s.length := by
  induction s generalizing quote inside after with
  | nil => cases quote <;> simp [takeTag] at h
  | cons c rest ih =>
    cases quote with
    | none =>
      simp only [takeTag] at h
      split at h
      · simp only [Option.some.injEq, Prod.mk.injEq] at h
        simp [← h.2]
      · simp only [Option.map_eq_some_iff] at h
        obtain ⟨⟨i, a⟩, hi, heq⟩ := h
        simp only [Prod.mk.injEq] at heq
        have := ih hi
        rw [heq.2] at this
        exact Nat.lt_succ_of_lt this
    | some q =>
      simp only [takeTag, Option.map_eq_some_iff] at h
      obtain ⟨⟨i, a⟩, hi, heq⟩ := h
      simp only [Prod.mk.injEq] at heq
      have := ih hi
      rw [heq.2] at this
      exact Nat.lt_succ_of_lt this

theorem readBang_length {s after : List Char} {m : Markup} (h : readBang s = some (m, after)) :
    after.length ≤ s.length := by
  unfold readBang at h
  split at h
  all_goals first
    | (simp only [bind, Option.bind_eq_some_iff] at h
       obtain ⟨⟨taken, rest⟩, ht, h⟩ := h
       have := takeUntil_length ht
       simp only at h
       split at h
       · simp only [Option.some.injEq, Prod.mk.injEq] at h
         rw [← h.2]
         exact Nat.le_of_lt this
       · simp at h)
    | simp at h

theorem readMarkup_length {s after : List Char} {m : Markup} (h : readMarkup s = some (m, after)) :
    after.length ≤ s.length := by
  unfold readMarkup at h
  split at h
  · exact readBang_length h
  · simp only [Option.some.injEq, Prod.mk.injEq] at h
    rw [← h.2]
    exact Nat.le_trans Text.cut_snd_length_le (Nat.le_succ _)
  · simp only at h
    split at h
    · simp only [Option.some.injEq, Prod.mk.injEq] at h
      rw [← h.2]
      exact Text.cut_snd_length_le
    · simp at h
  · simp only [bind, Option.bind_eq_some_iff] at h
    obtain ⟨⟨inside, rest⟩, ht, h⟩ := h
    have := takeTag_length ht
    simp only at h
    split at h <;> simp only [Option.some.injEq, Prod.mk.injEq] at h <;>
      exact h.2 ▸ Nat.le_of_lt this

/-- The pieces of a text in order. An angle bracket that ends the text is passed over. -/
def scan : List Char → List Markup
  | [] => []
  | '<' :: rest =>
    if rest.isEmpty then []
    else match _h : readMarkup rest with
      | some (markup, after) => markup :: scan after
      | none => [.broken]
  | c :: rest =>
    .text (c :: rest.takeWhile (· != '<')) :: scan (rest.dropWhile (· != '<'))
termination_by s => s.length
decreasing_by
  · have := readMarkup_length _h
    simp only [List.length_cons]
    omega
  · have := List.IsSuffix.length_le (List.dropWhile_suffix (l := rest) (· != '<'))
    simp only [List.length_cons]
    omega

/-! ## Attributes -/

/-- The name of a tag: everything up to the first blank. -/
def tagName (inside : List Char) : List Char :=
  inside.takeWhile fun c => !isXmlBlank c

/-- Reads attributes: a key, an equals sign and a quoted value, with blanks where one likes. A key
that was seen before is a fault. -/
def readAttributes (seen : List (List Char)) (s : List Char) : Option (List (String × String)) :=
  match _hs : s.dropWhile isXmlBlank with
  | [] => some []
  | first :: more =>
    let inKey := fun c => c != '=' && !isXmlBlank c
    let key := first :: more.takeWhile inKey
    match _he : (more.dropWhile inKey).dropWhile isXmlBlank with
    | '=' :: value =>
      if seen.contains key then none
      else match _hv : value.dropWhile isXmlBlank with
        | quote :: quoted =>
          if quote = '"' ∨ quote = '\'' then
            match _hq : Text.splitOnce quote quoted with
            | some (raw, after) => do
              let data ← unescape raw
              let others ← readAttributes (key :: seen) after
              return (String.ofList key, String.ofList data) :: others
            | none => none
          else none
        | [] => none
    | _ => none
termination_by s.length
decreasing_by
  have h1 := List.IsSuffix.length_le (List.dropWhile_suffix (l := s) isXmlBlank)
  have h2 := List.IsSuffix.length_le (List.dropWhile_suffix (l := more) inKey)
  have h3 := List.IsSuffix.length_le
    (List.dropWhile_suffix (l := more.dropWhile inKey) isXmlBlank)
  have h4 := List.IsSuffix.length_le (List.dropWhile_suffix (l := value) isXmlBlank)
  have h5 := congrArg List.length (Text.splitOnce_eq_some _hq).1
  rw [_hs] at h1
  rw [_he] at h3
  rw [_hv] at h4
  simp only [List.length_cons, List.length_append] at *
  omega

/-! ## Driving an assembly -/

/-- The state between two pieces: the document so far, and the names of the open tags as written,
innermost first. -/
structure Reading where
  assembly : Assembly
  openNames : List (List Char)

/-- Opens the element of a tag. -/
def Reading.openElement (r : Reading) (inside : List Char) : Except ParseError Assembly :=
  let name := tagName inside
  match readAttributes [] (inside.drop name.length) with
  | some attributes => r.assembly.openRaw (String.ofList name) attributes
  | none => .error .malformed

/-- Takes one piece into account. A closing tag has to name the innermost open one. -/
def Reading.step (r : Reading) : Markup → Except ParseError Reading
  | .text raw =>
    match unescape raw with
    | some data => return { r with assembly := ← r.assembly.addText (String.ofList data) }
    | none => .error .malformed
  | .literal data => return { r with assembly := ← r.assembly.addText (String.ofList data) }
  | .opening inside => return ⟨← r.openElement inside, tagName inside :: r.openNames⟩
  | .empty inside => do
    let opened ← r.openElement inside
    return { r with assembly := ← opened.close (String.ofList (tagName inside)) }
  | .closing name =>
    match r.openNames with
    | [] => .error .malformed
    | top :: outer =>
      if top = name then return ⟨← r.assembly.close (String.ofList name), outer⟩
      else .error .malformed
  | .passed => .ok r
  | .broken => .error .malformed

/-- Drops the mark that may stand in front of a text in UTF-8. -/
def dropMark : List Char → List Char
  | '\uFEFF' :: rest => rest
  | s => s

/-- Reads a document in the lenient dialect. -/
def read (s : List Char) : Except ParseError Document := do
  let r ← (scan (dropMark s)).foldlM Reading.step ⟨Assembly.start, []⟩
  r.assembly.finish

end SoapKit.Xml.Lenient
