import SoapKit.Http.Headers
import SoapKit.Text.Utf8

/-!
# Multipart bodies

A multipart body is framed by a delimiter, two hyphens and the boundary, at the beginning of lines:
it opens with one, each part ends at one, and two more hyphens after the last one close it. The line
break before a delimiter belongs to the delimiter. A part begins with its headers, and a part that
is itself multipart is split in the same way.
-/

namespace SoapKit.Http

/-- Why a body is not split into parts. -/
inductive MultipartError where
  | noContent
  | badContent
  | badBoundaryEnd
  | missingBoundary
  | badChunk
  deriving Repr, DecidableEq

def MultipartError.message : MultipartError → String
  | .noContent => "No content body"
  | .badContent => "Bad content body"
  | .badBoundaryEnd => "Bad boundary end of body part"
  | .missingBoundary => "Multipart content type has no boundary"
  | .badChunk => "Malformed chunked transfer encoding"

/-- A part of a multipart body, with its own parts when it is multipart itself. -/
inductive Part where
  | mk (headers : Headers) (body : Bytes) (parts : Option (List Part))
  deriving Inhabited

namespace Part

def headers : Part → Headers
  | mk headers .. => headers

def body : Part → Bytes
  | mk _ body _ => body

def parts : Part → Option (List Part)
  | mk _ _ parts => parts

end Part

def ascii (s : String) : Bytes :=
  Text.encode s

/-- What follows a line break at the front, where a line feed by itself is one too. -/
def afterLineBreak : Bytes → Option Bytes
  | 13 :: 10 :: rest => some rest
  | 10 :: rest => some rest
  | _ => none

/-- What follows an empty line at the front, with the line break before it. -/
def afterEmptyLine : Bytes → Option Bytes
  | 13 :: 10 :: 13 :: 10 :: rest => some rest
  | 10 :: 10 :: rest => some rest
  | _ => none

/-- The bytes before and after the first empty line. -/
def splitAtEmptyLine : Bytes → Option (Bytes × Bytes)
  | [] => none
  | byte :: rest =>
    match afterEmptyLine (byte :: rest) with
    | some after => some ([], after)
    | none => (splitAtEmptyLine rest).map fun (head, after) => (byte :: head, after)

/-- The headers and the rest of a part. A line break at the front leaves the headers out. -/
def splitHead (s : Bytes) : Option (Bytes × Bytes) :=
  match afterLineBreak s with
  | some rest => some ([], rest)
  | none => splitAtEmptyLine s

/-- Bytes, the newest first, without the line break that ends them. -/
def dropLineBreak : Bytes → Bytes
  | 10 :: 13 :: earlier => earlier
  | 10 :: earlier => earlier
  | taken => taken

/-- The bytes before the first delimiter at the beginning of a line, and those after it; `taken` are
the bytes already passed, the newest first. -/
def splitAtDelimiter (delimiter : Bytes) : Bytes → Bytes → Option (Bytes × Bytes)
  | _, [] => none
  | taken, byte :: rest =>
    if delimiter.isPrefixOf (byte :: rest) ∧ (taken = [] ∨ taken.head? = some 10) then
      some ((dropLineBreak taken).reverse, (byte :: rest).drop delimiter.length)
    else splitAtDelimiter delimiter (byte :: taken) rest

def delimiterOf (boundary : String) : Bytes :=
  ascii "--" ++ Text.encode boundary

/-- The boundary that headers announce, when they announce a multipart body. -/
def announcedBoundary (headers : Headers) : Except MultipartError (Option String) :=
  match headers.get? "content-type" with
  | none => .ok none
  | some contentType =>
    let lead := (Text.trimStart contentType.toList).map Char.toLower
    if (Text.after? "multipart/".toList lead).isSome then
      match contentTypeParameter contentType "boundary" with
      | some boundary => if boundary.isEmpty then .error .missingBoundary else .ok (some boundary)
      | none => .error .missingBoundary
    else .ok none

/-- What follows the delimiter that opens a body. -/
def openBody (delimiter content : Bytes) : Except MultipartError Bytes :=
  if content.isEmpty then .error .noContent
  else if delimiter.isPrefixOf content then
    match afterLineBreak (content.drop delimiter.length) with
    | some rest => .ok rest
    | none => .error .badContent
  else .error .badContent

/-! ## Lengths -/

theorem afterLineBreak_length {s rest : Bytes} (h : afterLineBreak s = some rest) :
    rest.length < s.length := by
  unfold afterLineBreak at h
  split at h
  · next more =>
    cases h
    simp only [List.length_cons]
    omega
  · next more _ =>
    cases h
    exact Nat.lt_succ_self _
  · cases h

theorem afterEmptyLine_length {s rest : Bytes} (h : afterEmptyLine s = some rest) :
    rest.length < s.length := by
  unfold afterEmptyLine at h
  split at h
  · next more =>
    cases h
    simp only [List.length_cons]
    omega
  · next more =>
    cases h
    simp only [List.length_cons]
    omega
  · cases h

theorem splitAtEmptyLine_length {s head rest : Bytes} (h : splitAtEmptyLine s = some (head, rest)) :
    rest.length < s.length := by
  induction s generalizing head rest with
  | nil => simp [splitAtEmptyLine] at h
  | cons byte more ih =>
    simp only [splitAtEmptyLine] at h
    split at h
    · rename_i after hafter
      simp only [Option.some.injEq, Prod.mk.injEq] at h
      exact h.2 ▸ afterEmptyLine_length hafter
    · simp only [Option.map_eq_some_iff] at h
      obtain ⟨⟨hd, a⟩, hp, heq⟩ := h
      simp only [Prod.mk.injEq] at heq
      have := ih hp
      rw [heq.2] at this
      exact Nat.lt_succ_of_lt this

theorem splitHead_length {s head rest : Bytes} (h : splitHead s = some (head, rest)) :
    rest.length < s.length := by
  unfold splitHead at h
  split at h
  · rename_i after hafter
    simp only [Option.some.injEq, Prod.mk.injEq] at h
    exact h.2 ▸ afterLineBreak_length hafter
  · exact splitAtEmptyLine_length h

theorem dropLineBreak_length_le (taken : Bytes) : (dropLineBreak taken).length ≤ taken.length := by
  unfold dropLineBreak
  split
  · next earlier =>
    simp only [List.length_cons]
    omega
  · next earlier _ => exact Nat.le_succ _
  · exact Nat.le_refl _

theorem splitAtDelimiter_length {delimiter taken s body after : Bytes}
    (h : splitAtDelimiter delimiter taken s = some (body, after)) :
    body.length ≤ taken.length + s.length ∧ after.length ≤ s.length := by
  induction s generalizing taken with
  | nil => simp [splitAtDelimiter] at h
  | cons byte rest ih =>
    simp only [splitAtDelimiter] at h
    split at h
    · simp only [Option.some.injEq, Prod.mk.injEq] at h
      have := dropLineBreak_length_le taken
      rw [← h.1, ← h.2]
      simp only [List.length_reverse, List.length_drop, List.length_cons]
      omega
    · have := ih h
      simp only [List.length_cons] at this ⊢
      omega

theorem openBody_length {delimiter content rest : Bytes}
    (h : openBody delimiter content = .ok rest) :
    rest.length < content.length := by
  unfold openBody at h
  split at h
  · simp at h
  · split at h
    · split at h
      · rename_i r hr
        simp only [Except.ok.injEq] at h
        have := afterLineBreak_length hr
        simp only [List.length_drop] at this
        rw [← h]
        omega
      · simp at h
    · simp at h

/-! ## Splitting -/

/-- The parts after the line break of a delimiter. The parts of a part are split before anything is
said about the delimiter after it. -/
def readParts (delimiter s : Bytes) : Except MultipartError (List Part) :=
  match _hs : splitHead s with
  | none => .error .badContent
  | some (head, rest) =>
    match _hd : splitAtDelimiter delimiter [] rest with
    | none => .error .badContent
    | some (body, after) =>
      let headers := Headers.read (Text.decodeLossy head)
      let inner : Except MultipartError (Option (List Part)) :=
        match announcedBoundary headers with
        | .error e => .error e
        | .ok none => .ok none
        | .ok (some boundary) =>
          match _ho : openBody (delimiterOf boundary) body with
          | .error e => .error e
          | .ok opened => (readParts (delimiterOf boundary) opened).map some
      inner.bind fun inner =>
        let part := Part.mk headers body inner
        if (ascii "--").isPrefixOf after then .ok [part]
        else match _ha : afterLineBreak after with
          | some next =>
            if next.isEmpty then .error .badBoundaryEnd
            else (readParts delimiter next).map (part :: ·)
          | none => .error .badBoundaryEnd
termination_by s.length
decreasing_by
  all_goals
    have h1 := splitHead_length _hs
    have h2 := splitAtDelimiter_length _hd
    simp only [List.length_nil, Nat.zero_add] at h2
  · have h3 := openBody_length _ho
    omega
  · have h3 := afterLineBreak_length _ha
    omega

/-- Splits a multipart body into its parts. -/
def parseMultipart (boundary : String) (content : Bytes) : Except MultipartError (List Part) := do
  readParts (delimiterOf boundary) (← openBody (delimiterOf boundary) content)

end SoapKit.Http
