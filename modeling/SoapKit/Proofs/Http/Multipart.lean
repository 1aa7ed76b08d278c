import SoapKit.Http.Chunked
import SoapKit.Http.Multipart
import SoapKit.Proofs.Http.Headers
import SoapKit.Proofs.Text.Utf8

/-!
# Framed parts read back

A multipart body is written by putting a delimiter line before each part and a closing one at the
end. When no body can be mistaken for a delimiter and no part is multipart itself, splitting the
written body gives the parts back, byte for byte (`parseMultipart_framed`).

A delimiter has no line break in it. So the search for an empty line passes over every header line
at once, and the search for the next delimiter can stop in a body only where the body itself holds
one at the beginning of a line. The rest is an induction over the parts.
-/

namespace SoapKit.Http

variable {delimiter : Bytes} {boundary : String}

/-! ## Framing -/

/-- A part without parts of its own. -/
structure PlainPart where
  headers : Headers
  body : Bytes

namespace PlainPart

/-- The part as it is read. -/
def toPart (part : PlainPart) : Part :=
  .mk part.headers part.body none

/-- The header lines, an empty line and the body. -/
def written (part : PlainPart) : Bytes :=
  part.headers.entries.flatMap (fun entry => Text.encode (Headers.line entry) ++ crlf) ++ crlf ++
    part.body

/-- A part that can be framed by a delimiter: its headers can stand on lines and announce no
multipart body, and no line of its body begins with the delimiter. -/
structure Fits (delimiter : Bytes) (part : PlainPart) : Prop where
  headers : ∀ entry ∈ part.headers.entries, Headers.IsLine entry.1 entry.2
  single : ∀ entry ∈ part.headers.entries, sameName entry.1 "content-type" →
    ¬"multipart/".toList <+: entry.2.toList.map Char.toLower
  start : ¬delimiter <+: part.body
  lines : ¬(10 :: delimiter) <:+: part.body

end PlainPart

/-- What follows a delimiter: the next parts with a delimiter after each, or the end. -/
def framedFrom (delimiter epilogue : Bytes) : List PlainPart → Bytes
  | [] => ascii "--" ++ epilogue
  | part :: rest =>
    crlf ++ part.written ++ crlf ++ delimiter ++ framedFrom delimiter epilogue rest

/-- A multipart body. -/
def framed (boundary : String) (epilogue : Bytes) (parts : List PlainPart) : Bytes :=
  delimiterOf boundary ++ framedFrom (delimiterOf boundary) epilogue parts

/-! ## Delimiters -/

theorem ascii_hyphens : ascii "--" = [45, 45] := by
  rw [ascii, Text.encode_eq]
  decide

theorem delimiterOf_eq (boundary : String) :
    delimiterOf boundary = 45 :: 45 :: Text.encode boundary := by
  rw [delimiterOf, ascii_hyphens]
  rfl

theorem return_not_mem_encode {s : String} (h : '\r' ∉ s.toList) : 13 ∉ Text.encode s :=
  Text.not_mem_encode (c := '\r') (by decide) h

theorem feed_not_mem_encode {s : String} (h : '\n' ∉ s.toList) : 10 ∉ Text.encode s :=
  Text.not_mem_encode (c := '\n') (by decide) h

/-! ## Heads -/

theorem splitAtEmptyLine_append {line : Bytes} (hreturn : 13 ∉ line) (hfeed : 10 ∉ line)
    (s : Bytes) :
    splitAtEmptyLine (line ++ s) =
      (splitAtEmptyLine s).map fun (head, after) => (line ++ head, after) := by
  induction line with
  | nil => simp
  | cons byte rest ih =>
    rw [List.mem_cons, not_or] at hreturn hfeed
    have hnone : afterEmptyLine (byte :: (rest ++ s)) = none := by
      unfold afterEmptyLine
      split <;> simp_all
    rw [List.cons_append, splitAtEmptyLine, hnone]
    dsimp only
    rw [ih hreturn.2 hfeed.2, Option.map_map]
    rfl

theorem splitAtEmptyLine_break {byte : UInt8} (hreturn : byte ≠ 13) (hfeed : byte ≠ 10)
    (s : Bytes) :
    splitAtEmptyLine (13 :: 10 :: byte :: s) =
      (splitAtEmptyLine (byte :: s)).map fun (head, after) => (13 :: 10 :: head, after) := by
  have h1 : afterEmptyLine (13 :: 10 :: byte :: s) = none := by
    unfold afterEmptyLine
    split <;> simp_all
  have h2 : afterEmptyLine (10 :: byte :: s) = none := by
    unfold afterEmptyLine
    split <;> simp_all
  rw [splitAtEmptyLine, h1]
  dsimp only
  rw [splitAtEmptyLine, h2, Option.map_map]
  rfl

/-- The bytes of header lines without the last line break. -/
def headOf (headers : Headers) : Bytes :=
  Text.encode (String.ofList (Headers.lines headers.entries))

theorem headOf_cons (entry next : String × String) (rest : List (String × String)) :
    headOf ⟨entry :: next :: rest⟩ =
      Text.encode (Headers.line entry) ++ 13 :: 10 :: headOf ⟨next :: rest⟩ := by
  rw [headOf, Headers.lines_cons, Text.encode_ofList, List.flatMap_append, ← Text.encode_eq,
    headOf, Text.encode_ofList]
  rfl

theorem headOf_singleton (entry : String × String) :
    headOf ⟨[entry]⟩ = Text.encode (Headers.line entry) := by
  simp [headOf, Headers.lines]

theorem Headers.IsLine.exists_encode {entry : String × String}
    (h : Headers.IsLine entry.1 entry.2) :
    ∃ byte rest, Text.encode (Headers.line entry) = byte :: rest ∧ byte ≠ 13 ∧ byte ≠ 10 := by
  have hreturn := return_not_mem_encode h.not_mem_line.1
  have hfeed := feed_not_mem_encode h.not_mem_line.2
  cases hline : Text.encode (Headers.line entry) with
  | nil =>
    have hempty := congrArg Text.decodeLossy hline
    rw [Text.decodeLossy_encode] at hempty
    have := congrArg String.toList hempty
    simp [Headers.toList_line, Text.decodeLossy, Text.decodeFrom] at this
  | cons byte rest =>
    rw [hline, List.mem_cons, not_or] at hreturn hfeed
    exact ⟨byte, rest, rfl, Ne.symm hreturn.1, Ne.symm hfeed.1⟩

/-- The first empty line is the one after the headers. -/
theorem splitAtEmptyLine_written {part : PlainPart} (hne : part.headers.entries ≠ [])
    (h : ∀ entry ∈ part.headers.entries, Headers.IsLine entry.1 entry.2) (after : Bytes) :
    splitAtEmptyLine (part.written ++ after) = some (headOf part.headers, part.body ++ after) := by
  obtain ⟨⟨entries⟩, body⟩ := part
  induction entries with
  | nil => exact absurd rfl hne
  | cons entry rest ih =>
    dsimp only at h ih ⊢
    rw [List.forall_mem_cons] at h
    have hreturn := return_not_mem_encode h.1.not_mem_line.1
    have hfeed := feed_not_mem_encode h.1.not_mem_line.2
    cases rest with
    | nil =>
      have hwritten : (PlainPart.mk ⟨[entry]⟩ body).written ++ after =
          Text.encode (Headers.line entry) ++ 13 :: 10 :: 13 :: 10 :: (body ++ after) := by
        simp [PlainPart.written, crlf]
      rw [hwritten, splitAtEmptyLine_append hreturn hfeed, headOf_singleton, splitAtEmptyLine]
      simp [afterEmptyLine]
    | cons next rest =>
      have hwritten : (PlainPart.mk ⟨entry :: next :: rest⟩ body).written ++ after =
          Text.encode (Headers.line entry) ++
            13 :: 10 :: ((PlainPart.mk ⟨next :: rest⟩ body).written ++ after) := by
        simp [PlainPart.written, crlf]
      obtain ⟨byte, others, hnext, hbyte, hbyte'⟩ := (h.2 next (by simp)).exists_encode
      obtain ⟨tail, htail⟩ : ∃ tail,
          (PlainPart.mk ⟨next :: rest⟩ body).written ++ after = byte :: tail := by
        simp [PlainPart.written, hnext]
      have hrest := ih (by simp) h.2
      rw [hwritten, splitAtEmptyLine_append hreturn hfeed, htail,
        splitAtEmptyLine_break hbyte hbyte', ← htail, hrest, headOf_cons]
      rfl

/-- The head of a written part is read back as its headers. -/
theorem read_headOf {headers : Headers}
    (h : ∀ entry ∈ headers.entries, Headers.IsLine entry.1 entry.2) :
    Headers.read (Text.decodeLossy (headOf headers)) = headers := by
  rw [headOf, Text.decodeLossy_encode, Headers.read_lines h]

theorem splitHead_written {part : PlainPart}
    (h : ∀ entry ∈ part.headers.entries, Headers.IsLine entry.1 entry.2) (after : Bytes) :
    splitHead (part.written ++ after) = some (headOf part.headers, part.body ++ after) := by
  obtain ⟨⟨entries⟩, body⟩ := part
  cases entries with
  | nil =>
    have hhead : headOf ⟨[]⟩ = [] := by
      rw [headOf, Text.encode_ofList]
      rfl
    simp [PlainPart.written, crlf, splitHead, afterLineBreak, hhead]
  | cons entry rest =>
    obtain ⟨byte, others, hline, hreturn, hfeed⟩ := (h entry (by simp)).exists_encode
    obtain ⟨tail, htail⟩ : ∃ tail,
        (PlainPart.mk ⟨entry :: rest⟩ body).written ++ after = byte :: tail := by
      simp [PlainPart.written, hline]
    have hnone : afterLineBreak (byte :: tail) = none := by
      unfold afterLineBreak
      split <;> simp_all
    have hsplit := @splitAtEmptyLine_written ⟨⟨entry :: rest⟩, body⟩ (by simp) h after
    rw [htail] at hsplit ⊢
    rw [splitHead, hnone]
    exact hsplit

/-! ## Bodies -/

/-- Where a search for a delimiter does not stop. -/
theorem splitAtDelimiter_cons {taken rest : Bytes} {byte : UInt8}
    (h : ¬(delimiter <+: byte :: rest ∧ (taken = [] ∨ taken.head? = some 10))) :
    splitAtDelimiter delimiter taken (byte :: rest) =
      splitAtDelimiter delimiter (byte :: taken) rest := by
  rw [splitAtDelimiter, if_neg]
  simpa using h

/-- A search that has come to a place in a body finds the delimiter after the body, unless what is
left of the body begins a line with one. -/
theorem splitAtDelimiter_append (hreturn : 13 ∉ 45 :: delimiter) (taken left after : Bytes)
    (h : ∀ front back, left = front ++ back →
      front.reverse ++ taken = [] ∨ (front.reverse ++ taken).head? = some 10 →
      ¬45 :: delimiter <+: back) :
    splitAtDelimiter (45 :: delimiter) taken
      (left ++ 13 :: 10 :: (45 :: delimiter ++ after)) = some (taken.reverse ++ left, after) := by
  induction left generalizing taken with
  | nil =>
    have hbreak : ¬45 :: delimiter <+: 13 :: 10 :: (45 :: delimiter ++ after) := by
      simp
    have hfeed : ¬45 :: delimiter <+: 10 :: (45 :: delimiter ++ after) := by
      simp
    rw [List.nil_append, splitAtDelimiter_cons fun hp => hbreak hp.1,
      splitAtDelimiter_cons fun hp => hfeed hp.1, List.cons_append, splitAtDelimiter,
      if_pos (by simp)]
    simp [dropLineBreak]
  | cons byte more ih =>
    have hstep : ¬(45 :: delimiter <+: byte :: (more ++ 13 :: 10 :: (45 :: delimiter ++ after)) ∧
        (taken = [] ∨ taken.head? = some 10)) := by
      rintro ⟨hp, htaken⟩
      rw [← List.cons_append, Text.prefix_append_cons_iff hreturn] at hp
      exact h [] (byte :: more) rfl (by simpa using htaken) hp
    rw [List.cons_append, splitAtDelimiter_cons hstep, ih (byte :: taken)]
    · simp
    · intro front back hmore hline
      exact h (byte :: front) back (by simp [hmore]) (by simpa using hline)

/-- The first delimiter at the beginning of a line is the one after the body. -/
theorem splitAtDelimiter_body {body : Bytes} (hreturn : 13 ∉ 45 :: delimiter)
    (hstart : ¬45 :: delimiter <+: body) (hlines : ¬(10 :: 45 :: delimiter) <:+: body)
    (after : Bytes) :
    splitAtDelimiter (45 :: delimiter) [] (body ++ crlf ++ (45 :: delimiter) ++ after) =
      some (body, after) := by
  have hsplit := splitAtDelimiter_append hreturn [] body after ?_
  · simpa [crlf] using hsplit
  · rintro front back rfl hline hback
    rw [List.append_nil, List.reverse_eq_nil_iff, List.head?_reverse] at hline
    rcases hline with rfl | hlast
    · exact hstart hback
    · obtain ⟨before, rfl⟩ := List.getLast?_eq_some_iff.1 hlast
      obtain ⟨rest, rfl⟩ := hback
      exact hlines ⟨before, rest, by simp⟩

/-! ## Parts -/

theorem Headers.exists_of_get? {headers : Headers} {name value : String}
    (h : headers.get? name = some value) :
    ∃ entry ∈ headers.entries, sameName entry.1 name ∧ entry.2 = value := by
  have hmem := List.mem_of_mem_head? h
  rw [Headers.getAll, List.mem_map] at hmem
  obtain ⟨entry, hentry, hvalue⟩ := hmem
  exact ⟨entry, (List.mem_filter.1 hentry).1, (List.mem_filter.1 hentry).2, hvalue⟩

theorem PlainPart.Fits.announcedBoundary_eq {part : PlainPart} (h : part.Fits delimiter) :
    announcedBoundary part.headers = .ok none := by
  cases hget : part.headers.get? "content-type" with
  | none => simp only [announcedBoundary, hget]
  | some contentType =>
    obtain ⟨entry, hentry, hname, rfl⟩ := Headers.exists_of_get? hget
    have hvalue := Headers.trim_toList (h.headers entry hentry).value_trimmed
    have hafter : Text.after? "multipart/".toList (entry.2.toList.map Char.toLower) = none := by
      rw [Text.after?, if_neg]
      simpa using h.single entry hentry hname
    simp only [announcedBoundary, hget, Text.trimStart_eq_of_trim_eq hvalue, hafter,
      Option.isSome_none, Bool.false_eq_true, if_false]

/-- The headers and the body of the first part, and what follows the delimiter after it. -/
def splitPart (delimiter s : Bytes) : Option (Headers × Bytes × Bytes) := do
  let (head, rest) ← splitHead s
  let (body, after) ← splitAtDelimiter delimiter [] rest
  return (Headers.read (Text.decodeLossy head), body, after)

theorem splitPart_of_head {s head rest : Bytes} (h : splitHead s = some (head, rest)) :
    splitPart delimiter s = (splitAtDelimiter delimiter [] rest).map fun (body, after) =>
      (Headers.read (Text.decodeLossy head), body, after) := by
  rw [splitPart, h, Option.map_eq_bind]
  rfl

/-- What a part with these headers and this body is split into. -/
def innerParts (headers : Headers) (body : Bytes) : Except MultipartError (Option (List Part)) := do
  match ← announcedBoundary headers with
  | none => return none
  | some boundary => return some (← parseMultipart boundary body)

/-- The next part after a delimiter, or nothing after the closing one. -/
def nextPart (after : Bytes) : Except MultipartError (Option Bytes) :=
  if (ascii "--").isPrefixOf after then .ok none
  else match afterLineBreak after with
    | some next => if next.isEmpty then .error .badBoundaryEnd else .ok (some next)
    | none => .error .badBoundaryEnd

/-- The parts are read one after the other, each with what is inside of it. -/
theorem readParts_step (delimiter s : Bytes) : readParts delimiter s =
    match splitPart delimiter s with
    | none => .error .badContent
    | some (headers, body, after) => do
      let inner ← innerParts headers body
      match ← nextPart after with
      | none => return [.mk headers body inner]
      | some next => return .mk headers body inner :: (← readParts delimiter next) := by
  rw [readParts]
  split
  · next hs =>
    rw [splitPart, hs]
    rfl
  · next head rest hs =>
    split
    · next hd =>
      rw [splitPart_of_head hs, hd]
      rfl
    · next body after hd =>
      rw [splitPart_of_head hs, hd]
      refine congrArg₂ Except.bind ?_ (funext fun inner => ?_)
      · rw [innerParts]
        cases announcedBoundary (Headers.read (Text.decodeLossy head)) with
        | error e => rfl
        | ok announced =>
          cases announced with
          | none => rfl
          | some boundary =>
            dsimp only [bind, Except.bind]
            rw [parseMultipart]
            split <;> rename_i ho <;> rw [ho] <;> rfl
      · rw [nextPart]
        by_cases hclosing : (ascii "--").isPrefixOf after = true
        · rw [if_pos hclosing, if_pos hclosing]
          rfl
        · rw [if_neg hclosing, if_neg hclosing]
          split
          · next rest ha =>
            rw [ha]
            cases rest <;> rfl
          · next ha =>
            rw [ha]
            rfl

/-- What follows the delimiter after a part that is not multipart. -/
theorem readParts_plain {s head rest body after : Bytes} (hs : splitHead s = some (head, rest))
    (hd : splitAtDelimiter delimiter [] rest = some (body, after))
    (hb : announcedBoundary (Headers.read (Text.decodeLossy head)) = .ok none) :
    readParts delimiter s =
      let part := Part.mk (Headers.read (Text.decodeLossy head)) body none
      if (ascii "--").isPrefixOf after then .ok [part]
      else match afterLineBreak after with
        | some next =>
          if next.isEmpty then .error .badBoundaryEnd
          else (readParts delimiter next).map (part :: ·)
        | none => .error .badBoundaryEnd := by
  have hinner : innerParts (Headers.read (Text.decodeLossy head)) body = .ok none := by
    rw [innerParts, hb]
    rfl
  rw [readParts_step, splitPart_of_head hs, hd]
  dsimp only [Option.map_some]
  rw [hinner, nextPart]
  by_cases hclosing : (ascii "--").isPrefixOf after = true
  · rw [if_pos hclosing, if_pos hclosing]
    rfl
  · rw [if_neg hclosing, if_neg hclosing]
    cases afterLineBreak after with
    | none => rfl
    | some next => cases next <;> rfl

/-- What is read from a written part and the delimiter after it. -/
theorem readParts_written {part : PlainPart} (hreturn : 13 ∉ 45 :: delimiter)
    (h : part.Fits (45 :: delimiter)) (after : Bytes) :
    readParts (45 :: delimiter) (part.written ++ crlf ++ (45 :: delimiter) ++ after) =
      if (ascii "--").isPrefixOf after then .ok [part.toPart]
      else match afterLineBreak after with
        | some next =>
          if next.isEmpty then .error .badBoundaryEnd
          else (readParts (45 :: delimiter) next).map (part.toPart :: ·)
        | none => .error .badBoundaryEnd := by
  have hhead := splitHead_written h.headers (crlf ++ (45 :: delimiter) ++ after)
  have hbody := splitAtDelimiter_body hreturn h.start h.lines after
  have hsingle : announcedBoundary (Headers.read (Text.decodeLossy (headOf part.headers))) =
      .ok none := by
    rw [read_headOf h.headers, h.announcedBoundary_eq]
  simp only [← List.append_assoc] at hhead hbody
  rw [readParts_plain hhead hbody hsingle, read_headOf h.headers]
  rfl

/-- The parts after the line break of a delimiter are read back up to the closing delimiter. -/
theorem readParts_framed (hreturn : 13 ∉ 45 :: delimiter) {part : PlainPart}
    {parts : List PlainPart} (epilogue : Bytes)
    (h : ∀ p ∈ part :: parts, p.Fits (45 :: delimiter)) :
    readParts (45 :: delimiter) (part.written ++ crlf ++ (45 :: delimiter) ++
        framedFrom (45 :: delimiter) epilogue parts) =
      .ok ((part :: parts).map PlainPart.toPart) := by
  induction parts generalizing part with
  | nil =>
    rw [readParts_written hreturn (h part (by simp)), framedFrom, if_pos (by simp)]
    rfl
  | cons next parts ih =>
    rw [List.forall_mem_cons] at h
    have hnext : afterLineBreak (framedFrom (45 :: delimiter) epilogue (next :: parts)) =
        some (next.written ++ crlf ++ (45 :: delimiter) ++
          framedFrom (45 :: delimiter) epilogue parts) := by
      simp [framedFrom, crlf, afterLineBreak]
    have hopen : ¬(ascii "--").isPrefixOf
        (framedFrom (45 :: delimiter) epilogue (next :: parts)) := by
      simp [framedFrom, crlf, ascii_hyphens]
    have hempty : (next.written ++ crlf ++ (45 :: delimiter) ++
        framedFrom (45 :: delimiter) epilogue parts).isEmpty = false := by
      simp [crlf]
    rw [readParts_written hreturn h.1, if_neg hopen, hnext]
    dsimp only
    rw [hempty, if_neg (by simp), ih h.2]
    rfl

/-- A framed body opens with the delimiter of its first part. -/
theorem openBody_framed (boundary : String) (epilogue : Bytes) (part : PlainPart)
    (parts : List PlainPart) :
    openBody (delimiterOf boundary) (framed boundary epilogue (part :: parts)) =
      .ok (part.written ++ crlf ++ delimiterOf boundary ++
        framedFrom (delimiterOf boundary) epilogue parts) := by
  simp [openBody, framed, framedFrom, crlf, afterLineBreak, delimiterOf_eq]

/-- A body that is framed from parts is split into these parts. -/
theorem parseMultipart_framed (boundary : String) (hboundary : '\r' ∉ boundary.toList)
    (epilogue : Bytes) {parts : List PlainPart} (hne : parts ≠ [])
    (h : ∀ part ∈ parts, part.Fits (delimiterOf boundary)) :
    parseMultipart boundary (framed boundary epilogue parts) =
      .ok (parts.map PlainPart.toPart) := by
  obtain ⟨part, parts, rfl⟩ := List.exists_cons_of_ne_nil hne
  have hreturn : 13 ∉ delimiterOf boundary := by
    rw [delimiterOf_eq]
    simpa using return_not_mem_encode hboundary
  have hopen := openBody_framed boundary epilogue part parts
  rw [delimiterOf_eq] at h hreturn hopen
  rw [parseMultipart, delimiterOf_eq, hopen]
  exact readParts_framed hreturn epilogue h

/-- A body with a delimiter inside a line, an empty line and a carriage return at its end, and an
empty body without headers. -/
theorem parseMultipart_framed_of_awkward :
    parseMultipart "b" (framed "b" [13, 10, 120]
        [⟨⟨[("Content-ID", "<ö>"), ("X-Note", "")]⟩, [120, 45, 45, 98, 13, 10, 13, 10, 13]⟩,
          ⟨⟨[]⟩, []⟩]) =
      .ok [.mk ⟨[("Content-ID", "<ö>"), ("X-Note", "")]⟩ [120, 45, 45, 98, 13, 10, 13, 10, 13] none,
        .mk ⟨[]⟩ [] none] := by
  have hdelimiter : delimiterOf "b" = [45, 45, 98] := by
    rw [delimiterOf_eq, Text.encode_eq]
    decide
  refine parseMultipart_framed "b" (by decide) [13, 10, 120] (by simp) ?_
  rw [hdelimiter, List.forall_mem_cons, List.forall_mem_singleton]
  constructor
  · refine ⟨?_, ?_, by decide, by decide⟩
    · rw [List.forall_mem_cons, List.forall_mem_singleton]
      constructor
      · exact ⟨by decide, by decide, by decide, by decide, by decide, by decide, by decide⟩
      · exact ⟨by decide, by decide, by decide, by decide, by decide, by decide, by decide⟩
    · decide
  · exact ⟨by simp, by simp, by decide, by decide⟩

end SoapKit.Http
