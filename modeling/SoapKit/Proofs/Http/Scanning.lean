import SoapKit.Http.Chunked
import SoapKit.Proofs.Except
import SoapKit.Proofs.Http.Multipart
import SoapKit.Proofs.Http.Slices

/-!
# Multipart bodies read in place

The parts of a multipart body can be found without cutting anything off: by offsets into the body,
with searches from an offset on and with looks at the one or two bytes before a delimiter. Here this
is done with every slice, every byte and every difference checked (`scanMultipart`). It gives what
`parseMultipart` gives on lists, parts or refusal (`scanMultipart_eq`), so no check ever fails.

Each step on offsets has its counterpart on lists. An offset stands for the bytes from there on, and
the step that moves it is the one that cuts these bytes off (`exists_headAt`, `delimiterFrom_eq`,
`exists_partAt`, `nextAt_eq`, `openAt_eq`). The search for a delimiter is the one loop with a state
of its own. It is compared with `splitAtDelimiter` when both have passed the same bytes, by
induction on the bytes that are left.

Offsets only grow, and a part that is multipart itself is shorter than what was left of the body
around it (`partAt_lt`). Hence the number of bytes left decreases in both recursive calls, whatever
boundaries the parts announce.
-/

namespace SoapKit.Http

variable {delimiter content s : Bytes} {position start index : Nat}

/-! ## Steps on offsets -/

/-- The length of the line break at the front. -/
def lineBreakLength? (s : Bytes) : Option Nat :=
  if crlf.isPrefixOf s then some 2
  else if [10].isPrefixOf s then some 1
  else none

/-- The offsets of the first empty line and of what follows it. -/
def emptyLineAt? (s : Bytes) : Option (Nat × Nat) :=
  match offsetOf? [13, 10, 13, 10] s 0, offsetOf? [10, 10] s 0 with
  | some i, some j => if i ≤ j then some (i, i + 4) else some (j, j + 2)
  | some i, none => some (i, i + 4)
  | none, some j => some (j, j + 2)
  | none, none => none

/-- The headers of the part at an offset, and the offset of its body. -/
def headAt (content : Bytes) (position : Nat) : Except Stop (Bytes × Nat) := do
  let rest ← slice content position content.length
  match lineBreakLength? rest with
  | some length => return (← slice content position position, position + length)
  | none =>
    match emptyLineAt? rest with
    | some (headStop, bodyStart) => return (← slice rest 0 headStop, position + bodyStart)
    | none => .error (.refused .badContent)

/-- The end of a body that begins at `start` and has a delimiter at `index` behind it, provided that
the delimiter is at the beginning of a line. -/
def bodyStop? (content : Bytes) (start index : Nat) : Except Stop (Option Nat) :=
  if index = start then return some index
  else do
    let before ← wordDifference index 1
    if (← byteAt content before) = 10 then
      if start + 2 ≤ index then
        let earlier ← wordDifference index 2
        if (← byteAt content earlier) = 13 then return some earlier
        else return some before
      else return some before
    else return none

/-- The end of the body that begins at `start`, and the offset behind the delimiter after it, which
is searched from an offset on. -/
def delimiterFrom (delimiter content : Bytes) (start search : Nat) :
    Except Stop (Option (Nat × Nat)) :=
  match _h : offsetOf? delimiter content search with
  | none => .ok none
  | some index => do
    match ← bodyStop? content start index with
    | some stop => return some (stop, index + delimiter.length)
    | none => delimiterFrom delimiter content start (index + 1)
termination_by content.length - search
decreasing_by
  obtain ⟨hsearch, hindex, -⟩ := offsetOf?_eq_some_iff.1 _h
  omega

/-- The headers and the body of the part at an offset, and the offset behind the delimiter after
it. -/
def partAt (delimiter content : Bytes) (position : Nat) :
    Except Stop (Headers × Bytes × Nat) := do
  let (head, start) ← headAt content position
  match ← delimiterFrom delimiter content start start with
  | none => .error (.refused .badContent)
  | some (stop, next) =>
    return (Headers.read (Text.decodeLossy head), ← slice content start stop, next)

/-- The offset of the part after a delimiter, or nothing after the closing one. -/
def nextAt (content : Bytes) (position : Nat) : Except Stop (Option Nat) := do
  let rest ← slice content position content.length
  if (ascii "--").isPrefixOf rest then return none
  else match lineBreakLength? rest with
    | some length =>
      if position + length < content.length then return some (position + length)
      else .error (.refused .badBoundaryEnd)
    | none => .error (.refused .badBoundaryEnd)

/-- The offset of the first part. -/
def openAt (delimiter content : Bytes) : Except Stop Nat :=
  if content.isEmpty then .error (.refused .noContent)
  else if delimiter.isPrefixOf content then do
    match lineBreakLength? (← slice content delimiter.length content.length) with
    | some length => return delimiter.length + length
    | none => .error (.refused .badContent)
  else .error (.refused .badContent)

/-! ## Line breaks -/

theorem afterLineBreak_eq (s : Bytes) : afterLineBreak s = (lineBreakLength? s).map s.drop := by
  unfold afterLineBreak
  split
  · rfl
  · rfl
  · next hreturn hfeed =>
    rw [lineBreakLength?, if_neg, if_neg]
    · rfl
    · rw [List.isPrefixOf_iff_prefix]
      rintro ⟨rest, rfl⟩
      exact hfeed rest rfl
    · rw [List.isPrefixOf_iff_prefix]
      rintro ⟨rest, rfl⟩
      exact hreturn rest rfl

theorem lineBreakLength?_le {length : Nat} (h : lineBreakLength? s = some length) :
    0 < length ∧ length ≤ s.length := by
  rw [lineBreakLength?] at h
  split_ifs at h with hreturn hfeed
  · cases h
    exact ⟨by decide, (List.isPrefixOf_iff_prefix.1 hreturn).length_le⟩
  · cases h
    exact ⟨by decide, (List.isPrefixOf_iff_prefix.1 hfeed).length_le⟩

/-! ## Empty lines -/

theorem afterEmptyLine_eq (s : Bytes) : afterEmptyLine s =
    if [13, 10, 13, 10].isPrefixOf s then some (s.drop 4)
    else if [10, 10].isPrefixOf s then some (s.drop 2)
    else none := by
  unfold afterEmptyLine
  split
  · rfl
  · rfl
  · next hreturn hfeed =>
    rw [if_neg, if_neg]
    · rw [List.isPrefixOf_iff_prefix]
      rintro ⟨rest, rfl⟩
      exact hfeed rest rfl
    · rw [List.isPrefixOf_iff_prefix]
      rintro ⟨rest, rfl⟩
      exact hreturn rest rfl

theorem emptyLineAt?_cons (byte : UInt8) (rest : Bytes) :
    emptyLineAt? (byte :: rest) =
      if [13, 10, 13, 10].isPrefixOf (byte :: rest) then some (0, 4)
      else if [10, 10].isPrefixOf (byte :: rest) then some (0, 2)
      else (emptyLineAt? rest).map fun (headStop, bodyStart) => (headStop + 1, bodyStart + 1) := by
  rw [emptyLineAt?, emptyLineAt?, offsetOf?_cons, offsetOf?_cons]
  by_cases hreturn : [13, 10, 13, 10].isPrefixOf (byte :: rest) = true
  · rw [if_pos hreturn, if_pos hreturn]
    cases (if [10, 10].isPrefixOf (byte :: rest) then some 0
      else (offsetOf? [10, 10] rest 0).map (· + 1)) <;> rfl
  · rw [if_neg hreturn, if_neg hreturn]
    by_cases hfeed : [10, 10].isPrefixOf (byte :: rest) = true
    · rw [if_pos hfeed, if_pos hfeed]
      cases offsetOf? [13, 10, 13, 10] rest 0 <;> rfl
    · rw [if_neg hfeed, if_neg hfeed]
      cases offsetOf? [13, 10, 13, 10] rest 0 with
      | none => cases offsetOf? [10, 10] rest 0 <;> rfl
      | some i =>
        cases offsetOf? [10, 10] rest 0 with
        | none => rfl
        | some j =>
          by_cases hij : i ≤ j
          · simp [hij]
          · simp [hij]

theorem splitAtEmptyLine_eq (s : Bytes) : splitAtEmptyLine s =
    (emptyLineAt? s).map fun (headStop, bodyStart) => (s.take headStop, s.drop bodyStart) := by
  induction s with
  | nil => rfl
  | cons byte rest ih =>
    rw [splitAtEmptyLine, afterEmptyLine_eq, emptyLineAt?_cons]
    split_ifs
    · rfl
    · rfl
    · rw [ih, Option.map_map, Option.map_map]
      rfl

theorem emptyLineAt?_le {headStop bodyStart : Nat}
    (h : emptyLineAt? s = some (headStop, bodyStart)) :
    headStop < bodyStart ∧ bodyStart ≤ s.length := by
  have hbound {needle : Bytes} {i : Nat} (hi : offsetOf? needle s 0 = some i) :
      i + needle.length ≤ s.length :=
    add_length_le_of_offsetOf? hi
  rw [emptyLineAt?] at h
  split at h
  · next i j hi hj =>
    split_ifs at h
    · cases h
      exact ⟨by omega, hbound hi⟩
    · cases h
      exact ⟨by omega, hbound hj⟩
  · next i hi _ =>
    cases h
    exact ⟨by omega, hbound hi⟩
  · next j _ hj =>
    cases h
    exact ⟨by omega, hbound hj⟩
  · cases h

/-! ## Heads -/

theorem headAt_of_none (h : position ≤ content.length)
    (hsplit : splitHead (content.drop position) = none) :
    headAt content position = .error (.refused .badContent) := by
  rw [splitHead, afterLineBreak_eq, splitAtEmptyLine_eq] at hsplit
  rw [headAt, slice_from h]
  dsimp only [bind, Except.bind]
  cases hbreak : lineBreakLength? (content.drop position) with
  | some length =>
    rw [hbreak] at hsplit
    cases hsplit
  | none =>
    rw [hbreak] at hsplit
    rw [Option.map_eq_none_iff.1 hsplit]

theorem exists_headAt (h : position ≤ content.length) {head rest : Bytes}
    (hsplit : splitHead (content.drop position) = some (head, rest)) :
    ∃ start, headAt content position = .ok (head, start) ∧ rest = content.drop start ∧
      position < start ∧ start ≤ content.length := by
  rw [splitHead, afterLineBreak_eq, splitAtEmptyLine_eq] at hsplit
  rw [headAt, slice_from h]
  dsimp only [bind, Except.bind]
  cases hbreak : lineBreakLength? (content.drop position) with
  | some length =>
    have hle := lineBreakLength?_le hbreak
    rw [hbreak] at hsplit
    cases hsplit
    rw [List.length_drop] at hle
    dsimp only
    rw [slice_self h]
    exact ⟨_, rfl, List.drop_drop .., by omega, by omega⟩
  | none =>
    rw [hbreak] at hsplit
    obtain ⟨⟨headStop, bodyStart⟩, hempty, heq⟩ := Option.map_eq_some_iff.1 hsplit
    cases heq
    have hle := emptyLineAt?_le hempty
    dsimp only
    rw [hempty]
    dsimp only
    rw [slice_to (by omega)]
    rw [List.length_drop] at hle
    exact ⟨_, rfl, List.drop_drop .., by omega, by omega⟩

/-! ## Delimiters -/

theorem dropLineBreak_feed (prior : UInt8) (more : Bytes) :
    dropLineBreak (10 :: prior :: more) = if prior = 13 then more else prior :: more := by
  by_cases hreturn : prior = 13
  · rw [if_pos hreturn, hreturn]
    rfl
  · rw [if_neg hreturn]
    unfold dropLineBreak
    split <;> simp_all

/-- A delimiter is taken where `splitAtDelimiter` takes it, and the body before it ends at the same
place. -/
theorem bodyStop?_eq (before taken after : Bytes) :
    bodyStop? (before ++ (taken.reverse ++ after)) before.length (before.length + taken.length) =
      .ok (if taken = [] ∨ taken.head? = some 10 then
        some (before.length + (dropLineBreak taken).length) else none) := by
  have hbyte (byte : UInt8) (earlier later : Bytes) :
      byteAt (before ++ ((byte :: earlier).reverse ++ later)) (before.length + earlier.length) =
        .ok byte := by
    have := byteAt_append (before ++ earlier.reverse) byte later
    simpa using this
  cases taken with
  | nil =>
    have hsame : before.length + ([] : Bytes).length = before.length := rfl
    rw [bodyStop?, if_pos hsame, if_pos (.inl rfl)]
    rfl
  | cons byte earlier =>
    have hnot : before.length + (byte :: earlier).length ≠ before.length := by
      simp
    have hbefore : wordDifference (before.length + (byte :: earlier).length) 1 =
        .ok (before.length + earlier.length) :=
      wordDifference_add (before.length + earlier.length) 1
    rw [bodyStop?, if_neg hnot, hbefore]
    dsimp only [bind, Except.bind]
    rw [hbyte byte earlier after]
    dsimp only
    by_cases hfeed : byte = 10
    · subst hfeed
      have hline : 10 :: earlier = [] ∨ (10 :: earlier).head? = some 10 := .inr rfl
      rw [if_pos rfl, if_pos hline]
      cases earlier with
      | nil =>
        rw [if_neg (by simp)]
        rfl
      | cons prior more =>
        have hearlier : wordDifference (before.length + (10 :: prior :: more).length) 2 =
            .ok (before.length + more.length) :=
          wordDifference_add (before.length + more.length) 2
        have hprior : byteAt (before ++ ((10 :: prior :: more).reverse ++ after))
            (before.length + more.length) = .ok prior := by
          simpa using hbyte prior more (10 :: after)
        rw [if_pos (by simp), hearlier, dropLineBreak_feed]
        dsimp only
        rw [hprior]
        dsimp only
        by_cases hreturn : prior = 13
        · rw [if_pos hreturn, if_pos hreturn]
          rfl
        · rw [if_neg hreturn, if_neg hreturn]
          rfl
    · rw [if_neg hfeed, if_neg (by simpa using hfeed)]
      rfl

theorem delimiterFrom_step (delimiter content : Bytes) (start search : Nat) :
    delimiterFrom delimiter content start search =
      match offsetOf? delimiter content search with
      | none => .ok none
      | some index => (do
        match ← bodyStop? content start index with
        | some stop => return some (stop, index + delimiter.length)
        | none => delimiterFrom delimiter content start (index + 1)) := by
  rw [delimiterFrom]
  split <;> rename_i h <;> rw [h]

/-- The search by offsets finds the delimiter that `splitAtDelimiter` finds when both have passed
the same bytes. -/
theorem delimiterFrom_eq (delimiter before taken s : Bytes) :
    delimiterFrom delimiter (before ++ (taken.reverse ++ s)) before.length
        (before.length + taken.length) =
      .ok ((splitAtDelimiter delimiter taken s).map fun (body, after) =>
        (before.length + body.length, (before ++ (taken.reverse ++ s)).length - after.length)) := by
  induction s generalizing taken with
  | nil =>
    rw [delimiterFrom_step, offsetOf?_eq_none (by simp)]
    rfl
  | cons byte rest ih =>
    have ih := ih (byte :: taken)
    have hshift : (byte :: taken).reverse ++ rest = taken.reverse ++ byte :: rest := by
      simp
    have hdrop : (before ++ (taken.reverse ++ byte :: rest)).drop (before.length + taken.length) =
        byte :: rest := by
      rw [← List.append_assoc, List.drop_left' (by simp)]
    rw [hshift] at ih
    by_cases hprefix : delimiter <+: byte :: rest
    · have hoffset : offsetOf? delimiter (before ++ (taken.reverse ++ byte :: rest))
          (before.length + taken.length) = some (before.length + taken.length) := by
        rw [offsetOf?_eq_some_iff, hdrop]
        exact ⟨Nat.le_refl _, by simp, hprefix, fun i hi hlt => absurd hi (Nat.not_le.2 hlt)⟩
      have hlength := hprefix.length_le
      rw [delimiterFrom_step, hoffset]
      dsimp only
      rw [bodyStop?_eq, splitAtDelimiter]
      by_cases hline : taken = [] ∨ taken.head? = some 10
      · rw [if_pos hline, if_pos ⟨List.isPrefixOf_iff_prefix.2 hprefix, hline⟩]
        have hnext : before.length + taken.length + delimiter.length =
            (before ++ (taken.reverse ++ byte :: rest)).length -
              ((byte :: rest).drop delimiter.length).length := by
          simp only [List.length_append, List.length_reverse, List.length_drop]
          omega
        rw [Option.map_some, List.length_reverse, ← hnext]
        rfl
      · rw [if_neg hline, if_neg fun h => hline h.2]
        exact ih
    · rw [delimiterFrom_step, offsetOf?_succ (by rwa [hdrop]), ← delimiterFrom_step,
        splitAtDelimiter_cons fun h => hprefix h.1]
      exact ih

theorem delimiterFrom_start (h : start ≤ content.length) (delimiter : Bytes) :
    delimiterFrom delimiter content start start =
      .ok ((splitAtDelimiter delimiter [] (content.drop start)).map fun (body, after) =>
        (start + body.length, content.length - after.length)) := by
  have hfrom := delimiterFrom_eq delimiter (content.take start) [] (content.drop start)
  rw [List.reverse_nil, List.nil_append, List.take_append_drop, List.length_take_of_le h] at hfrom
  exact hfrom

/-- What may stand between a body and the delimiter after it. -/
def lineBreaks : List Bytes :=
  [[], [10], crlf]

/-- A body before the first delimiter at the beginning of a line. -/
structure Precedes (delimiter s body after : Bytes) : Prop where
  text : ∃ lineBreak ∈ lineBreaks, s = body ++ (lineBreak ++ (delimiter ++ after))
  start : ¬delimiter <+: body
  lines : ¬(10 :: delimiter) <:+: body

theorem reverse_eq_dropLineBreak_append {taken : Bytes}
    (h : taken = [] ∨ taken.head? = some 10) :
    ∃ lineBreak ∈ lineBreaks, taken.reverse = (dropLineBreak taken).reverse ++ lineBreak := by
  unfold dropLineBreak
  split
  · exact ⟨crlf, by simp [lineBreaks], by simp [crlf]⟩
  · exact ⟨[10], by simp [lineBreaks], by simp⟩
  · next hreturn hfeed =>
    obtain rfl : taken = [] := by
      cases taken with
      | nil => rfl
      | cons byte earlier =>
        obtain rfl : byte = 10 := by simpa using h
        exact absurd rfl (hfeed earlier)
    exact ⟨[], by simp [lineBreaks], rfl⟩

/-- Among the first bytes no line begins with the delimiter. -/
def FreeUpTo (delimiter s : Bytes) (n : Nat) : Prop :=
  ∀ front back, s = front ++ back → front.length < n → front = [] ∨ front.getLast? = some 10 →
    ¬delimiter <+: back

theorem FreeUpTo.mono {m n : Nat} (h : FreeUpTo delimiter s n) (hle : m ≤ n) :
    FreeUpTo delimiter s m := by
  intro front back heq hlength
  exact h front back heq (by omega)

theorem FreeUpTo.absent (hne : delimiter ≠ []) {body rest : Bytes}
    (h : FreeUpTo delimiter (body ++ rest) body.length) :
    ¬delimiter <+: body ∧ ¬(10 :: delimiter) <:+: body := by
  have hpositive := List.length_pos_iff.2 hne
  constructor
  · intro hleads
    have hlength := hleads.length_le
    exact h [] (body ++ rest) rfl (by rw [List.length_nil]; omega) (.inl rfl)
      (hleads.trans (List.prefix_append body rest))
  · rintro ⟨earlier, later, rfl⟩
    refine h (earlier ++ [10]) (delimiter ++ (later ++ rest)) (by simp) ?_ (.inr (by simp))
      (List.prefix_append _ _)
    simp only [List.length_append, List.length_cons, List.length_nil]
    omega

/-- A byte is passed when no delimiter that begins a line begins with it. -/
theorem FreeUpTo.pass {taken rest : Bytes} {byte : UInt8}
    (h : FreeUpTo delimiter (taken.reverse ++ byte :: rest) taken.length)
    (hstop : ¬(delimiter <+: byte :: rest ∧ (taken = [] ∨ taken.head? = some 10))) :
    FreeUpTo delimiter ((byte :: taken).reverse ++ rest) (byte :: taken).length := by
  have hshift : (byte :: taken).reverse ++ rest = taken.reverse ++ byte :: rest := by
    simp
  rw [hshift]
  intro front back heq hlength hfront hback
  by_cases hearlier : front.length < taken.length
  · exact h front back heq hearlier hfront hback
  · have hsame : front.length = taken.reverse.length := by
      rw [List.length_cons] at hlength
      rw [List.length_reverse]
      omega
    obtain ⟨rfl, rfl⟩ := List.append_inj heq.symm hsame
    rw [List.reverse_eq_nil_iff, List.getLast?_reverse] at hfront
    exact hstop ⟨hback, hfront⟩

/-- The search stops at the first delimiter at the beginning of a line, if it has passed none. -/
theorem splitAtDelimiter_precedes (hne : delimiter ≠ []) {taken s body after : Bytes}
    (hfree : FreeUpTo delimiter (taken.reverse ++ s) taken.length)
    (h : splitAtDelimiter delimiter taken s = some (body, after)) :
    Precedes delimiter (taken.reverse ++ s) body after := by
  induction s generalizing taken with
  | nil => cases h
  | cons byte rest ih =>
    by_cases hstop : delimiter <+: byte :: rest ∧ (taken = [] ∨ taken.head? = some 10)
    · rw [splitAtDelimiter, if_pos (by simpa using hstop)] at h
      cases h
      obtain ⟨lineBreak, hmem, hreverse⟩ := reverse_eq_dropLineBreak_append hstop.2
      obtain ⟨after, hafter⟩ := hstop.1
      have htext : taken.reverse ++ byte :: rest =
          (dropLineBreak taken).reverse ++ (lineBreak ++ (delimiter ++ after)) := by
        rw [hreverse, hafter, List.append_assoc]
      have hbound : (dropLineBreak taken).reverse.length ≤ taken.length := by
        rw [List.length_reverse]
        exact dropLineBreak_length_le taken
      have hdrop : (byte :: rest).drop delimiter.length = after := by
        rw [← hafter, List.drop_left]
      rw [htext] at hfree
      obtain ⟨hstart, hlines⟩ := (hfree.mono hbound).absent hne
      rw [hdrop]
      exact ⟨⟨lineBreak, hmem, htext⟩, hstart, hlines⟩
    · rw [splitAtDelimiter_cons hstop] at h
      have hprecedes := ih (hfree.pass hstop) h
      rwa [List.reverse_cons, List.append_assoc] at hprecedes

/-- A body and what follows its delimiter, by their offsets. -/
theorem Precedes.offsets {body after : Bytes}
    (h : Precedes delimiter (content.drop start) body after) (hle : start ≤ content.length) :
    slice content start (start + body.length) = .ok body ∧
      after = content.drop (content.length - after.length) ∧
      start + body.length ≤ content.length - after.length := by
  obtain ⟨lineBreak, -, htext⟩ := h.text
  have hcontent : content =
      content.take start ++ (body ++ (lineBreak ++ (delimiter ++ after))) := by
    rw [← htext, List.take_append_drop]
  have hslice := slice_append (content.take start) body (lineBreak ++ (delimiter ++ after))
  rw [← hcontent, List.length_take_of_le hle] at hslice
  have hsuffix : after <:+ content :=
    ⟨content.take start ++ (body ++ (lineBreak ++ delimiter)), by
      simpa only [List.append_assoc] using hcontent.symm⟩
  refine ⟨hslice, List.suffix_iff_eq_drop.1 hsuffix, ?_⟩
  have hlength := congrArg List.length htext
  simp only [List.length_append, List.length_drop] at hlength
  omega

/-! ## Parts -/

/-- Where the body of a part lies. -/
structure Span where
  start : Nat
  stop : Nat

theorem partAt_of_none (h : position ≤ content.length)
    (hsplit : splitPart delimiter (content.drop position) = none) :
    partAt delimiter content position = .error (.refused .badContent) := by
  rw [partAt]
  cases hhead : splitHead (content.drop position) with
  | none =>
    rw [headAt_of_none h hhead]
    rfl
  | some split =>
    obtain ⟨head, rest⟩ := split
    obtain ⟨start, hstart, rfl, -, hle⟩ := exists_headAt h hhead
    rw [splitPart_of_head hhead, Option.map_eq_none_iff] at hsplit
    rw [hstart]
    dsimp only [bind, Except.bind]
    rw [delimiterFrom_start hle, hsplit]
    rfl

/-- A part that is split off is found in place, with a body that lies within the content. -/
theorem exists_partAt (hne : delimiter ≠ []) (h : position ≤ content.length) {headers : Headers}
    {body after : Bytes}
    (hsplit : splitPart delimiter (content.drop position) = some (headers, body, after)) :
    ∃ (span : Span) (next : Nat), partAt delimiter content position = .ok (headers, body, next) ∧
      after = content.drop next ∧ position < span.start ∧ span.stop ≤ next ∧
      next ≤ content.length ∧ slice content span.start span.stop = .ok body ∧
      Precedes delimiter (content.drop span.start) body after := by
  cases hhead : splitHead (content.drop position) with
  | none =>
    rw [splitPart, hhead] at hsplit
    cases hsplit
  | some split =>
    obtain ⟨head, rest⟩ := split
    obtain ⟨start, hstart, rfl, hlt, hle⟩ := exists_headAt h hhead
    rw [splitPart_of_head hhead] at hsplit
    obtain ⟨⟨body', after'⟩, hbody, heq⟩ := Option.map_eq_some_iff.1 hsplit
    cases heq
    have hprecedes := splitAtDelimiter_precedes hne (by simp [FreeUpTo]) hbody
    rw [List.reverse_nil, List.nil_append] at hprecedes
    obtain ⟨hslice, hafter, hstop⟩ := hprecedes.offsets hle
    refine ⟨⟨start, start + body.length⟩, content.length - after.length, ?_, hafter, hlt, hstop,
      Nat.sub_le _ _, hslice, hprecedes⟩
    rw [partAt, hstart]
    dsimp only [bind, Except.bind]
    rw [delimiterFrom_start hle, hbody]
    dsimp only [Option.map_some]
    rw [hslice]
    rfl

/-- A part is read after its offset, and so is its body. -/
theorem partAt_lt (hne : delimiter ≠ []) {headers : Headers} {body : Bytes} {next : Nat}
    (h : partAt delimiter content position = .ok (headers, body, next)) :
    body.length < content.length - position ∧ position < next ∧ next ≤ content.length := by
  by_cases hposition : position ≤ content.length
  · cases hsplit : splitPart delimiter (content.drop position) with
    | none =>
      rw [partAt_of_none hposition hsplit] at h
      cases h
    | some split =>
      obtain ⟨span, next', hpart, -, hstart, hstop, hnext, hslice, -⟩ :=
        exists_partAt hne hposition hsplit
      rw [hpart] at h
      cases h
      have hlength := slice_eq_ok hslice
      omega
  · rw [partAt, headAt, slice, if_neg fun hbounds => hposition hbounds.1] at h
    cases h

/-! ## Next parts -/

theorem nextAt_eq (h : position ≤ content.length) :
    (nextAt content position).map (Option.map content.drop) =
      (nextPart (content.drop position)).mapError .refused := by
  rw [nextPart, nextAt, slice_from h, afterLineBreak_eq]
  dsimp only [bind, Except.bind]
  by_cases hclosing : (ascii "--").isPrefixOf (content.drop position) = true
  · rw [if_pos hclosing, if_pos hclosing]
    rfl
  · rw [if_neg hclosing, if_neg hclosing]
    cases lineBreakLength? (content.drop position) with
    | none => rfl
    | some length =>
      dsimp only [Option.map_some]
      rw [List.drop_drop]
      by_cases hmore : position + length < content.length
      · rw [if_pos hmore, if_neg (by simpa using hmore)]
        rfl
      · rw [if_neg hmore, if_pos (by simpa using hmore)]
        rfl

theorem nextAt_lt {next : Nat} (h : nextAt content position = .ok (some next)) :
    position < next ∧ next ≤ content.length := by
  rw [nextAt] at h
  obtain ⟨rest, -, h⟩ := bind_eq_ok.1 h
  split_ifs at h
  · cases h
  · split at h
    · next length hbreak =>
      have hlength := lineBreakLength?_le hbreak
      split_ifs at h
      cases h
      omega
    · cases h

theorem openAt_eq (delimiter content : Bytes) :
    (openAt delimiter content).map content.drop =
      (openBody delimiter content).mapError .refused := by
  rw [openAt, openBody, afterLineBreak_eq]
  split_ifs with hempty hprefix
  · rfl
  · have hlength := (List.isPrefixOf_iff_prefix.1 hprefix).length_le
    rw [slice_from hlength]
    dsimp only [bind, Except.bind]
    cases lineBreakLength? (content.drop delimiter.length) with
    | none => rfl
    | some length =>
      dsimp only [Option.map_some]
      rw [List.drop_drop]
      rfl
  · rfl

theorem openAt_le (h : openAt delimiter content = .ok position) : position ≤ content.length := by
  rw [openAt] at h
  split_ifs at h with hempty hprefix
  obtain ⟨rest, hrest, h⟩ := bind_eq_ok.1 h
  split at h
  · next length hbreak =>
    have hlength := (lineBreakLength?_le hbreak).2
    have hrest := slice_eq_ok hrest
    cases h
    omega
  · cases h

/-! ## Whole bodies -/

theorem delimiterOf_ne_nil (boundary : String) : delimiterOf boundary ≠ [] := by
  rw [delimiterOf_eq]
  exact List.cons_ne_nil _ _

/-- Reads the parts from an offset on, in place. -/
def scanParts (boundary : String) (content : Bytes) (position : Nat) : Except Stop (List Part) :=
  match _hpart : partAt (delimiterOf boundary) content position with
  | .error stop => .error stop
  | .ok (headers, body, next) =>
    let inner : Except Stop (Option (List Part)) :=
      match announcedBoundary headers with
      | .error e => .error (.refused e)
      | .ok none => .ok none
      | .ok (some boundary) =>
        (openAt (delimiterOf boundary) body).bind fun opened =>
          (scanParts boundary body opened).map some
    inner.bind fun inner =>
      match _hnext : nextAt content next with
      | .error stop => .error stop
      | .ok none => .ok [.mk headers body inner]
      | .ok (some following) =>
        (scanParts boundary content following).map (.mk headers body inner :: ·)
termination_by content.length - position
decreasing_by
  all_goals have hpart := partAt_lt (delimiterOf_ne_nil _) _hpart
  · omega
  · have hnext := nextAt_lt _hnext
    omega

/-- Splits a multipart body into its parts, in place. -/
def scanMultipart (boundary : String) (content : Bytes) : Except Stop (List Part) := do
  scanParts boundary content (← openAt (delimiterOf boundary) content)

/-- What a part with these headers and this body is split into, in place. -/
def scanInner (headers : Headers) (body : Bytes) : Except Stop (Option (List Part)) := do
  match ← (announcedBoundary headers).mapError .refused with
  | none => return none
  | some boundary => return some (← scanMultipart boundary body)

theorem scanParts_step (boundary : String) (content : Bytes) (position : Nat) :
    scanParts boundary content position = (do
      let (headers, body, next) ← partAt (delimiterOf boundary) content position
      let inner ← scanInner headers body
      match ← nextAt content next with
      | none => return [.mk headers body inner]
      | some following =>
        return .mk headers body inner :: (← scanParts boundary content following)) := by
  rw [scanParts]
  split
  · next hpart =>
    rw [hpart]
    rfl
  · next headers body next hpart =>
    rw [hpart]
    refine congrArg₂ Except.bind ?_ (funext fun inner => ?_)
    · rw [scanInner]
      cases announcedBoundary headers with
      | error e => rfl
      | ok announced =>
        cases announced with
        | none => rfl
        | some boundary =>
          dsimp only
          show _ = (scanMultipart boundary body).bind fun parts => .ok (some parts)
          rw [scanMultipart]
          cases openAt (delimiterOf boundary) body with
          | error stop => rfl
          | ok opened =>
            show (scanParts boundary body opened).map some = (scanParts boundary body opened).bind _
            cases scanParts boundary body opened <;> rfl
    · split <;> rename_i hnext <;> rw [hnext] <;> rfl

/-- A body is split in place as it is from lists when its parts are read so. -/
theorem scanMultipart_of_scanParts {boundary : String} {content : Bytes}
    (h : ∀ position ≤ content.length, scanParts boundary content position =
      (readParts (delimiterOf boundary) (content.drop position)).mapError .refused) :
    scanMultipart boundary content = (parseMultipart boundary content).mapError .refused := by
  have hopen := openAt_eq (delimiterOf boundary) content
  rw [scanMultipart, parseMultipart]
  cases hat : openAt (delimiterOf boundary) content with
  | error stop =>
    rw [hat] at hopen
    cases hbody : openBody (delimiterOf boundary) content with
    | error e =>
      rw [hbody] at hopen
      cases hopen
      rfl
    | ok opened =>
      rw [hbody] at hopen
      cases hopen
  | ok position =>
    rw [hat] at hopen
    cases hbody : openBody (delimiterOf boundary) content with
    | error e =>
      rw [hbody] at hopen
      cases hopen
    | ok opened =>
      rw [hbody] at hopen
      cases hopen
      exact h position (openAt_le hat)

/-- In place, the parts are those that are read from lists, and so are the refusals. -/
theorem scanParts_eq {boundary : String} {content : Bytes} {position : Nat}
    (h : position ≤ content.length) :
    scanParts boundary content position =
      (readParts (delimiterOf boundary) (content.drop position)).mapError .refused := by
  induction hn : content.length - position using Nat.strong_induction_on
    generalizing boundary content position with
  | _ n ih =>
    subst hn
    rw [scanParts_step, readParts_step]
    cases hsplit : splitPart (delimiterOf boundary) (content.drop position) with
    | none =>
      rw [partAt_of_none h hsplit]
      rfl
    | some split =>
      obtain ⟨headers, body, after⟩ := split
      obtain ⟨span, next, hpart, rfl, -⟩ := exists_partAt (delimiterOf_ne_nil boundary) h hsplit
      obtain ⟨hbody, hnext, hle⟩ := partAt_lt (delimiterOf_ne_nil boundary) hpart
      have hinner : scanInner headers body = (innerParts headers body).mapError .refused := by
        rw [scanInner, innerParts, mapError_bind]
        refine congrArg (_ >>= ·) (funext fun announced => ?_)
        cases announced with
        | none => rfl
        | some boundary =>
          have hscan : scanMultipart boundary body =
              (parseMultipart boundary body).mapError .refused :=
            scanMultipart_of_scanParts fun opened hopened =>
              ih (body.length - opened) (by omega) hopened rfl
          dsimp only
          rw [hscan, mapError_bind]
          rfl
      rw [hpart]
      show scanInner headers body >>= _ = _
      rw [hinner, mapError_bind]
      refine congrArg (_ >>= ·) (funext fun inner => ?_)
      rw [mapError_bind, ← nextAt_eq hle]
      cases hfollowing : nextAt content next with
      | error stop => rfl
      | ok following =>
        cases following with
        | none => rfl
        | some following =>
          have hlt := nextAt_lt hfollowing
          show scanParts boundary content following >>= _ = (_ >>= _ : Except _ _).mapError _
          rw [ih (content.length - following) (by omega) hlt.2 rfl, mapError_bind]
          rfl

/-- A multipart body is split in place as it is from lists, without an offset outside of it. -/
theorem scanMultipart_eq (boundary : String) (content : Bytes) :
    scanMultipart boundary content = (parseMultipart boundary content).mapError .refused :=
  scanMultipart_of_scanParts fun _ => scanParts_eq

end SoapKit.Http
