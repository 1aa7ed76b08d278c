import SoapKit.Proofs.Http.Scanning

/-!
# Where the parts lie

The bodies of the parts of a multipart body are slices of it, one after the other. None of them
holds the delimiter at the beginning of a line, each has it behind, and the last one is closed
(`Partition`). The parts of a part lie in its body in the same way, with its own boundary
(`WellSplit`). Reading gives nothing else (`parseMultipart_wellSplit`).

The two recursions of reading are taken apart. Along the parts of one body, each part lies behind
the offset at which it was looked for, and the others lie behind it (`exists_partition`). Down into
the parts, each body is shorter than the body around it (`innerParts_of_readParts`).
-/

namespace SoapKit.Http

variable {delimiter content s : Bytes} {position : Nat} {parts : List Part}

/-! ## Partitions -/

/-- A body within a content: a slice of it that holds no delimiter at the beginning of a line and
has one behind it, perhaps after a line break. -/
structure Delimited (delimiter content body : Bytes) (span : Span) : Prop where
  slice : slice content span.start span.stop = .ok body
  start : ¬delimiter <+: body
  lines : ¬(10 :: delimiter) <:+: body
  after : ∃ lineBreak ∈ lineBreaks, lineBreak ++ delimiter <+: content.drop span.stop

/-- Bodies that lie within a content one after the other, where two hyphens are behind the delimiter
after the last one. -/
structure Partition (delimiter content : Bytes) (bodies : List Bytes) (spans : List Span) :
    Prop where
  nonempty : bodies ≠ []
  delimited : List.Forall₂ (Delimited delimiter content) bodies spans
  ordered : spans.Pairwise fun earlier later => earlier.stop ≤ later.start
  closed : ∀ span ∈ spans.getLast?, ∃ lineBreak ∈ lineBreaks,
    lineBreak ++ (delimiter ++ ascii "--") <+: content.drop span.stop

/-- The bodies of the parts are a partition of the content, and exactly the parts that announce a
boundary are split, each by this boundary in the same way. -/
inductive WellSplit : String → Bytes → List Part → Prop where
  | intro {boundary : String} {content : Bytes} {parts : List Part} {spans : List Span} :
      Partition (delimiterOf boundary) content (parts.map Part.body) spans →
      (∀ part ∈ parts, ∃ announced, announcedBoundary part.headers = .ok announced ∧
        part.parts.isSome = announced.isSome) →
      (∀ part ∈ parts, ∀ inner announced, part.parts = some inner →
        announcedBoundary part.headers = .ok (some announced) →
        WellSplit announced part.body inner) →
      WellSplit boundary content parts

namespace Partition

theorem singleton {body : Bytes} {span : Span} (h : Delimited delimiter content body span)
    (hclosed : ∃ lineBreak ∈ lineBreaks,
      lineBreak ++ (delimiter ++ ascii "--") <+: content.drop span.stop) :
    Partition delimiter content [body] [span] where
  nonempty := List.cons_ne_nil _ _
  delimited := .cons h .nil
  ordered := List.pairwise_singleton _ _
  closed := by simpa using hclosed

theorem cons {body : Bytes} {span : Span} {bodies : List Bytes} {spans : List Span}
    (h : Partition delimiter content bodies spans) (hspan : Delimited delimiter content body span)
    (hbefore : ∀ later ∈ spans, span.stop ≤ later.start) :
    Partition delimiter content (body :: bodies) (span :: spans) where
  nonempty := List.cons_ne_nil _ _
  delimited := .cons hspan h.delimited
  ordered := List.pairwise_cons.2 ⟨hbefore, h.ordered⟩
  closed := by
    have hclosed := h.closed
    cases h.delimited with
    | nil => exact absurd rfl h.nonempty
    | cons =>
      rw [List.getLast?_cons_cons]
      exact hclosed

end Partition

/-! ## One part -/

/-- Reading is successful when the first part is split as its headers say and the others are read,
if there are any. -/
theorem readParts_eq_ok_iff : readParts delimiter s = .ok parts ↔
    ∃ headers body after inner others, splitPart delimiter s = some (headers, body, after) ∧
      innerParts headers body = .ok inner ∧ parts = .mk headers body inner :: others ∧
      (nextPart after = .ok none ∧ others = [] ∨
        ∃ next, nextPart after = .ok (some next) ∧ readParts delimiter next = .ok others) := by
  rw [readParts_step]
  constructor
  · intro h
    split at h
    · cases h
    · next headers body after hsplit =>
      obtain ⟨inner, hinner, h⟩ := bind_eq_ok.1 h
      obtain ⟨next, hnext, h⟩ := bind_eq_ok.1 h
      cases next with
      | none =>
        cases h
        exact ⟨headers, body, after, inner, [], hsplit, hinner, rfl, .inl ⟨hnext, rfl⟩⟩
      | some next =>
        obtain ⟨others, hothers, h⟩ := bind_eq_ok.1 h
        cases h
        exact ⟨headers, body, after, inner, others, hsplit, hinner, rfl,
          .inr ⟨next, hnext, hothers⟩⟩
  · rintro ⟨headers, body, after, inner, others, hsplit, hinner, rfl, hrest⟩
    rw [hsplit]
    refine bind_eq_ok.2 ⟨inner, hinner, bind_eq_ok.2 ?_⟩
    rcases hrest with ⟨hnext, rfl⟩ | ⟨next, hnext, hothers⟩
    · exact ⟨none, hnext, rfl⟩
    · exact ⟨some next, hnext, bind_eq_ok.2 ⟨others, hothers, rfl⟩⟩

theorem splitPart_length {headers : Headers} {body after : Bytes}
    (h : splitPart delimiter s = some (headers, body, after)) :
    body.length < s.length ∧ after.length < s.length := by
  obtain ⟨⟨head, rest⟩, hhead, h⟩ := Option.bind_eq_some_iff.1 h
  obtain ⟨⟨body', after'⟩, hbody, h⟩ := Option.bind_eq_some_iff.1 h
  cases h
  have hrest := splitHead_length hhead
  have hlength := splitAtDelimiter_length hbody
  rw [List.length_nil, Nat.zero_add] at hlength
  omega

theorem nextPart_length {after next : Bytes} (h : nextPart after = .ok (some next)) :
    next.length < after.length := by
  rw [nextPart] at h
  split_ifs at h
  · cases h
  · split at h
    · next hbreak =>
      split_ifs at h
      cases h
      exact afterLineBreak_length hbreak
    · cases h

theorem prefix_of_nextPart {after : Bytes} (h : nextPart after = .ok none) :
    ascii "--" <+: after := by
  rw [nextPart] at h
  split_ifs at h with hclosing
  · exact List.isPrefixOf_iff_prefix.1 hclosing
  · split at h
    · split_ifs at h
      cases h
    · cases h

/-- The next part begins at an offset behind the delimiter. -/
theorem exists_of_nextPart {rest : Bytes} (h : position ≤ content.length)
    (hnext : nextPart (content.drop position) = .ok (some rest)) :
    ∃ next, rest = content.drop next ∧ position < next ∧ next ≤ content.length := by
  have heq := nextAt_eq h
  rw [hnext] at heq
  obtain ⟨found, hfound, hrest⟩ := map_eq_ok.1 heq
  obtain ⟨next, rfl, hdrop⟩ := Option.map_eq_some_iff.1 hrest
  have hlt := nextAt_lt hfound
  exact ⟨next, hdrop.symm, hlt.1, hlt.2⟩

theorem Precedes.drop_stop {body after : Bytes} {span : Span}
    (h : Precedes delimiter (content.drop span.start) body after)
    (hslice : slice content span.start span.stop = .ok body) :
    ∃ lineBreak ∈ lineBreaks, content.drop span.stop = lineBreak ++ (delimiter ++ after) := by
  obtain ⟨lineBreak, hmem, htext⟩ := h.text
  refine ⟨lineBreak, hmem, ?_⟩
  rw [← (slice_eq_ok hslice).1, ← List.drop_drop, htext, List.drop_left]

theorem Precedes.delimited {body after : Bytes} {span : Span}
    (h : Precedes delimiter (content.drop span.start) body after)
    (hslice : slice content span.start span.stop = .ok body) :
    Delimited delimiter content body span where
  slice := hslice
  start := h.start
  lines := h.lines
  after := by
    obtain ⟨lineBreak, hmem, hdrop⟩ := h.drop_stop hslice
    refine ⟨lineBreak, hmem, ?_⟩
    rw [hdrop, ← List.append_assoc]
    exact List.prefix_append _ _

/-! ## All parts -/

/-- The bodies of the parts that are read from an offset on lie behind it. -/
theorem exists_partition (hne : delimiter ≠ []) (hposition : position ≤ content.length)
    (h : readParts delimiter (content.drop position) = .ok parts) :
    ∃ spans, Partition delimiter content (parts.map Part.body) spans ∧
      ∀ span ∈ spans, position ≤ span.start := by
  induction hn : content.length - position using Nat.strong_induction_on
    generalizing position parts with
  | _ n ih =>
    subst hn
    obtain ⟨headers, body, after, inner, others, hsplit, -, rfl, hrest⟩ := readParts_eq_ok_iff.1 h
    obtain ⟨span, next, -, rfl, hstart, hstop, hle, hslice, hprecedes⟩ :=
      exists_partAt hne hposition hsplit
    have hspan := hprecedes.delimited hslice
    rcases hrest with ⟨hnext, rfl⟩ | ⟨following, hnext, hothers⟩
    · refine ⟨[span], .singleton hspan ?_, by simpa using hstart.le⟩
      obtain ⟨lineBreak, hmem, hdrop⟩ := hprecedes.drop_stop hslice
      obtain ⟨epilogue, hepilogue⟩ := prefix_of_nextPart hnext
      refine ⟨lineBreak, hmem, ?_⟩
      rw [hdrop, ← hepilogue]
      exact ⟨epilogue, by simp only [List.append_assoc]⟩
    · obtain ⟨offset, rfl, hlt, hoffset⟩ := exists_of_nextPart hle hnext
      have hbound := slice_eq_ok hslice
      obtain ⟨spans, hspans, hlater⟩ := ih _ (by omega) hoffset hothers rfl
      refine ⟨span :: spans, hspans.cons hspan fun later hmem => ?_, ?_⟩
      · have := hlater later hmem
        omega
      · rw [List.forall_mem_cons]
        refine ⟨hstart.le, fun later hmem => ?_⟩
        have := hlater later hmem
        omega

/-- Each part has been split as its headers and its body say. -/
theorem innerParts_of_readParts (h : readParts delimiter s = .ok parts) :
    ∀ part ∈ parts, innerParts part.headers part.body = .ok part.parts ∧
      part.body.length < s.length := by
  induction hn : s.length using Nat.strong_induction_on generalizing s parts with
  | _ n ih =>
    subst hn
    obtain ⟨headers, body, after, inner, others, hsplit, hinner, rfl, hrest⟩ :=
      readParts_eq_ok_iff.1 h
    have hlength := splitPart_length hsplit
    rw [List.forall_mem_cons]
    refine ⟨⟨hinner, hlength.1⟩, ?_⟩
    rcases hrest with ⟨-, rfl⟩ | ⟨next, hnext, hothers⟩
    · simp
    · have hshorter := nextPart_length hnext
      intro part hpart
      have hmember := ih next.length (by omega) hothers rfl part hpart
      exact ⟨hmember.1, by omega⟩

theorem announced_of_innerParts {headers : Headers} {body : Bytes} {inner : Option (List Part)}
    (h : innerParts headers body = .ok inner) :
    ∃ announced, announcedBoundary headers = .ok announced ∧
      inner.isSome = announced.isSome ∧
      ∀ boundary parts, announced = some boundary → inner = some parts →
        parseMultipart boundary body = .ok parts := by
  obtain ⟨announced, hannounced, h⟩ := bind_eq_ok.1 h
  refine ⟨announced, hannounced, ?_⟩
  cases announced with
  | none =>
    cases h
    simp
  | some boundary =>
    obtain ⟨parts, hparts, h⟩ := bind_eq_ok.1 h
    cases h
    simp [hparts]

/-- What is split is well split, at any depth. -/
theorem wellSplit_of_parseMultipart {boundary : String}
    (h : parseMultipart boundary content = .ok parts) : WellSplit boundary content parts := by
  induction hn : content.length using Nat.strong_induction_on
    generalizing boundary content parts with
  | _ n ih =>
    subst hn
    obtain ⟨opened, hopen, hparts⟩ := bind_eq_ok.1 h
    have heq := openAt_eq (delimiterOf boundary) content
    rw [hopen] at heq
    obtain ⟨position, hposition, rfl⟩ := map_eq_ok.1 heq
    obtain ⟨spans, hspans, -⟩ :=
      exists_partition (delimiterOf_ne_nil boundary) (openAt_le hposition) hparts
    have hinner := innerParts_of_readParts hparts
    have hlength := openBody_length hopen
    refine .intro hspans (fun part hpart => ?_) fun part hpart inner announced hsome hboundary => ?_
    · obtain ⟨announced, hannounced, hsame, -⟩ := announced_of_innerParts (hinner part hpart).1
      exact ⟨announced, hannounced, hsame⟩
    · obtain ⟨announced', hannounced, -, hparse⟩ := announced_of_innerParts (hinner part hpart).1
      rw [hboundary] at hannounced
      cases hannounced
      have hshorter := (hinner part hpart).2
      exact ih part.body.length (by omega) (hparse announced inner rfl hsome) rfl

/-- Reading a multipart body comes to an end and stays within the body, and what it gives is a
partition of the body, down to the innermost parts. -/
theorem parseMultipart_wellSplit (boundary : String) (content : Bytes) :
    scanMultipart boundary content = (parseMultipart boundary content).mapError .refused ∧
    ∀ parts, parseMultipart boundary content = .ok parts → WellSplit boundary content parts :=
  ⟨scanMultipart_eq boundary content, fun _ => wellSplit_of_parseMultipart⟩

/-- A body with a part that is multipart itself, where a delimiter stands inside of a line, and with
an empty part. -/
def nestedContent : Bytes :=
  Text.encode ("--b\r\nContent-Type: multipart/mixed; boundary=c\r\n\r\n" ++
    "--c\n\nx--c\n--c--\r\n--b\n\n\r\n--b--")

/-- The parts of `nestedContent`. -/
def nestedParts : List Part :=
  [.mk ⟨[("Content-Type", "multipart/mixed; boundary=c")]⟩
      [45, 45, 99, 10, 10, 120, 45, 45, 99, 10, 45, 45, 99, 45, 45]
      (some [.mk ⟨[]⟩ [120, 45, 45, 99] none]),
    .mk ⟨[]⟩ [] none]

theorem parseMultipart_wellSplit_of_nested :
    parseMultipart "b" nestedContent = .ok nestedParts ∧
      WellSplit "b" nestedContent nestedParts := by
  have hinner : parseMultipart "c" [45, 45, 99, 10, 10, 120, 45, 45, 99, 10, 45, 45, 99, 45, 45] =
      .ok [.mk ⟨[]⟩ [120, 45, 45, 99] none] := by
    refine bind_eq_ok.2 ⟨[10, 120, 45, 45, 99, 10, 45, 45, 99, 45, 45], ?_,
      readParts_eq_ok_iff.2 ⟨⟨[]⟩, [120, 45, 45, 99], [45, 45], none, [], ?_, rfl, rfl,
        .inl ⟨?_, rfl⟩⟩⟩
    · rw [delimiterOf_eq, Text.encode_eq]
      rfl
    · rw [delimiterOf_eq, Text.encode_eq]
      rfl
    · rw [nextPart, ascii_hyphens]
      rfl
  have hlast : readParts (delimiterOf "b") [10, 13, 10, 45, 45, 98, 45, 45] =
      .ok [.mk ⟨[]⟩ [] none] := by
    refine readParts_eq_ok_iff.2 ⟨⟨[]⟩, [], [45, 45], none, [], ?_, rfl, rfl, .inl ⟨?_, rfl⟩⟩
    · rw [delimiterOf_eq, Text.encode_eq]
      rfl
    · rw [nextPart, ascii_hyphens]
      rfl
  have hparse : parseMultipart "b" nestedContent = .ok nestedParts := by
    refine bind_eq_ok.2 ⟨nestedContent.drop 5, ?_, readParts_eq_ok_iff.2
      ⟨⟨[("Content-Type", "multipart/mixed; boundary=c")]⟩,
        [45, 45, 99, 10, 10, 120, 45, 45, 99, 10, 45, 45, 99, 45, 45],
        [10, 10, 13, 10, 45, 45, 98, 45, 45], some [.mk ⟨[]⟩ [120, 45, 45, 99] none],
        [.mk ⟨[]⟩ [] none], ?_, bind_eq_ok.2 ⟨some "c", rfl, bind_eq_ok.2 ⟨_, hinner, rfl⟩⟩, rfl,
        .inr ⟨[10, 13, 10, 45, 45, 98, 45, 45], ?_, hlast⟩⟩⟩
    · rw [delimiterOf_eq, nestedContent, Text.encode_eq, Text.encode_eq]
      rfl
    · rw [delimiterOf_eq, nestedContent, Text.encode_eq, Text.encode_eq]
      rfl
    · rw [nextPart, ascii_hyphens]
      rfl
  exact ⟨hparse, (parseMultipart_wellSplit "b" nestedContent).2 nestedParts hparse⟩

end SoapKit.Http
