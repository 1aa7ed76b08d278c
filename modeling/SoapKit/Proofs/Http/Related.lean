import SoapKit.Http.Message
import SoapKit.Proofs.Http.Chunked
import SoapKit.Proofs.Http.Multipart
import SoapKit.Proofs.Http.Parameters

/-!
# Related parts

**Theorem (`readResponse_related`).** A response whose headers announce related parts is read with
the parts that its body is framed from, and its primary body is that of the part which the content
type names as the start, or that of the first part. Chunks make no difference: where they are
announced, the body may be sent in chunks or as it is.

The places that the argument goes through:

* the boundary and the start are found in the content type as they were written
  (`announcedBoundary_eq`, `startId_eq`);
* a framed body begins with a line on which no size stands, so it is never taken for chunks
  (`decodeChunked_framed`), and whatever is sent for it is received as the body
  (`Sent.readResponse_eq`);
* an identifier is compared without the brackets around it, in a part and in the content type alike
  (`bareId_eq_iff`), so the part that is found is the first one that has it
  (`IsPrimary.primaryBody_eq`).
-/

namespace SoapKit.Http

/-! ## Identifiers -/

/-- An identifier with any number of angle brackets on both sides. -/
def Bracketed (id text : List Char) : Prop :=
  ∃ m n, text = List.replicate m '<' ++ id ++ List.replicate n '>'

/-- An identifier that can be told apart from what is written around it. -/
structure IsId (id : String) : Prop where
  trimmed : Text.trim id.toList = id.toList
  brackets : '<' ∉ id.toList ∧ '>' ∉ id.toList
  quote : '"' ∉ id.toList
  semicolon : ';' ∉ id.toList

theorem bareId_bracketed {id : String} (hid : IsId id) {text : List Char}
    (h : Bracketed id.toList text) : bareId text = id := by
  obtain ⟨m, n, rfl⟩ := h
  have hstart : (List.replicate m '<' ++ id.toList ++ List.replicate n '>').dropWhile (· == '<') =
      id.toList ++ List.replicate n '>' := by
    rw [List.append_assoc]
    refine Text.dropWhile_span (by simp)
      (Text.stopsAt_append (stopsAt_of_not_mem hid.brackets.1) ?_)
    exact stopsAt_of_not_mem fun hmem => by simp at hmem
  have hend : (id.toList ++ List.replicate n '>').reverse.dropWhile (· == '>') =
      id.toList.reverse := by
    rw [List.reverse_append]
    exact Text.dropWhile_span (by simp)
      (stopsAt_of_not_mem fun hmem => hid.brackets.2 (List.mem_reverse.1 hmem))
  rw [bareId, hstart, hend, List.reverse_reverse, String.ofList_toList]

theorem eq_replicate_append_dropWhile (c : Char) (s : List Char) :
    ∃ n, s = List.replicate n c ++ s.dropWhile (· == c) := by
  refine ⟨(s.takeWhile (· == c)).length, ?_⟩
  have htaken : s.takeWhile (· == c) = List.replicate (s.takeWhile (· == c)).length c :=
    List.eq_replicate_of_mem fun d hd => by simpa using List.mem_takeWhile_imp hd
  rw [← htaken, List.takeWhile_append_dropWhile]

/-- What is left without brackets is an identifier exactly when it stands between them. -/
theorem bareId_eq_iff {id : String} (hid : IsId id) {text : List Char} :
    bareId text = id ↔ Bracketed id.toList text := by
  refine ⟨fun h => ?_, bareId_bracketed hid⟩
  obtain ⟨m, hm⟩ := eq_replicate_append_dropWhile '<' text
  obtain ⟨n, hn⟩ := eq_replicate_append_dropWhile '>' (text.dropWhile (· == '<')).reverse
  have hback := congrArg List.reverse hn
  rw [List.reverse_reverse, List.reverse_append, List.reverse_replicate] at hback
  refine ⟨m, n, ?_⟩
  rw [← h, bareId, String.toList_ofList, List.append_assoc, ← hback]
  exact hm

theorem Bracketed.trim_eq {id : String} (hid : IsId id) {text : List Char}
    (h : Bracketed id.toList text) : Text.trim text = text := by
  obtain ⟨m, n, rfl⟩ := h
  have hmarks : ∀ (k : Nat) (mark : Char), Text.isBlank mark = false →
      Text.StopsAt Text.isBlank (List.replicate k mark) := by
    intro k mark hmark
    exact Text.stopsAt_of_forall fun c hc => by rwa [List.eq_of_mem_replicate hc]
  have hopen := hmarks m '<' (by decide)
  have hclose := hmarks n '>' (by decide)
  refine Text.trim_eq_of_stopsAt ?_ ?_
  · exact Text.stopsAt_append (Text.stopsAt_append hopen (Text.stopsAt_of_trim_eq hid.trimmed))
      hclose
  · rw [List.reverse_append, List.reverse_append, List.reverse_replicate, List.reverse_replicate]
    exact Text.stopsAt_append hclose
      (Text.stopsAt_append (Text.stopsAt_reverse_of_trim_eq hid.trimmed) hopen)

theorem Bracketed.quote_not_mem {id : String} (hid : IsId id) {text : List Char}
    (h : Bracketed id.toList text) : '"' ∉ text := by
  obtain ⟨m, n, rfl⟩ := h
  simp [hid.quote]

/-! ## The primary part -/

/-- A part with an identifier, in brackets or without. -/
def PlainPart.HasId (part : PlainPart) (id : String) : Prop :=
  ∃ value, part.headers.get? "content-id" = some value ∧ Bracketed id.toList value.toList

/-- The first part with the identifier of the start, and the first part of all where no identifier
is given or no part has it. -/
inductive IsPrimary (start : Option String) (parts : List PlainPart) : PlainPart → Prop where
  | named {id : String} {part : PlainPart} {before after : List PlainPart} : start = some id →
      parts = before ++ part :: after → (∀ earlier ∈ before, ¬earlier.HasId id) →
      part.HasId id → IsPrimary start parts part
  | first {part : PlainPart} {rest : List PlainPart} : parts = part :: rest →
      (∀ id ∈ start, ∀ part ∈ parts, ¬part.HasId id) → IsPrimary start parts part

variable {boundary : String} {part : PlainPart} {parts : List PlainPart}

theorem PlainPart.Fits.contentId_eq_iff {delimiter : Bytes} (h : part.Fits delimiter) {id : String}
    (hid : IsId id) : part.toPart.contentId = some id ↔ part.HasId id := by
  show (part.headers.get? "content-id").map _ = some id ↔ _
  rw [Option.map_eq_some_iff]
  refine exists_congr fun value => and_congr_right fun hvalue => ?_
  obtain ⟨entry, hentry, -, rfl⟩ := Headers.exists_of_get? hvalue
  rw [Headers.trim_toList (h.headers entry hentry).value_trimmed, bareId_eq_iff hid]

/-- The primary body of a response is that of its primary part. -/
theorem IsPrimary.primaryBody_eq {start : Option String} (h : IsPrimary start parts part)
    (hparts : ∀ part ∈ parts, part.Fits (delimiterOf boundary)) (hstart : ∀ id ∈ start, IsId id)
    {response : Response} (hresponse : response.parts = some (parts.map PlainPart.toPart))
    (hid : response.startId = start) : response.primaryBody = part.body := by
  have hnone : ∀ {id : String} {others : List PlainPart}, start = some id →
      (∀ other ∈ others, other ∈ parts) → (∀ other ∈ others, ¬other.HasId id) →
      (others.map PlainPart.toPart).find? (fun part => part.contentId == some id) = none := by
    rintro id others rfl hmem hno
    rw [List.find?_eq_none]
    intro _ hmap
    obtain ⟨other, hother, rfl⟩ := List.mem_map.1 hmap
    rw [beq_iff_eq, (hparts other (hmem other hother)).contentId_eq_iff (hstart id rfl)]
    exact hno other hother
  have hprimary : response.primaryPart = some part.toPart := by
    cases h with
    | @named id _ before after hstart' hsplit hbefore hpart =>
      subst hsplit
      have hfound : (part.toPart.contentId == some id) = true := by
        rw [beq_iff_eq, (hparts part (by simp)).contentId_eq_iff (hstart id hstart')]
        exact hpart
      rw [Response.primaryPart, hresponse, Option.bind_eq_bind, Option.bind_some, hid, hstart']
      dsimp only
      rw [List.map_append, List.find?_append, hnone hstart' (fun other h => by simp [h]) hbefore,
        List.map_cons, List.find?_cons, hfound]
      rfl
    | @first _ rest hfirst hno =>
      rw [Response.primaryPart, hresponse, Option.bind_eq_bind, Option.bind_some, hid]
      cases start with
      | none => rw [hfirst]; rfl
      | some id =>
        dsimp only
        rw [hnone rfl (fun _ h => h) (hno id rfl), hfirst]
        rfl
  rw [Response.primaryBody, hprimary]
  rfl

/-! ## Content types -/

/-- A boundary that can stand in a content type, with quotes or without, and on a line. -/
structure IsBoundary (boundary : String) : Prop where
  nonempty : boundary ≠ ""
  trimmed : Text.trim boundary.toList = boundary.toList
  quote : '"' ∉ boundary.toList
  semicolon : ';' ∉ boundary.toList
  breaks : '\r' ∉ boundary.toList ∧ '\n' ∉ boundary.toList

/-- A content type of related parts with a boundary, and with the identifier of a start or without
one. -/
structure ContentType.Announces (contentType : ContentType) (boundary : String)
    (start : Option String) : Prop where
  kind : ∃ name, Text.Padded name contentType.kind.toList ∧
    name.map Char.toLower = "multipart/related".toList
  boundary : contentType.Gives "boundary" boundary.toList
  start : match start with
    | none => contentType.Lacks "start"
    | some id => IsId id ∧ ∃ written, Bracketed id.toList written ∧
        contentType.Gives "start" written

theorem not_blank_of_toLower_eq {c d : Char} (hd : Text.isBlank d = false)
    (h : c.toLower = d) : Text.isBlank c = false := by
  by_cases hc : 65 ≤ c.toNat ∧ c.toNat ≤ 90
  · simp only [Text.isBlank, Bool.or_eq_false_iff, Bool.and_eq_false_iff, decide_eq_false_iff_not,
      beq_eq_false_iff_ne]
    omega
  · have hlower : c.toLower = c := dif_neg hc
    rw [← hlower, h]
    exact hd

namespace ContentType.Announces

variable {contentType : ContentType} {start : Option String} {headers : Headers}

theorem announcedBoundary_eq (h : contentType.Announces boundary start)
    (hboundary : IsBoundary boundary)
    (hheaders : headers.get? "content-type" = some contentType.text) :
    announcedBoundary headers = .ok (some boundary) := by
  obtain ⟨name, ⟨lead, trail, hlead, -, hkind⟩, hname⟩ := h.kind
  obtain ⟨c, rest, rfl⟩ : ∃ c rest, name = c :: rest :=
    List.exists_cons_of_ne_nil fun hnil => by rw [hnil] at hname; cases hname
  have hc : Text.isBlank c = false := not_blank_of_toLower_eq (by decide) (List.cons.inj hname).1
  have htext : contentType.text.toList = lead ++ (c :: (rest ++ (trail ++
      contentType.pieces.flatMap fun piece => ';' :: piece.toList))) := by
    rw [text, String.toList_ofList, hkind]
    simp
  have hmultipart : (Text.after? "multipart/".toList
      ((Text.trimStart contentType.text.toList).map Char.toLower)).isSome = true := by
    rw [htext, Text.trimStart, Text.dropWhile_span hlead (Text.stopsAt_cons hc),
      ← List.cons_append, List.map_append, hname, Text.after?, if_pos (by simp)]
    rfl
  have hvalue := h.boundary.contentTypeParameter_eq hboundary.trimmed hboundary.quote
  rw [String.ofList_toList] at hvalue
  simp only [announcedBoundary, hheaders, hmultipart, hvalue, if_true]
  rw [if_neg (by simpa using hboundary.nonempty)]

theorem startId_eq (h : contentType.Announces boundary start) {response : Response}
    (hheaders : response.headers.get? "content-type" = some contentType.text) :
    response.startId = start := by
  have hgiven := h.start
  rw [Response.startId, hheaders, Option.bind_some]
  cases start with
  | none =>
    rw [Lacks.contentTypeParameter_eq hgiven]
    rfl
  | some id =>
    obtain ⟨hid, written, hwritten, hgives⟩ := hgiven
    rw [hgives.contentTypeParameter_eq (hwritten.trim_eq hid) (hwritten.quote_not_mem hid),
      Option.map_some, String.toList_ofList, bareId_bracketed hid hwritten]

end ContentType.Announces

/-! ## Bodies in chunks or as they are -/

/-- What is sent for a body: the body itself, or, where this is announced, the body in chunks. -/
inductive Sent (headers : Headers) (body : Bytes) : Bytes → Prop where
  | whole : Sent headers body body
  | chunked {encoding : String} {chunks : List Chunk} {last : String} (trailer : Bytes) :
      headers.get? "transfer-encoding" = some encoding → sameName encoding "chunked" →
      (∀ chunk ∈ chunks, chunk.Fits) → chunks.flatMap Chunk.data = body → IsSizeLine last 0 →
      Sent headers body (chunked chunks last trailer)

/-- A framed body is not taken for chunks. -/
theorem decodeChunked_framed (hboundary : '\r' ∉ boundary.toList) (epilogue : Bytes)
    (hne : parts ≠ []) : decodeChunked (framed boundary epilogue parts) = .error .malformed := by
  obtain ⟨part, rest, rfl⟩ := List.exists_cons_of_ne_nil hne
  have hline : delimiterOf boundary = Text.encode ("--" ++ boundary) := by
    simp [delimiterOf, ascii, Text.encode_eq]
  have hreturn : 13 ∉ delimiterOf boundary := by
    rw [delimiterOf_eq]
    simpa using return_not_mem_encode hboundary
  have hsize : chunkSize? (delimiterOf boundary) = none := by
    have hhyphens : ("--" ++ boundary).toList = '-' :: '-' :: boundary.toList := by simp
    rw [hline]
    exact chunkSize?_hyphen hhyphens
  have hframed : framed boundary epilogue (part :: rest) =
      delimiterOf boundary ++ crlf ++ (part.written ++ crlf ++ delimiterOf boundary ++
        framedFrom (delimiterOf boundary) epilogue rest) := by
    simp [framed, framedFrom]
  rw [hframed]
  exact decodeChunked_of_line hreturn hsize _

/-- What is sent is received as the body, if this is nothing that would be taken for chunks and its
length with a line break can be counted in a word. -/
theorem Sent.readResponse_eq {raw : String} {body sent : Bytes}
    (h : Sent (Headers.read raw) body sent) (hbody : decodeChunked body = .error .malformed)
    (hword : body.length + 2 ≤ Decimal.maxWord) (status : Nat) :
    readResponse raw sent status =
      match splitResponse status (Headers.read raw) body with
      | .ok response => .ok response
      | .error e => .error (.multipart e) := by
  cases h with
  | whole =>
    rw [readResponse, hbody]
    cases announcesChunks (Headers.read raw) <;> rfl
  | chunked trailer hencoding hname hchunks hdata hlast =>
    have hannounced : announcesChunks (Headers.read raw) = true := by
      rw [announcesChunks, hencoding]
      exact hname
    have hdecoded := decodeChunked_chunked trailer hchunks hlast (by rwa [hdata])
    rw [readResponse, hannounced, hdecoded, hdata]
    rfl

/-! ## Responses of related parts -/

/-- A response of related parts is read back, with the primary body that its start names, whatever
is sent for its body. A body has less than `2 ^ 63` bytes, as everything that is in memory. -/
theorem readResponse_related {boundary raw : String} {start : Option String}
    {contentType : ContentType} {parts : List PlainPart} {epilogue sent : Bytes} {status : Nat}
    (hboundary : IsBoundary boundary) (hne : parts ≠ [])
    (hparts : ∀ part ∈ parts, part.Fits (delimiterOf boundary))
    (hheaders : (Headers.read raw).get? "content-type" = some contentType.text)
    (hannounces : contentType.Announces boundary start)
    (hsent : Sent (Headers.read raw) (framed boundary epilogue parts) sent)
    (hsize : (framed boundary epilogue parts).length < 2 ^ 63) :
    ∃ response, readResponse raw sent status = .ok response ∧
      response.status = status ∧ response.headers = Headers.read raw ∧
      response.body = framed boundary epilogue parts ∧
      response.parts = some (parts.map PlainPart.toPart) ∧
      ∀ part, IsPrimary start parts part → response.primaryBody = part.body := by
  have hread := hsent.readResponse_eq (decodeChunked_framed hboundary.breaks.1 epilogue hne)
    (show _ ≤ 2 ^ 64 - 1 by omega) status
  have hsplit : parseMultipart boundary (framed boundary epilogue parts) =
      .ok (parts.map PlainPart.toPart) := by
    obtain ⟨part, rest, rfl⟩ := List.exists_cons_of_ne_nil hne
    have hreturn : 13 ∉ delimiterOf boundary := by
      rw [delimiterOf_eq]
      simpa using return_not_mem_encode hboundary.breaks.1
    rw [parseMultipart, openBody_framed]
    rw [delimiterOf_eq] at hreturn hparts ⊢
    exact readParts_framed hreturn epilogue hparts
  have hresponse : splitResponse status (Headers.read raw) (framed boundary epilogue parts) =
      .ok ⟨status, Headers.read raw, framed boundary epilogue parts,
        some (parts.map PlainPart.toPart)⟩ := by
    rw [splitResponse, hannounces.announcedBoundary_eq hboundary hheaders]
    show (parseMultipart _ _ >>= _) = _
    rw [hsplit]
    rfl
  rw [hresponse] at hread
  refine ⟨_, hread, rfl, rfl, rfl, rfl, fun part hpart => ?_⟩
  refine hpart.primaryBody_eq hparts (fun id hid => ?_) rfl (hannounces.startId_eq hheaders)
  have hgiven := hannounces.start
  rw [Option.mem_def.1 hid] at hgiven
  exact hgiven.1

/-- Two parts, the second one with a bracket on one side of its identifier. -/
def lopsidedParts : List PlainPart :=
  [⟨⟨[("Content-ID", "<a>")]⟩, [120]⟩, ⟨⟨[("Content-ID", "r>")]⟩, [60, 97, 47, 62]⟩]

/-- The second line of the headers goes on with the first one. -/
theorem read_lopsided :
    Headers.read
      "Content-Type: Multipart/Related;\n start=\"<r>\" ; boundary=b\nTransfer-Encoding: Chunked" =
      ⟨[("Content-Type", "Multipart/Related; start=\"<r>\" ; boundary=b"),
        ("Transfer-Encoding", "Chunked")]⟩ := by
  have hlines : Text.lines
      "Content-Type: Multipart/Related;\n start=\"<r>\" ; boundary=b\nTransfer-Encoding: Chunked" =
        ["Content-Type: Multipart/Related;", " start=\"<r>\" ; boundary=b",
          "Transfer-Encoding: Chunked"] := by
    simp [Text.lines]
    decide
  rw [Headers.read, hlines]
  decide +kernel

/-- The second part is the start, and the body comes in two chunks below a folded header. -/
theorem readResponse_related_of_lopsided :
    ∃ response, readResponse
        "Content-Type: Multipart/Related;\n start=\"<r>\" ; boundary=b\nTransfer-Encoding: Chunked"
        (chunked [⟨"0A;x", (framed "b" [] lopsidedParts).take 10⟩,
          ⟨" 33", (framed "b" [] lopsidedParts).drop 10⟩] "0" []) 200 = .ok response ∧
      response.primaryBody = [60, 97, 47, 62] := by
  have hdelimiter : delimiterOf "b" = [45, 45, 98] := by
    rw [delimiterOf_eq, Text.encode_eq]
    decide
  have hlength : (framed "b" [] lopsidedParts).length = 61 := by
    simp only [framed, framedFrom, hdelimiter, ascii, Text.encode_eq, lopsidedParts,
      PlainPart.written, Headers.line]
    decide
  have hfits : ∀ part ∈ lopsidedParts, part.Fits (delimiterOf "b") := by
    rw [hdelimiter, lopsidedParts, List.forall_mem_cons, List.forall_mem_singleton]
    refine ⟨⟨?_, by decide, by decide, by decide⟩, ⟨?_, by decide, by decide, by decide⟩⟩
    all_goals
      rw [List.forall_mem_singleton]
      exact ⟨by decide, by decide, by decide, by decide, by decide, by decide, by decide⟩
  have hspace : ∀ c ∈ [' '], Text.isBlank c = true := List.forall_mem_singleton.2 (by decide)
  have hid : IsId "r" := ⟨by decide, by decide, by decide, by decide⟩
  have hannounces : ContentType.Announces ⟨"Multipart/Related",
      [" start=\"<r>\" ", " boundary=b"], by decide, by decide⟩ "b" (some "r") := by
    refine ⟨⟨"Multipart/Related".toList, ⟨[], [], by simp, by simp, by simp⟩, by decide⟩, ?_, ?_⟩
    · refine ⟨[" start=\"<r>\" "], " boundary=b", [], ['b'], rfl, ?_,
        ⟨" boundary".toList, by decide, by decide, by decide⟩, .inl ⟨[], [], by simp⟩⟩
      intro earlier hearlier text hassigns
      have hnone : parameterOf "boundary" " start=\"<r>\" ".toList = none := by decide
      rw [List.mem_singleton.1 hearlier] at hassigns
      rw [parameterOf_of_assigns hassigns] at hnone
      cases hnone
    · refine ⟨hid, "<r>".toList, ⟨1, 1, by decide⟩, [], " start=\"<r>\" ", [" boundary=b"],
        "\"<r>\" ".toList, rfl, by simp, ⟨" start".toList, by decide, by decide, by decide⟩, ?_⟩
      exact .inr ⟨[], [' '], by simp, hspace, by decide⟩
  have hfirst : Chunk.Fits ⟨"0A;x", (framed "b" [] lopsidedParts).take 10⟩ := by
    refine ⟨List.ne_nil_of_length_pos (by rw [List.length_take, hlength]; decide), ?_⟩
    rw [List.length_take, hlength]
    exact ⟨['0', 'A'], ['0', 'A'], [';', 'x'], ⟨by simp, [0, 10], by decide, by decide⟩,
      ⟨[], [], by simp⟩, .inr ⟨['x'], rfl⟩, by decide, by decide⟩
  have hsecond : Chunk.Fits ⟨" 33", (framed "b" [] lopsidedParts).drop 10⟩ := by
    refine ⟨List.ne_nil_of_length_pos (by rw [List.length_drop, hlength]; decide), ?_⟩
    rw [List.length_drop, hlength]
    exact ⟨['3', '3'], [' ', '3', '3'], [], ⟨by simp, [3, 3], by decide, by decide⟩,
      ⟨[' '], [], hspace, by simp, rfl⟩, .inl rfl, by decide, by decide⟩
  have hlast : IsSizeLine "0" 0 :=
    ⟨['0'], ['0'], [], ⟨by simp, [0], by decide, by decide⟩, ⟨[], [], by simp⟩, .inl rfl,
      by decide, by decide⟩
  have hprimary : IsPrimary (some "r") lopsidedParts
      ⟨⟨[("Content-ID", "r>")]⟩, [60, 97, 47, 62]⟩ := by
    refine @IsPrimary.named _ _ "r" _ (lopsidedParts.take 1) [] rfl rfl (fun earlier hmem h => ?_)
      ⟨"r>", by decide, 0, 1, rfl⟩
    have hcontentId := ((hfits earlier (List.mem_of_mem_take hmem)).contentId_eq_iff hid).2 h
    rw [List.mem_singleton.1 hmem] at hcontentId
    exact absurd hcontentId (by decide)
  have hsent : Sent (Headers.read
        "Content-Type: Multipart/Related;\n start=\"<r>\" ; boundary=b\nTransfer-Encoding: Chunked")
        (framed "b" [] lopsidedParts)
        (chunked [⟨"0A;x", (framed "b" [] lopsidedParts).take 10⟩,
          ⟨" 33", (framed "b" [] lopsidedParts).drop 10⟩] "0" []) := by
    refine @Sent.chunked _ _ "Chunked" _ _ [] ?_ (by decide) ?_ (by simp) hlast
    · rw [read_lopsided]
      decide +kernel
    · exact List.forall_mem_cons.2 ⟨hfirst, List.forall_mem_singleton.2 hsecond⟩
  refine (readResponse_related ⟨by decide, by decide, by decide, by decide, by decide⟩
    (by simp [lopsidedParts]) hfits (by rw [read_lopsided]; decide +kernel) hannounces hsent
    (by rw [hlength]; decide)).imp fun response h => ⟨h.1, h.2.2.2.2.2 _ hprimary⟩

end SoapKit.Http
