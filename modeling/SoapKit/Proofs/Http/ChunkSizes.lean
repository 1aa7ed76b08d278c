import SoapKit.Http.Message
import SoapKit.Proofs.Http.Chunked
import SoapKit.Proofs.Http.Slices

/-!
# Chunk sizes against words

A chunk may announce any size that a 64-bit word holds. Here a chunked body is read in place, with
every slice checked and every sum with the size too (`decodeSlices`), and the result is the one that
`decodeChunked` gives (`decodeSlices_eq`). So no slice leaves the body.

Sums are another matter. The size is added to the length of its line break before it is compared
with what is left of the body, and this sum overflows for the two greatest words. The main theorem
says that nothing else goes wrong: reading overflows exactly if it comes to a chunk that announces
one of these two (`decodeSlices_outcome`). What reading comes to is told by the chunks before it
(`ComesTo`), by induction on the body in one direction and on the chunks in the other one.
-/

namespace SoapKit.Http

/-! ## Reading in place -/

/-- A fault as a computation on offsets meets it. -/
def ChunkFault.stop : ChunkFault → Stop
  | malformed => .refused .badChunk
  | sizeOverflow => .overflow

/-- The bytes of a chunk and what follows its line break, after the line that announces its size. -/
def cutChunk (size : Nat) (s : Bytes) : Except Stop (Bytes × Bytes) := do
  if s.length < (← wordSum size 2) then .error (.refused .badChunk)
  else
    let lineBreak ← slice s size (← wordSum size 2)
    if lineBreak = crlf then return (← slice s 0 size, ← slice s (← wordSum size 2) s.length)
    else .error (.refused .badChunk)

/-- The first chunk with what follows it, or nothing where the size is zero. -/
def chunkAt (s : Bytes) : Except Stop (Option (Bytes × Bytes)) := do
  match offsetOf? crlf s 0 with
  | none => .error (.refused .badChunk)
  | some lineEnd =>
    match chunkSize? (← slice s 0 lineEnd) with
    | none => .error (.refused .badChunk)
    | some size =>
      let rest ← slice s (lineEnd + 2) s.length
      if size = 0 then return none
      else return some (← cutChunk size rest)

theorem splitLine_eq (s : Bytes) : splitLine s =
    (offsetOf? crlf s 0).map fun lineEnd => (s.take lineEnd, s.drop (lineEnd + 2)) := by
  induction s with
  | nil => rfl
  | cons byte rest ih =>
    rw [splitLine, offsetOf?_cons]
    by_cases hprefix : crlf.isPrefixOf (byte :: rest) = true
    · rw [if_pos hprefix, if_pos hprefix]
      rfl
    · rw [if_neg hprefix, if_neg hprefix, ih, Option.map_map, Option.map_map]
      rfl

theorem cutChunk_overflow {size : Nat} (h : size + 2 > Decimal.maxWord) (s : Bytes) :
    cutChunk size s = .error .overflow := by
  rw [cutChunk, wordSum, if_neg (Nat.not_le.2 h)]
  rfl

theorem cutChunk_eq {size : Nat} (h : size + 2 ≤ Decimal.maxWord) (s : Bytes) :
    cutChunk size s =
      if crlf.isPrefixOf (s.drop size) then .ok (s.take size, s.drop (size + 2))
      else .error (.refused .badChunk) := by
  have hsum : wordSum size 2 = .ok (size + 2) := if_pos h
  have hcrlf : crlf.length = 2 := rfl
  simp only [cutChunk, hsum, List.isPrefixOf_iff_prefix, bind, Except.bind]
  by_cases hshort : s.length < size + 2
  · have hnot : ¬crlf <+: s.drop size := by
      intro hprefix
      have hlength := hprefix.length_le
      rw [List.length_drop] at hlength
      omega
    rw [if_pos hshort, if_neg hnot]
  · have hslice : slice s size (size + 2) = .ok ((s.drop size).take 2) := by
      rw [slice, if_pos (by omega), List.drop_take, Nat.add_sub_cancel_left]
    rw [if_neg hshort, hslice, slice_to (by omega), slice_from (by omega)]
    simp only [List.prefix_iff_eq_take, hcrlf, eq_comm]
    rfl

theorem chunkAt_eq (s : Bytes) : chunkAt s =
    match splitLine s with
    | none => .error (.refused .badChunk)
    | some (line, rest) =>
      match chunkSize? line with
      | none => .error (.refused .badChunk)
      | some size => if size = 0 then .ok none else (cutChunk size rest).map some := by
  rw [splitLine_eq, chunkAt]
  cases hoffset : offsetOf? crlf s 0 with
  | none => rfl
  | some lineEnd =>
    have hbound := add_length_le_of_offsetOf? hoffset
    rw [show crlf.length = 2 from rfl] at hbound
    simp only [slice_to (show lineEnd ≤ s.length by omega), slice_from hbound, Option.map_some]
    cases hsize : chunkSize? (s.take lineEnd) with
    | none => simp only [bind, Except.bind, hsize]
    | some size =>
      simp only [bind, Except.bind, hsize]
      rfl

theorem eq_of_cutChunk {size : Nat} {s chunk more : Bytes}
    (h : cutChunk size s = .ok (chunk, more)) :
    chunk = s.take size ∧ more = s.drop (size + 2) := by
  by_cases hsize : size + 2 > Decimal.maxWord
  · rw [cutChunk_overflow hsize] at h
    cases h
  · rw [cutChunk_eq (Nat.not_lt.1 hsize)] at h
    split_ifs at h
    cases h
    exact ⟨rfl, rfl⟩

/-- What follows a chunk is shorter than what the chunk begins. -/
theorem chunkAt_length {s chunk more : Bytes} (h : chunkAt s = .ok (some (chunk, more))) :
    more.length < s.length := by
  rw [chunkAt_eq] at h
  split at h
  · cases h
  · next line rest hsplit =>
    split at h
    · cases h
    · next size _ =>
      split_ifs at h
      · cases h
      · obtain ⟨cut, hcut, heq⟩ := map_eq_ok.1 h
        cases heq
        have hlength := splitLine_length hsplit
        rw [(eq_of_cutChunk hcut).2, List.length_drop]
        omega

/-- Reads a chunked body in place. -/
def decodeSlices (decoded s : Bytes) : Except Stop Bytes :=
  match _h : chunkAt s with
  | .error stop => .error stop
  | .ok none => .ok decoded
  | .ok (some (chunk, more)) => decodeSlices (decoded ++ chunk) more
termination_by s.length
decreasing_by exact chunkAt_length _h

/-- Where a line with a size begins a body, the chunk of this size is read. -/
theorem chunkAt_of_size {s line rest : Bytes} {size : Nat}
    (hsplit : splitLine s = some (line, rest)) (hsize : chunkSize? line = some size) :
    chunkAt s = if size = 0 then .ok none else (cutChunk size rest).map some := by
  rw [chunkAt_eq, hsplit]
  simp only [hsize]

theorem decodeSlices_step (decoded s : Bytes) : decodeSlices decoded s =
    match chunkAt s with
    | .error stop => .error stop
    | .ok none => .ok decoded
    | .ok (some (chunk, more)) => decodeSlices (decoded ++ chunk) more := by
  rw [decodeSlices]
  split <;> rename_i h <;> rw [h]

/-- Reading in place gives the same as reading line by line, so it never leaves the body. -/
theorem decodeSlices_eq (decoded s : Bytes) :
    decodeSlices decoded s = ((decodeChunked s).map (decoded ++ ·)).mapError ChunkFault.stop := by
  fun_induction decodeChunked s generalizing decoded with
  | case1 s hsplit =>
    rw [decodeSlices_step, chunkAt_eq, hsplit]
    rfl
  | case2 s line rest hsplit hsize =>
    rw [decodeSlices_step, chunkAt_eq, hsplit]
    simp only [hsize]
    rfl
  | case3 s line rest hsplit hsize =>
    rw [decodeSlices_step, chunkAt_of_size hsplit hsize]
    simp [Except.map, Except.mapError]
  | case4 s line rest hsplit size hnonzero hsize hlarge =>
    rw [decodeSlices_step, chunkAt_of_size hsplit hsize, if_neg hnonzero, cutChunk_overflow hlarge]
    rfl
  | case5 s line rest hsplit size hnonzero hsize hsmall hbreak ih =>
    have hchunk : chunkAt s = .ok (some (rest.take size, rest.drop (size + 2))) := by
      rw [chunkAt_of_size hsplit hsize, if_neg hnonzero, cutChunk_eq (Nat.not_lt.1 hsmall),
        if_pos hbreak]
      rfl
    rw [decodeSlices_step, hchunk]
    dsimp only
    rw [ih]
    cases decodeChunked (rest.drop (size + 2)) with
    | error fault => rfl
    | ok others => simp [Except.map, Except.mapError, bind, Except.bind, pure, Except.pure]
  | case6 s line rest hsplit size hnonzero hsize hsmall hbreak =>
    rw [decodeSlices_step, chunkAt_of_size hsplit hsize, if_neg hnonzero,
      cutChunk_eq (Nat.not_lt.1 hsmall), if_neg hbreak]
    rfl

/-! ## Announced sizes -/

/-- Reading comes to a line with a size, after complete chunks. -/
def ComesTo (s : Bytes) (size : Nat) : Prop :=
  ∃ chunks line rest, s = List.flatMap Chunk.written chunks ++ (Text.encode line ++ crlf ++ rest) ∧
    (∀ chunk ∈ chunks, chunk.data ≠ [] ∧ Announces chunk.line chunk.data.length) ∧
    Announces line size

/-- A line on which a size is read is a text. -/
theorem exists_announces {line rest s : Bytes} {size : Nat}
    (hsplit : splitLine s = some (line, rest)) (hsize : chunkSize? line = some size) :
    ∃ text, s = Text.encode text ++ crlf ++ rest ∧ Announces text size := by
  obtain ⟨rfl, hbreak⟩ := eq_of_splitLine hsplit
  obtain ⟨text, htext, -⟩ := Option.bind_eq_some_iff.1 hsize
  obtain rfl := Text.encode_of_decode? htext
  exact ⟨text, rfl, hbreak, hsize⟩

theorem ComesTo.cons {s : Bytes} {size : Nat} (h : ComesTo s size) {chunk : Chunk}
    (hne : chunk.data ≠ []) (hline : Announces chunk.line chunk.data.length) :
    ComesTo (chunk.written ++ s) size := by
  obtain ⟨chunks, line, rest, rfl, hchunks, hlast⟩ := h
  refine ⟨chunk :: chunks, line, rest, ?_, List.forall_mem_cons.2 ⟨⟨hne, hline⟩, hchunks⟩, hlast⟩
  rw [List.flatMap_cons, List.append_assoc, List.append_assoc]

/-- A chunk that is read is written before what follows it. -/
theorem exists_chunk {s line rest : Bytes} {size : Nat} (hsplit : splitLine s = some (line, rest))
    (hsize : chunkSize? line = some size) (hnonzero : size ≠ 0)
    (hbreak : crlf <+: rest.drop size) :
    ∃ chunk : Chunk, s = chunk.written ++ rest.drop (size + 2) ∧ chunk.data ≠ [] ∧
      Announces chunk.line chunk.data.length := by
  obtain ⟨text, rfl, htext⟩ := exists_announces hsplit hsize
  obtain ⟨after, hafter⟩ := hbreak
  have hlength : (rest.take size).length = size := by
    have := congrArg List.length hafter
    rw [List.length_append, List.length_drop, show crlf.length = 2 from rfl] at this
    rw [List.length_take]
    omega
  have hrest : rest = rest.take size ++ (crlf ++ after) := by
    rw [hafter, List.take_append_drop]
  have hmore : rest.drop (size + 2) = after := by
    rw [← List.drop_drop, ← hafter]
    rfl
  refine ⟨⟨text, rest.take size⟩, ?_, ?_, ?_⟩
  · simp only [hmore, Chunk.written, List.append_assoc]
    rw [← hrest]
  · intro hnil
    have hnil : rest.take size = [] := hnil
    rw [hnil] at hlength
    exact hnonzero hlength.symm
  · rwa [hlength]

theorem decodeChunked_overflow {s line rest : Bytes} {size : Nat}
    (hsplit : splitLine s = some (line, rest)) (hline : chunkSize? line = some size)
    (hlarge : size + 2 > Decimal.maxWord) : decodeChunked s = .error .sizeOverflow := by
  have hnonzero : size ≠ 0 := by
    rintro rfl
    exact absurd hlarge (by decide)
  rw [decodeChunked_of_size hsplit hline, if_neg hnonzero, if_pos hlarge]

/-- Only a size whose sum with the line break is no word is too large. -/
theorem decodeChunked_eq_sizeOverflow_iff (s : Bytes) :
    decodeChunked s = .error .sizeOverflow ↔
      ∃ size, ComesTo s size ∧ Decimal.maxWord < size + 2 := by
  constructor
  · intro h
    fun_induction decodeChunked s with
    | case4 s line rest hsplit size hnonzero hsize hlarge =>
      obtain ⟨text, rfl, htext⟩ := exists_announces hsplit hsize
      exact ⟨size, ⟨[], text, rest, rfl, by simp, htext⟩, hlarge⟩
    | case5 s line rest hsplit size hnonzero hsize hsmall hbreak ih =>
      have hmore : decodeChunked (rest.drop (size + 2)) = .error .sizeOverflow := by
        cases hmore : decodeChunked (rest.drop (size + 2)) with
        | error fault =>
          rw [hmore] at h
          exact h
        | ok others =>
          rw [hmore] at h
          cases h
      obtain ⟨large, hcomes, hlarge⟩ := ih hmore
      obtain ⟨chunk, rfl, hne, hline⟩ := exists_chunk hsplit hsize hnonzero
        (List.isPrefixOf_iff_prefix.1 hbreak)
      exact ⟨large, hcomes.cons hne hline, hlarge⟩
    | _ => cases h
  · rintro ⟨size, ⟨chunks, line, rest, rfl, hchunks, hline⟩, hlarge⟩
    induction chunks with
    | nil =>
      rw [List.flatMap_nil, List.nil_append]
      exact decodeChunked_overflow (splitLine_append hline.whole rest) hline.size hlarge
    | cons chunk chunks ih =>
      rw [List.forall_mem_cons] at hchunks
      obtain ⟨⟨hne, hfirst⟩, hchunks⟩ := hchunks
      rw [List.flatMap_cons, List.append_assoc]
      by_cases hword : chunk.data.length + 2 ≤ Decimal.maxWord
      · rw [Chunk.decodeChunked_written hne hfirst hword, ih hchunks]
        rfl
      · have hsplit := splitLine_append hfirst.whole (chunk.data ++ (crlf ++
          (chunks.flatMap Chunk.written ++ (Text.encode line ++ crlf ++ rest))))
        simp only [Chunk.written, List.append_assoc] at hsplit ⊢
        exact decodeChunked_overflow hsplit hfirst.size (Nat.not_le.1 hword)

/-! ## Responses -/

/-- What a response is made of when its body is announced as chunked: the bytes of the chunks, or
the body itself when it is not chunked. -/
theorem readResponse_chunked {rawHeaders : String} (h : announcesChunks (Headers.read rawHeaders))
    (s : Bytes) (status : Nat) :
    readResponse rawHeaders s status =
      match decodeSlices [] s with
      | .ok body => (splitResponse status (Headers.read rawHeaders) body).mapError .multipart
      | .error (.refused _) =>
        (splitResponse status (Headers.read rawHeaders) s).mapError .multipart
      | .error _ => .error .sizeOverflow := by
  rw [decodeSlices_eq, readResponse]
  simp only [if_pos h]
  cases decodeChunked s with
  | ok body =>
    dsimp only [bind, Except.bind, Except.map, Except.mapError, List.nil_append]
    cases splitResponse status (Headers.read rawHeaders) body <;> rfl
  | error fault =>
    cases fault with
    | malformed =>
      dsimp only [bind, Except.bind, Except.map, Except.mapError, ChunkFault.stop]
      cases splitResponse status (Headers.read rawHeaders) s <;> rfl
    | sizeOverflow => rfl

/-- A chunked body is read, or refused as malformed, without a sum that is no word and without a
slice outside of it, unless a chunk announces one of the two greatest words. Then the sum of the
size and the line break overflows, for a response too. -/
theorem decodeSlices_outcome (s : Bytes) :
    decodeSlices [] s = (decodeChunked s).mapError ChunkFault.stop ∧
    decodeSlices [] s ≠ .error .outside ∧
    (decodeSlices [] s = .error .overflow ↔ ∃ size, ComesTo s size ∧ 2 ^ 64 - 2 ≤ size) ∧
    ((∀ size, ComesTo s size → size < 2 ^ 64 - 2) →
      (∃ decoded, decodeSlices [] s = .ok decoded) ∨
        decodeSlices [] s = .error (.refused .badChunk)) ∧
    ∀ rawHeaders status, announcesChunks (Headers.read rawHeaders) →
      readResponse rawHeaders s status =
        match decodeSlices [] s with
        | .ok body => (splitResponse status (Headers.read rawHeaders) body).mapError .multipart
        | .error (.refused _) =>
          (splitResponse status (Headers.read rawHeaders) s).mapError .multipart
        | .error _ => .error .sizeOverflow := by
  have heq : decodeSlices [] s = (decodeChunked s).mapError ChunkFault.stop := by
    rw [decodeSlices_eq]
    cases decodeChunked s <;> rfl
  have hlarge : decodeChunked s = .error .sizeOverflow ↔
      ∃ size, ComesTo s size ∧ 2 ^ 64 - 2 ≤ size := by
    rw [decodeChunked_eq_sizeOverflow_iff]
    have hmax : Decimal.maxWord = 2 ^ 64 - 1 := rfl
    have hiff (size : Nat) : Decimal.maxWord < size + 2 ↔ 2 ^ 64 - 2 ≤ size := by
      omega
    simp only [hiff]
  refine ⟨heq, ?_, ?_, ?_, fun rawHeaders status h => readResponse_chunked h s status⟩
  · rw [heq]
    cases decodeChunked s with
    | ok decoded => simp [Except.mapError]
    | error fault => cases fault <;> simp [Except.mapError, ChunkFault.stop]
  · rw [← hlarge, heq]
    cases decodeChunked s with
    | ok decoded => simp [Except.mapError]
    | error fault => cases fault <;> simp [Except.mapError, ChunkFault.stop]
  · intro hsmall
    rw [heq]
    cases hdecoded : decodeChunked s with
    | ok decoded => exact .inl ⟨decoded, rfl⟩
    | error fault =>
      cases fault with
      | malformed => exact .inr rfl
      | sizeOverflow =>
        obtain ⟨size, hcomes, hsize⟩ := hlarge.1 hdecoded
        exact absurd (hsmall size hcomes) (Nat.not_lt.2 hsize)

/-- A chunk with fewer bytes than it announces is refused, and a response takes the body as it
is. -/
theorem decodeSlices_outcome_of_short :
    (∀ size, ComesTo (Text.encode "5" ++ crlf ++ [97, 98]) size → size < 2 ^ 64 - 2) ∧
    ((∃ decoded, decodeSlices [] (Text.encode "5" ++ crlf ++ [97, 98]) = .ok decoded) ∨
      decodeSlices [] (Text.encode "5" ++ crlf ++ [97, 98]) = .error (.refused .badChunk)) ∧
    readResponse "Transfer-Encoding: chunked" (Text.encode "5" ++ crlf ++ [97, 98]) 200 =
      .ok ⟨200, ⟨[("Transfer-Encoding", "chunked")]⟩, Text.encode "5" ++ crlf ++ [97, 98],
        none⟩ := by
  have houtcome := decodeSlices_outcome (Text.encode "5" ++ crlf ++ [97, 98])
  have hsize : chunkSize? (Text.encode "5") = some 5 := by
    rw [chunkSize?_encode]
    rfl
  have hslices : decodeSlices [] (Text.encode "5" ++ crlf ++ [97, 98]) =
      .error (.refused .badChunk) := by
    have hsplit := splitLine_append (not_infix_of_not_mem
      (Text.not_mem_encode (c := '\r') (s := "5") (by decide) (by decide))) [97, 98]
    rw [decodeSlices_eq, decodeChunked_of_size hsplit hsize]
    rfl
  have hsmall : ∀ size, ComesTo (Text.encode "5" ++ crlf ++ [97, 98]) size → size < 2 ^ 64 - 2 := by
    intro size hcomes
    by_contra hlarge
    have hoverflow := houtcome.2.2.1.2 ⟨size, hcomes, Nat.not_lt.1 hlarge⟩
    rw [hslices] at hoverflow
    cases hoverflow
  refine ⟨hsmall, houtcome.2.2.2.1 hsmall, ?_⟩
  rw [houtcome.2.2.2.2 "Transfer-Encoding: chunked" 200 (by decide), hslices]
  rfl

/-- A chunk that announces the last but one word overflows, where it should be refused because the
body is shorter. -/
theorem decodeSlices_overflow :
    decodeSlices [] (Text.encode "fffffffffffffffe" ++ crlf ++ [120, 13, 10]) = .error .overflow ∧
    decodeChunked (Text.encode "fffffffffffffffe" ++ crlf ++ [120, 13, 10]) =
      .error .sizeOverflow ∧
    readResponse "Transfer-Encoding: chunked"
      (Text.encode "fffffffffffffffe" ++ crlf ++ [120, 13, 10]) 200 = .error .sizeOverflow := by
  have hsize : chunkSize? (Text.encode "fffffffffffffffe") = some 18446744073709551614 := by
    rw [chunkSize?_encode]
    rfl
  have hsplit := splitLine_append (not_infix_of_not_mem
    (Text.not_mem_encode (c := '\r') (s := "fffffffffffffffe") (by decide) (by decide)))
    [120, 13, 10]
  have hdecoded := decodeChunked_overflow hsplit hsize (by decide)
  have hslices : decodeSlices [] (Text.encode "fffffffffffffffe" ++ crlf ++ [120, 13, 10]) =
      .error .overflow := by
    rw [decodeSlices_eq, hdecoded]
    rfl
  refine ⟨hslices, hdecoded, ?_⟩
  rw [readResponse_chunked (by decide), hslices]

end SoapKit.Http
