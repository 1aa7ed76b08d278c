import SoapKit.Http.Chunked
import SoapKit.Proofs.Except
import SoapKit.Proofs.Http.Headers
import SoapKit.Proofs.Text.Utf8
import Mathlib.Data.Nat.Digits.Defs

/-!
# Chunked bodies read back

A body is sent in chunks by writing a size line, the bytes and a line break for each, and a line
with the size zero at the end. Reading gives the bytes of all chunks (`decodeChunked_chunked`), by
induction over the chunks. A size line may have leading zeros, digits of either case, blanks around
the digits and extensions.

What begins with a line that no size stands on is not chunked (`decodeChunked_of_line`). A line that
begins with a hyphen is one of these (`chunkSize?_hyphen`).
-/

namespace SoapKit

open Decimal (hexDigit?)

/-! ## Hexadecimal numbers -/

/-- The digits of a number in hexadecimal, the most significant first. -/
def Decimal.IsHex (digits : List Char) (n : Nat) : Prop :=
  digits ≠ [] ∧ ∃ values, List.Forall₂ (fun c value => hexDigit? c = some value) digits values ∧
    Nat.ofDigits 16 values.reverse = n

theorem Decimal.foldDigits_hex {digits : List Char} {values : List Nat}
    (h : List.Forall₂ (fun c value => hexDigit? c = some value) digits values) (acc : Nat) :
    foldDigits hexDigit? 16 acc digits =
      some (acc * 16 ^ values.length + Nat.ofDigits 16 values.reverse) := by
  induction h generalizing acc with
  | nil => simp [foldDigits]
  | @cons c value digits values hc _ ih =>
    rw [foldDigits, hc]
    show foldDigits hexDigit? 16 (acc * 16 + value) digits = _
    rw [ih, List.reverse_cons, Nat.ofDigits_append, Nat.ofDigits_singleton, List.length_reverse,
      List.length_cons]
    congr 1
    ring

theorem Decimal.toNat_of_hexDigit? {c : Char} {value : Nat} (h : hexDigit? c = some value) :
    48 ≤ c.toNat ∧ c.toNat ≤ 57 ∨ 65 ≤ c.toNat ∧ c.toNat ≤ 102 := by
  have hle {a b : Char} (hab : a ≤ b) : a.toNat ≤ b.toNat := UInt32.le_iff_toNat_le.1 hab
  unfold hexDigit? at h
  split at h
  · rename_i hc
    exact .inl ⟨hle hc.1, hle hc.2⟩
  · split at h
    · rename_i hc
      exact .inr ⟨Nat.le_trans (by decide) (hle hc.1), hle hc.2⟩
    · split at h
      · rename_i hc
        exact .inr ⟨hle hc.1, Nat.le_trans (hle hc.2) (by decide)⟩
      · cases h

/-- A digit is no other mark of a size line. -/
theorem Decimal.ne_of_hexDigit? {c mark : Char} {value : Nat} (h : hexDigit? c = some value)
    (hmark : hexDigit? mark = none) : c ≠ mark := by
  rintro rfl
  rw [hmark] at h
  cases h

theorem Decimal.not_blank_of_hexDigit? {c : Char} {value : Nat} (h : hexDigit? c = some value) :
    Text.isBlank c = false := by
  have hrange := toNat_of_hexDigit? h
  simp only [Text.isBlank, Bool.or_eq_false_iff, Bool.and_eq_false_iff, decide_eq_false_iff_not,
    beq_eq_false_iff_ne]
  omega

theorem Decimal.IsHex.exists_digit {digits : List Char} {n : Nat} (h : IsHex digits n) {c : Char}
    (hc : c ∈ digits) : ∃ value, hexDigit? c = some value := by
  obtain ⟨-, values, hvalues, -⟩ := h
  obtain ⟨value, -, hvalue⟩ := exists_mem_of_forall₂ (List.Forall₂.flip hvalues) hc
  exact ⟨value, hvalue⟩

theorem Decimal.IsHex.unsigned?_eq {digits : List Char} {n max : Nat} (h : IsHex digits n)
    (hn : n ≤ max) : unsigned? hexDigit? 16 max digits = some n := by
  obtain ⟨c, rest, rfl⟩ := List.exists_cons_of_ne_nil h.1
  have hplus : c ≠ '+' := by
    obtain ⟨value, hvalue⟩ := h.exists_digit List.mem_cons_self
    exact ne_of_hexDigit? hvalue (by decide)
  have hdigits : digits? hexDigit? 16 (c :: rest) = some n := by
    obtain ⟨-, values, hvalues, rfl⟩ := h
    have hfold := foldDigits_hex hvalues 0
    rw [Nat.zero_mul, Nat.zero_add] at hfold
    rw [digits?, if_neg (by simp), hfold]
  unfold unsigned?
  split
  · rename_i heq
    cases heq
    exact absurd rfl hplus
  · rw [hdigits]
    simp [hn]

namespace Http

/-! ## Size lines -/

/-- A line on which a size stands: hexadecimal digits with any blanks around them, and perhaps
extensions behind a semicolon. -/
def IsSizeLine (line : String) (size : Nat) : Prop :=
  ∃ digits text extensions, Decimal.IsHex digits size ∧ Text.Padded digits text ∧
    (extensions = [] ∨ ∃ more, extensions = ';' :: more) ∧ line.toList = text ++ extensions ∧
    '\r' ∉ line.toList

theorem IsSizeLine.return_not_mem {line : String} {size : Nat} (h : IsSizeLine line size) :
    13 ∉ Text.encode line := by
  obtain ⟨-, -, -, -, -, -, -, hreturn⟩ := h
  exact Text.not_mem_encode (c := '\r') (by decide) hreturn

theorem chunkSize?_encode (line : String) :
    chunkSize? (Text.encode line) =
      Decimal.unsigned? hexDigit? 16 Decimal.maxWord
        (Text.trim ((Text.pieces ';' line.toList).headD [])) := by
  rw [chunkSize?, Text.decode?_encode]
  rfl

/-- The size is read from what stands before the extensions. -/
theorem chunkSize?_eq_of_isHex {line : String} {digits text extensions : List Char} {size : Nat}
    (hhex : Decimal.IsHex digits size) (hpadded : Text.Padded digits text)
    (hextensions : extensions = [] ∨ ∃ more, extensions = ';' :: more)
    (hline : line.toList = text ++ extensions) (hsize : size ≤ Decimal.maxWord) :
    chunkSize? (Text.encode line) = some size := by
  have hdigit : ∀ c ∈ digits, Text.isBlank c = false := by
    intro c hc
    obtain ⟨value, hvalue⟩ := hhex.exists_digit hc
    exact Decimal.not_blank_of_hexDigit? hvalue
  have hmark : ';' ∉ text := by
    obtain ⟨lead, trail, hlead, htrail, rfl⟩ := hpadded
    rw [List.mem_append, List.mem_append, not_or, not_or]
    refine ⟨⟨fun hmem => ?_, fun hmem => ?_⟩, fun hmem => ?_⟩
    · exact absurd (hlead _ hmem) (by decide)
    · obtain ⟨value, hvalue⟩ := hhex.exists_digit hmem
      exact Decimal.ne_of_hexDigit? hvalue (by decide) rfl
    · exact absurd (htrail _ hmem) (by decide)
  have hfirst : (Text.pieces ';' line.toList).headD [] = text := by
    rcases hextensions with rfl | ⟨more, rfl⟩
    · rw [hline, List.append_nil, Text.pieces_of_not_mem hmark]
      rfl
    · rw [hline, Text.pieces_append _ hmark]
      rfl
  rw [chunkSize?_encode, hfirst, hpadded.trim_eq (Text.trim_eq_self hdigit)]
  exact hhex.unsigned?_eq hsize

/-- A line that has no line break in it and on which a size is read. -/
structure Announces (line : String) (size : Nat) : Prop where
  whole : ¬crlf <:+: Text.encode line
  size : chunkSize? (Text.encode line) = some size

/-- Where there is no carriage return, there is no line break. -/
theorem not_infix_of_not_mem {line : Bytes} (h : 13 ∉ line) : ¬crlf <:+: line := by
  intro hinfix
  apply h
  apply hinfix.subset
  simp [crlf]

theorem IsSizeLine.announces {line : String} {size : Nat} (h : IsSizeLine line size)
    (hsize : size ≤ Decimal.maxWord) : Announces line size where
  whole := not_infix_of_not_mem h.return_not_mem
  size := by
    obtain ⟨digits, text, extensions, hhex, hpadded, hextensions, hline, -⟩ := h
    exact chunkSize?_eq_of_isHex hhex hpadded hextensions hline hsize

/-- No size stands on a line that begins with a hyphen. -/
theorem chunkSize?_hyphen {line : String} {rest : List Char} (hline : line.toList = '-' :: rest) :
    chunkSize? (Text.encode line) = none := by
  have hsemicolon : '-' ≠ ';' := by decide
  obtain ⟨first, hfirst⟩ := Text.exists_headD_pieces hsemicolon rest
  obtain ⟨trimmed, htrimmed⟩ := Text.exists_trim_cons (c := '-') (by decide) first
  rw [chunkSize?_encode, hline, hfirst, htrimmed]
  rfl

/-! ## Lines -/

/-- A line goes up to the first line break; one that begins with its last byte ends later. -/
theorem splitLine_append {line : Bytes} (h : ¬crlf <:+: line) (rest : Bytes) :
    splitLine (line ++ crlf ++ rest) = some (line, rest) := by
  induction line with
  | nil => simp [crlf, splitLine]
  | cons byte more ih =>
    have hmore : ¬crlf <:+: more := fun hinfix => h (List.infix_cons hinfix)
    have hnot : crlf.isPrefixOf (byte :: (more ++ crlf ++ rest)) = false := by
      rw [Bool.eq_false_iff, Ne, List.isPrefixOf_iff_prefix]
      intro hprefix
      cases more with
      | nil => simp [crlf] at hprefix
      | cons next more =>
        apply h
        simp only [crlf, List.cons_append, List.cons_prefix_cons] at hprefix
        obtain ⟨rfl, rfl, -⟩ := hprefix
        exact ⟨[], more, rfl⟩
    rw [List.cons_append, List.cons_append, splitLine, hnot, ih hmore]
    rfl

theorem eq_of_splitLine {s line rest : Bytes} (h : splitLine s = some (line, rest)) :
    s = line ++ crlf ++ rest ∧ ¬crlf <:+: line := by
  induction s generalizing line with
  | nil => cases h
  | cons byte more ih =>
    rw [splitLine] at h
    split_ifs at h with hprefix
    · cases h
      obtain ⟨after, hafter⟩ := List.isPrefixOf_iff_prefix.1 hprefix
      rw [← hafter]
      simp [crlf]
    · obtain ⟨⟨front, after⟩, hfront, heq⟩ := Option.map_eq_some_iff.1 h
      cases heq
      obtain ⟨rfl, hbreak⟩ := ih hfront
      refine ⟨rfl, fun hinfix => ?_⟩
      rcases List.infix_cons_iff.1 hinfix with hstart | hlater
      · apply hprefix
        rw [List.isPrefixOf_iff_prefix, List.append_assoc]
        exact hstart.trans (List.prefix_append (byte :: front) (crlf ++ rest))
      · exact hbreak hlater

/-- What a line with a size on it leads to. -/
theorem decodeChunked_of_size {s line rest : Bytes} {size : Nat}
    (hsplit : splitLine s = some (line, rest)) (hline : chunkSize? line = some size) :
    decodeChunked s =
      if size = 0 then .ok []
      else if size + 2 > Decimal.maxWord then .error .sizeOverflow
      else if crlf.isPrefixOf (rest.drop size) then
        (decodeChunked (rest.drop (size + 2))).map (rest.take size ++ ·)
      else .error .malformed := by
  rw [decodeChunked]
  split
  · rename_i hsplit'
    rw [hsplit] at hsplit'
    cases hsplit'
  · rename_i line' rest' hsplit'
    rw [hsplit] at hsplit'
    cases hsplit'
    rw [hline]
    cases size with
    | zero => rfl
    | succ size => rw [if_neg (Nat.succ_ne_zero size)]; rfl

/-- What begins with a line that holds no size is not chunked. -/
theorem decodeChunked_of_line {line : Bytes} (h : 13 ∉ line) (hline : chunkSize? line = none)
    (rest : Bytes) : decodeChunked (line ++ crlf ++ rest) = .error .malformed := by
  have hsplit := splitLine_append (not_infix_of_not_mem h) rest
  rw [decodeChunked]
  split
  · rfl
  · rename_i line' rest' hsplit'
    rw [hsplit] at hsplit'
    cases hsplit'
    rw [hline]

/-! ## Chunks -/

/-- Bytes and the line that announces their number. -/
structure Chunk where
  line : String
  data : Bytes

namespace Chunk

/-- The bytes on their line breaks. -/
def written (chunk : Chunk) : Bytes :=
  Text.encode chunk.line ++ crlf ++ chunk.data ++ crlf

/-- A chunk that is not empty, with its size on its line. -/
structure Fits (chunk : Chunk) : Prop where
  nonempty : chunk.data ≠ []
  line : IsSizeLine chunk.line chunk.data.length

/-- A chunk is read when its bytes and the line break behind them can be counted in a word. -/
theorem decodeChunked_written {chunk : Chunk} (hne : chunk.data ≠ [])
    (hline : Announces chunk.line chunk.data.length)
    (hword : chunk.data.length + 2 ≤ Decimal.maxWord) (rest : Bytes) :
    decodeChunked (chunk.written ++ rest) =
      (decodeChunked rest).map (chunk.data ++ ·) := by
  obtain ⟨line, data⟩ := chunk
  dsimp only at hne hline hword ⊢
  have hsplit : splitLine ((Chunk.mk line data).written ++ rest) =
      some (Text.encode line, data ++ (crlf ++ rest)) := by
    have := splitLine_append hline.whole (data ++ (crlf ++ rest))
    simpa [written] using this
  have hbreak : crlf.isPrefixOf ((data ++ (crlf ++ rest)).drop data.length) = true := by
    simp [crlf]
  have hrest : (data ++ (crlf ++ rest)).drop (data.length + 2) = rest := by
    rw [← List.append_assoc, List.drop_left' (by simp [crlf])]
  rw [decodeChunked_of_size hsplit hline.size, if_neg (by simpa using hne), if_neg (by omega),
    if_pos hbreak, hrest, List.take_left]

end Chunk

/-- The bytes of a chunked body: the chunks, a line with the size zero, and whatever follows it. -/
def chunked (chunks : List Chunk) (last : String) (trailer : Bytes) : Bytes :=
  chunks.flatMap Chunk.written ++ (Text.encode last ++ crlf ++ trailer)

theorem length_le_flatMap (f : Chunk → Bytes) {chunk : Chunk} {chunks : List Chunk}
    (h : chunk ∈ chunks) : (f chunk).length ≤ (chunks.flatMap f).length := by
  rw [List.flatMap_def]
  exact (List.sublist_flatten_of_mem (List.mem_map_of_mem h)).length_le

/-- Chunks are read one after the other up to the line with the size zero, each by its size: no
line break is looked for in their bytes. -/
theorem decodeChunked_announced {chunks : List Chunk} {last : String} (trailer : Bytes)
    (hchunks : ∀ chunk ∈ chunks, chunk.data ≠ [] ∧ Announces chunk.line chunk.data.length)
    (hlast : Announces last 0)
    (hword : ∀ chunk ∈ chunks, chunk.data.length + 2 ≤ Decimal.maxWord) :
    decodeChunked (chunked chunks last trailer) = .ok (chunks.flatMap Chunk.data) := by
  induction chunks with
  | nil =>
    have hsplit := splitLine_append hlast.whole trailer
    rw [chunked, List.flatMap_nil, List.nil_append, decodeChunked_of_size hsplit hlast.size]
    rfl
  | cons chunk rest ih =>
    rw [List.forall_mem_cons] at hchunks hword
    have ih := ih hchunks.2 hword.2
    rw [chunked] at ih ⊢
    rw [List.flatMap_cons, List.append_assoc,
      Chunk.decodeChunked_written hchunks.1.1 hchunks.1.2 hword.1, ih]
    rfl

/-- A chunked body holds the bytes of its chunks. -/
theorem decodeChunked_chunked {chunks : List Chunk} {last : String} (trailer : Bytes)
    (hchunks : ∀ chunk ∈ chunks, chunk.Fits) (hlast : IsSizeLine last 0)
    (hword : (chunks.flatMap Chunk.data).length + 2 ≤ Decimal.maxWord) :
    decodeChunked (chunked chunks last trailer) = .ok (chunks.flatMap Chunk.data) := by
  have hlength : ∀ chunk ∈ chunks, chunk.data.length + 2 ≤ Decimal.maxWord := by
    intro chunk hchunk
    have := length_le_flatMap Chunk.data hchunk
    omega
  apply decodeChunked_announced trailer ?_ (hlast.announces (Nat.zero_le _)) hlength
  intro chunk hchunk
  have := hlength chunk hchunk
  exact ⟨(hchunks chunk hchunk).nonempty, (hchunks chunk hchunk).line.announces (by omega)⟩

end Http

end SoapKit
