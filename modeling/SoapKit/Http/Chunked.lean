import SoapKit.Decimal.Integer
import SoapKit.Text.Blank
import SoapKit.Text.Split
import SoapKit.Text.Utf8

/-!
# Chunked bodies

A chunked body is a sequence of chunks. Each begins with a line that holds its size in hexadecimal,
perhaps followed by extensions after a semicolon; then come that many bytes and a line break. A
chunk of size zero ends the body, whatever follows it.
-/

namespace SoapKit.Http

/-- Why a body is not read as chunked. -/
inductive ChunkFault where
  | malformed
  /-- A chunk announces a size that, with its line break, exceeds a 64-bit word. -/
  | sizeOverflow
  deriving Repr, DecidableEq

def crlf : Bytes := [13, 10]

/-- The bytes before and after the first line break. -/
def splitLine : Bytes → Option (Bytes × Bytes)
  | [] => none
  | byte :: rest =>
    if crlf.isPrefixOf (byte :: rest) then some ([], (byte :: rest).drop 2)
    else (splitLine rest).map fun (line, after) => (byte :: line, after)

theorem splitLine_length {s line after : Bytes} (h : splitLine s = some (line, after)) :
    after.length < s.length := by
  induction s generalizing line after with
  | nil => simp [splitLine] at h
  | cons byte rest ih =>
    simp only [splitLine] at h
    split at h
    · simp only [Option.some.injEq, Prod.mk.injEq] at h
      rw [← h.2, List.length_drop, List.length_cons]
      omega
    · simp only [Option.map_eq_some_iff] at h
      obtain ⟨⟨l, a⟩, hla, heq⟩ := h
      simp only [Prod.mk.injEq] at heq
      have := ih hla
      rw [heq.2] at this
      exact Nat.lt_succ_of_lt this

def chunkSize? (line : Bytes) : Option Nat := do
  let text ← Text.decode? line
  let size := (Text.pieces ';' text.toList).headD []
  Decimal.unsigned? Decimal.hexDigit? 16 Decimal.maxWord (Text.trim size)

/-- Reads a chunked body. -/
def decodeChunked (s : Bytes) : Except ChunkFault Bytes :=
  match _h : splitLine s with
  | none => .error .malformed
  | some (line, rest) =>
    match chunkSize? line with
    | none => .error .malformed
    | some 0 => .ok []
    | some size =>
      if size + 2 > Decimal.maxWord then .error .sizeOverflow
      else if crlf.isPrefixOf (rest.drop size) then do
        let others ← decodeChunked (rest.drop (size + 2))
        return rest.take size ++ others
      else .error .malformed
termination_by s.length
decreasing_by
  have := splitLine_length _h
  simp only [List.length_drop]
  omega

end SoapKit.Http
