import SoapKit.Proofs.Http.Chunked
import Mathlib.Data.List.Infix

/-!
# Sizes as they are written

A sender writes the size of a chunk as it likes: with letters of either case, after zeros, between
blanks, and before an extension behind a semicolon. Only a line break may not stand on the line.
Whatever bytes the chunks hold, the body then gives them back (`decodeChunked_writtenSizes`).

The sizes are those of `Nat.toDigits`, so what has to be shown is that reading undoes this function
(`Decimal.WrittenHex.isHex`). It does so digit by digit, from the last one on. That a text has no
line break in it is said of its characters and carried over to its bytes
(`infix_of_infix_encode`).
-/

namespace SoapKit

open Decimal (hexDigit?)

namespace Decimal

/-! ## Numbers in hexadecimal -/

/-- A number as it may be written in hexadecimal: letters may be of either case, and any zeros may
stand in front. -/
def WrittenHex (digits : List Char) (n : Nat) : Prop :=
  ∃ zeros, digits.map Char.toLower = List.replicate zeros '0' ++ Nat.toDigits 16 n

theorem hexDigit?_toLower (c : Char) : hexDigit? c.toLower = hexDigit? c := by
  have hascii : ∀ n < 128, hexDigit? (Char.ofNat n).toLower = hexDigit? (Char.ofNat n) := by
    decide
  by_cases hc : c.toNat < 128
  · have := hascii c.toNat hc
    rwa [Char.ofNat_toNat] at this
  · have hupper : ¬(c.val ≥ 'A'.val ∧ c.val ≤ 'Z'.val) := by
      rintro ⟨-, hle⟩
      have : c.toNat ≤ 90 := UInt32.le_iff_toNat_le.1 hle
      omega
    have hlower : c.toLower = c := dif_neg hupper
    rw [hlower]

theorem hexDigit?_digitChar : ∀ d < 16, hexDigit? (Nat.digitChar d) = some d := by
  decide

/-- The digits of a number have the values that make up the number. -/
theorem exists_values_toDigits (n : Nat) :
    ∃ values, List.Forall₂ (fun c value => hexDigit? c = some value) (Nat.toDigits 16 n) values ∧
      Nat.ofDigits 16 values.reverse = n := by
  induction n using Nat.strong_induction_on with
  | _ n ih =>
    by_cases hn : n < 16
    · refine ⟨[n], ?_, Nat.ofDigits_singleton⟩
      rw [Nat.toDigits_of_lt_base hn]
      exact .cons (hexDigit?_digitChar n hn) .nil
    · obtain ⟨values, hvalues, hsum⟩ := ih (n / 16) (by omega)
      refine ⟨values ++ [n % 16], ?_, ?_⟩
      · rw [Nat.toDigits_of_base_le (by decide) (by omega)]
        exact List.rel_append hvalues (.cons (hexDigit?_digitChar _ (by omega)) .nil)
      · rw [List.reverse_append, List.reverse_singleton, List.singleton_append,
          Nat.ofDigits_cons, hsum]
        exact Nat.mod_add_div n 16

theorem forall₂_replicate_zero (zeros : Nat) :
    List.Forall₂ (fun c value => hexDigit? c = some value) (List.replicate zeros '0')
      (List.replicate zeros 0) := by
  induction zeros with
  | zero => exact .nil
  | succ zeros ih => exact .cons rfl ih

theorem WrittenHex.isHex {digits : List Char} {n : Nat} (h : WrittenHex digits n) :
    IsHex digits n := by
  obtain ⟨zeros, hdigits⟩ := h
  obtain ⟨values, hvalues, hsum⟩ := exists_values_toDigits n
  have hall : List.Forall₂ (fun c value => hexDigit? c = some value)
      (List.replicate zeros '0' ++ Nat.toDigits 16 n) (List.replicate zeros 0 ++ values) :=
    List.rel_append (forall₂_replicate_zero zeros) hvalues
  rw [← hdigits, List.forall₂_map_left_iff] at hall
  simp only [hexDigit?_toLower] at hall
  refine ⟨?_, _, hall, ?_⟩
  · rintro rfl
    have hnil := (List.append_eq_nil_iff.1 hdigits.symm).2
    exact Nat.toDigits_ne_nil hnil
  · rw [List.reverse_append, List.reverse_replicate, Nat.ofDigits_append_replicate_zero, hsum]

end Decimal

namespace Http

/-! ## Line breaks -/

/-- A line break in the bytes of a text is one of its characters. -/
theorem infix_of_infix_encode {s : List Char} (h : crlf <:+: s.flatMap String.utf8EncodeChar) :
    ['\r', '\n'] <:+: s := by
  have hreturn {c : Char} (hc : 13 ∈ String.utf8EncodeChar c) : c = '\r' :=
    Char.toNat_inj.1 (Text.toNat_eq_of_mem_utf8EncodeChar hc (by decide))
  have hfeed {c : Char} (hc : 10 ∈ String.utf8EncodeChar c) : c = '\n' :=
    Char.toNat_inj.1 (Text.toNat_eq_of_mem_utf8EncodeChar hc (by decide))
  have hsingle (c : Char) : ¬crlf <:+: String.utf8EncodeChar c := by
    intro hc
    obtain rfl := hreturn (hc.subset (by simp [crlf]))
    exact absurd hc (by decide)
  induction s with
  | nil => simp [crlf] at h
  | cons c rest ih =>
    rw [List.flatMap_cons, List.infix_append_iff] at h
    rcases h with hc | hrest | ⟨front, back, hcrlf, hfront, hback⟩
    · exact absurd hc (hsingle c)
    · exact List.infix_cons (ih hrest)
    · cases front with
      | nil =>
        rw [List.nil_append] at hcrlf
        exact List.infix_cons (ih (hcrlf ▸ hback.isInfix))
      | cons a front =>
        cases front with
        | nil =>
          cases hcrlf
          obtain rfl := hreturn (hfront.subset (by simp))
          cases rest with
          | nil => simp at hback
          | cons d more =>
            obtain ⟨byte, tail, hd⟩ := List.exists_cons_of_ne_nil
              (List.length_pos_iff.1 (String.length_utf8EncodeChar d ▸ Char.utf8Size_pos d))
            rw [List.flatMap_cons, hd, List.cons_append, List.cons_prefix_cons] at hback
            obtain rfl := hfeed (c := d) (by rw [hd, hback.1]; exact List.mem_cons_self)
            exact ⟨[], more, rfl⟩
        | cons b front =>
          obtain ⟨rfl, rfl, hnil⟩ : 13 = a ∧ 10 = b ∧ [] = front ++ back := by
            simpa [crlf] using hcrlf
          obtain rfl := (List.append_eq_nil_iff.1 hnil.symm).1
          exact absurd hfront.isInfix (hsingle c)

/-! ## Size lines -/

/-- A line on which a size is written: its digits between any blanks, perhaps an extension behind a
semicolon, and no line break. -/
def IsWrittenSize (line : String) (size : Nat) : Prop :=
  ∃ digits text extensions, Decimal.WrittenHex digits size ∧ Text.Padded digits text ∧
    (extensions = [] ∨ ∃ more, extensions = ';' :: more) ∧ line.toList = text ++ extensions ∧
    ¬['\r', '\n'] <:+: line.toList

theorem IsWrittenSize.announces {line : String} {size : Nat} (h : IsWrittenSize line size)
    (hsize : size ≤ Decimal.maxWord) : Announces line size := by
  obtain ⟨digits, text, extensions, hhex, hpadded, hextensions, hline, hbreak⟩ := h
  refine ⟨?_, chunkSize?_eq_of_isHex hhex.isHex hpadded hextensions hline hsize⟩
  rw [Text.encode_eq]
  exact fun hinfix => hbreak (infix_of_infix_encode hinfix)

/-! ## Bodies -/

/-- A chunked body that fits into memory gives back the bytes of its chunks, however their sizes are
written and whatever the bytes are. -/
theorem decodeChunked_writtenSizes {chunks : List Chunk} {last : String} (trailer : Bytes)
    (hchunks : ∀ chunk ∈ chunks, chunk.data ≠ [] ∧ IsWrittenSize chunk.line chunk.data.length)
    (hlast : IsWrittenSize last 0) (hmemory : (chunked chunks last trailer).length < 2 ^ 63) :
    decodeChunked (chunked chunks last trailer) = .ok (chunks.flatMap Chunk.data) := by
  have hlength : ∀ chunk ∈ chunks, chunk.data.length + 2 ≤ Decimal.maxWord := by
    intro chunk hchunk
    have hwritten := length_le_flatMap Chunk.written hchunk
    have hdata : chunk.data.length ≤ chunk.written.length := by
      simp only [Chunk.written, List.length_append]
      omega
    have hword : Decimal.maxWord = 2 ^ 64 - 1 := rfl
    rw [chunked, List.length_append] at hmemory
    omega
  apply decodeChunked_announced trailer ?_ (hlast.announces (Nat.zero_le _)) hlength
  intro chunk hchunk
  have hword := hlength chunk hchunk
  obtain ⟨hne, hline⟩ := hchunks chunk hchunk
  exact ⟨hne, hline.announces (by omega)⟩

/-- A chunk with framing in its bytes, on whose line there are zeros, a capital letter, blanks, and
carriage returns by themselves. -/
theorem decodeChunked_writtenSizes_of_framing :
    decodeChunked (chunked
        [⟨"\t00B \r;ö=\r", [48, 13, 10, 13, 10, 49, 13, 10, 97, 13, 10]⟩, ⟨"1", [255]⟩]
        "000" [13, 10]) =
      .ok [48, 13, 10, 13, 10, 49, 13, 10, 97, 13, 10, 255] := by
  refine decodeChunked_writtenSizes [13, 10] ?_ ?_ ?_
  · rw [List.forall_mem_cons, List.forall_mem_singleton]
    refine ⟨⟨by simp, ?_⟩, by simp, ?_⟩
    · exact ⟨['0', '0', 'B'], ['\t', '0', '0', 'B', ' ', '\r'], [';', 'ö', '=', '\r'],
        ⟨2, by decide⟩, ⟨['\t'], [' ', '\r'], by simp [Text.isBlank], by simp [Text.isBlank], rfl⟩,
        .inr ⟨_, rfl⟩, by decide, by decide⟩
    · exact ⟨['1'], ['1'], [], ⟨0, by decide⟩, ⟨[], [], by simp, by simp, rfl⟩, .inl rfl,
        by decide, by decide⟩
  · exact ⟨['0', '0', '0'], ['0', '0', '0'], [], ⟨2, by decide⟩,
      ⟨[], [], by simp, by simp, rfl⟩, .inl rfl, by decide, by decide⟩
  · simp only [chunked, List.flatMap_cons, List.flatMap_nil, Chunk.written, Text.encode_eq]
    decide

end Http

end SoapKit
