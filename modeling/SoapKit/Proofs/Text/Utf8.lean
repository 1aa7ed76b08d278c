import SoapKit.Text.Utf8
import Mathlib.Tactic.SplitIfs

/-!
# Texts as bytes and back

The bytes of a text are never ill formed, so the strict reader gives the text back
(`decode?_encode`), and so does the one that puts replacement characters for ill-formed bytes
(`decodeLossy_encode`). A character is looked at by the number
of its bytes: the first one says how many follow, and each of these adds six bits.
-/

namespace SoapKit.Text

/-! ## The bytes of a text -/

theorem toList_loop (bytes : ByteArray) (i : Nat) (taken : List UInt8) :
    ByteArray.toList.loop bytes i taken = taken.reverse ++ bytes.data.toList.drop i := by
  fun_induction ByteArray.toList.loop bytes i taken with
  | case1 i taken h ih =>
    have h' : i < bytes.data.toList.length := h
    have hget : bytes.get! i = bytes.data.toList[i] := by
      have h'' : i < bytes.data.size := h
      rw [ByteArray.get!, getElem!_pos bytes.data i h'', Array.getElem_toList]
    rw [ih, List.reverse_cons, List.append_assoc, List.drop_eq_getElem_cons h', hget]
    rfl
  | case2 i taken h =>
    rw [List.drop_of_length_le (Nat.not_lt.1 h), List.append_nil]

theorem toList_eq (bytes : ByteArray) : bytes.toList = bytes.data.toList :=
  toList_loop bytes 0 []

theorem encode_ofList (s : List Char) :
    encode (String.ofList s) = s.flatMap String.utf8EncodeChar := by
  rw [encode, String.toUTF8_eq_toByteArray, String.toByteArray_ofList, toList_eq]
  simp [List.utf8Encode]

theorem encode_eq (s : String) : encode s = s.toList.flatMap String.utf8EncodeChar := by
  rw [← encode_ofList, String.ofList_toList]

theorem decode?_encode (s : String) : decode? (encode s) = some s := by
  have hbytes : (⟨(encode s).toArray⟩ : ByteArray) = s.toByteArray := by
    rw [encode, String.toUTF8_eq_toByteArray, toList_eq, Array.toArray_toList]
  rw [decode?, hbytes, String.fromUTF8?, dif_pos s.isValidUTF8]
  rfl

/-- Bytes that are read strictly are those of the text. -/
theorem encode_of_decode? {bytes : Bytes} {s : String} (h : decode? bytes = some s) :
    encode s = bytes := by
  rw [decode?, String.fromUTF8?] at h
  split at h
  · cases h
    rw [encode, String.toUTF8_eq_toByteArray, toList_eq]
    rfl
  · cases h

/-! ## Bytes read one at a time -/

theorem toNat_ofNat {n : Nat} (h : n < 256) : (UInt8.ofNat n).toNat = n := by
  rw [UInt8.toNat_ofNat', Nat.mod_eq_of_lt h]

/-- A byte that goes on with a character adds six bits to it. -/
theorem decodeFrom_more {bits low high b : Nat} {range : Nat × Nat} {ranges : List (Nat × Nat)}
    (hlow : low ≤ b) (hhigh : b ≤ high) (hb : b < 256) (rest : Bytes) :
    decodeFrom (some (bits, (low, high) :: range :: ranges)) (UInt8.ofNat b :: rest) =
      decodeFrom (some (bits * 64 + (b - 0x80), range :: ranges)) rest := by
  rw [decodeFrom, toNat_ofNat hb, if_pos ⟨hlow, hhigh⟩]
  rfl

theorem decodeFrom_last {bits low high b : Nat} (hlow : low ≤ b) (hhigh : b ≤ high)
    (hb : b < 256) (rest : Bytes) :
    decodeFrom (some (bits, [(low, high)])) (UInt8.ofNat b :: rest) =
      Char.ofNat (bits * 64 + (b - 0x80)) :: decodeFrom none rest := by
  rw [decodeFrom, toNat_ofNat hb, if_pos ⟨hlow, hhigh⟩]
  rfl

theorem decodeFrom_none (byte : UInt8) (rest : Bytes) :
    decodeFrom none (byte :: rest) =
      match lead byte with
      | .whole c => c :: decodeFrom none rest
      | .begun bits ranges => decodeFrom (some (bits, ranges)) rest
      | .ill => replacement :: decodeFrom none rest := by
  cases hlead : lead byte <;> simp only [decodeFrom, hlead]

/-! ## First bytes -/

theorem lead_one {a : Nat} (ha : a < 0x80) : lead (UInt8.ofNat a) = .whole (Char.ofNat a) := by
  simp only [lead, toNat_ofNat (show a < 256 by omega), ha, if_true]

theorem lead_two {a : Nat} (ha : 0xC2 ≤ a ∧ a < 0xE0) :
    lead (UInt8.ofNat a) = .begun (a - 0xC0) [continuation] := by
  have h1 : ¬a < 0x80 := by omega
  have h2 : ¬a < 0xC2 := by omega
  simp only [lead, toNat_ofNat (show a < 256 by omega), h1, h2, ha.2, if_true, if_false]

theorem lead_three {a : Nat} (ha : 0xE0 ≤ a ∧ a < 0xF0) :
    lead (UInt8.ofNat a) = .begun (a - 0xE0)
      [(if a = 0xE0 then 0xA0 else 0x80, if a = 0xED then 0x9F else 0xBF), continuation] := by
  have h1 : ¬a < 0x80 := by omega
  have h2 : ¬a < 0xC2 := by omega
  have h3 : ¬a < 0xE0 := by omega
  simp only [lead, toNat_ofNat (show a < 256 by omega), h1, h2, h3, ha.2, if_true, if_false]
  split_ifs <;> simp_all [continuation]

theorem lead_four {a : Nat} (ha : 0xF0 ≤ a ∧ a < 0xF5) :
    lead (UInt8.ofNat a) = .begun (a - 0xF0)
      [(if a = 0xF0 then 0x90 else 0x80, if a = 0xF4 then 0x8F else 0xBF), continuation,
        continuation] := by
  have h1 : ¬a < 0x80 := by omega
  have h2 : ¬a < 0xC2 := by omega
  have h3 : ¬a < 0xE0 := by omega
  have h4 : ¬a = 0xE0 := by omega
  have h5 : ¬a = 0xED := by omega
  have h6 : ¬a < 0xF0 := by omega
  simp only [lead, toNat_ofNat (show a < 256 by omega), h1, h2, h3, h4, h5, h6, if_false]
  split_ifs <;> first | omega | simp_all [continuation]

/-! ## Characters and texts -/

/-- The bytes of a character are read as the character, whatever comes after them. -/
theorem decodeFrom_char (c : Char) (rest : Bytes) :
    decodeFrom none (String.utf8EncodeChar c ++ rest) = c :: decodeFrom none rest := by
  have hvalid : c.val.toNat < 0xD800 ∨ 0xDFFF < c.val.toNat ∧ c.val.toNat < 0x110000 := c.valid
  have hc : Char.ofNat c.val.toNat = c := Char.ofNat_toNat c
  rw [String.utf8EncodeChar.eq_def]
  generalize c.val.toNat = n at hvalid hc
  dsimp only
  split_ifs with h1 h2 h3 <;> simp only [List.cons_append, List.nil_append, decodeFrom_none]
  · rw [lead_one (by omega), hc]
  · rw [lead_two (by omega)]
    dsimp only [continuation]
    rw [decodeFrom_last (by omega) (by omega) (by omega),
      show (n / 64 % 32 + 192 - 192) * 64 + (n % 64 + 128 - 128) = n by omega, hc]
  · rw [lead_three (by omega)]
    dsimp only [continuation]
    rw [decodeFrom_more (by split_ifs <;> omega) (by split_ifs <;> omega) (by omega),
      decodeFrom_last (by omega) (by omega) (by omega),
      show ((n / 4096 % 16 + 224 - 224) * 64 + (n / 64 % 64 + 128 - 128)) * 64 +
        (n % 64 + 128 - 128) = n by omega, hc]
  · rw [lead_four (by omega)]
    dsimp only [continuation]
    rw [decodeFrom_more (by split_ifs <;> omega) (by split_ifs <;> omega) (by omega),
      decodeFrom_more (by omega) (by omega) (by omega),
      decodeFrom_last (by omega) (by omega) (by omega),
      show (((n / 262144 % 8 + 240 - 240) * 64 + (n / 4096 % 64 + 128 - 128)) * 64 +
        (n / 64 % 64 + 128 - 128)) * 64 + (n % 64 + 128 - 128) = n by omega, hc]

theorem decodeFrom_encode (s : List Char) :
    decodeFrom none (s.flatMap String.utf8EncodeChar) = s := by
  induction s with
  | nil => rfl
  | cons c rest ih => rw [List.flatMap_cons, decodeFrom_char, ih]

theorem decodeLossy_encode (s : String) : decodeLossy (encode s) = s := by
  rw [decodeLossy, encode_eq, decodeFrom_encode, String.ofList_toList]

/-- A byte below 128 is a character of its own. -/
theorem toNat_eq_of_mem_utf8EncodeChar {byte : UInt8} {c : Char}
    (h : byte ∈ String.utf8EncodeChar c) (hbyte : byte.toNat < 0x80) : c.toNat = byte.toNat := by
  have hlarge {n : Nat} (hn : 0x80 ≤ n ∧ n < 256) : byte ≠ UInt8.ofNat n := by
    rintro rfl
    rw [toNat_ofNat hn.2] at hbyte
    omega
  have hc : c.toNat = c.val.toNat := rfl
  rw [String.utf8EncodeChar.eq_def] at h
  generalize c.val.toNat = n at h hc
  dsimp only at h
  split_ifs at h with h1 h2 h3 <;> simp only [List.mem_cons, List.not_mem_nil, or_false] at h
  · rw [h, toNat_ofNat (by omega), hc]
  · rcases h with h | h
    · exact absurd h (hlarge (by omega))
    · exact absurd h (hlarge (by omega))
  · rcases h with h | h | h
    · exact absurd h (hlarge (by omega))
    · exact absurd h (hlarge (by omega))
    · exact absurd h (hlarge (by omega))
  · rcases h with h | h | h | h
    · exact absurd h (hlarge (by omega))
    · exact absurd h (hlarge (by omega))
    · exact absurd h (hlarge (by omega))
    · exact absurd h (hlarge (by omega))

theorem not_mem_encode {c : Char} {s : String} (hc : c.toNat < 0x80) (h : c ∉ s.toList) :
    UInt8.ofNat c.toNat ∉ encode s := by
  intro hmem
  rw [encode_eq, List.mem_flatMap] at hmem
  obtain ⟨d, hd, hbyte⟩ := hmem
  have hnat : (UInt8.ofNat c.toNat).toNat = c.toNat := toNat_ofNat (by omega)
  have heq : d.toNat = c.toNat := by
    rw [toNat_eq_of_mem_utf8EncodeChar hbyte (by omega), hnat]
  exact h (Char.toNat_inj.1 heq ▸ hd)

end SoapKit.Text
