import Mathlib.Tactic.Common
import TraceFormat.Layout

/-! # Texts are read back

The bytes of a text are read as that text (`Text.Utf8.decode_encode`): each character is taken byte
by byte, and no byte of it falls out of the range that the ones before it leave open.  Bytes that an
encoding accepts (`Encoding.Accepts`) are therefore those that are written again just as they were
read (`Encoding.encode_decode`).

A text is always written in UTF-8, so that ASCII reads it back only if each of its characters is a
byte of its own (`Encoding.decode_encode_iff`). -/

namespace TraceFormat

namespace Text.Utf8

variable {b : UInt8} {bytes : List UInt8}

theorem decodeFrom_whole (h : b.toNat < 0x80) :
    decodeFrom none (b :: bytes) = Char.ofNat b.toNat :: decodeFrom none bytes := by
  simp [decodeFrom, start, lead, h]

theorem decodeFrom_opening {p : Pending} (h : lead b.toNat = .opening p) :
    decodeFrom none (b :: bytes) = decodeFrom (some p) bytes := by
  simp [decodeFrom, start, h]

theorem decodeFrom_more {value after low high : Nat} (h : low ≤ b.toNat ∧ b.toNat ≤ high) :
    decodeFrom (some ⟨value, after + 1, low, high⟩) (b :: bytes) =
      decodeFrom (some ⟨value * 64 + b.toNat % 64, after, 0x80, 0xBF⟩) bytes := by
  simp [decodeFrom, Pending.next, h]

theorem decodeFrom_last {value low high : Nat} (h : low ≤ b.toNat ∧ b.toNat ≤ high) :
    decodeFrom (some ⟨value, 0, low, high⟩) (b :: bytes) =
      Char.ofNat (value * 64 + b.toNat % 64) :: decodeFrom none bytes := by
  simp [decodeFrom, Pending.next, h]

theorem lead_two {n : Nat} (h : 0xC2 ≤ n ∧ n < 0xE0) :
    lead n = .opening ⟨n - 0xC0, 0, 0x80, 0xBF⟩ := by
  simp [lead, h, show ¬ n < 0x80 by omega, show ¬ n < 0xC2 by omega]

theorem lead_three {n : Nat} (h : 0xE0 ≤ n ∧ n < 0xF0) :
    lead n = .opening
      ⟨n - 0xE0, 1, if n = 0xE0 then 0xA0 else 0x80, if n = 0xED then 0x9F else 0xBF⟩ := by
  simp [lead, h, show ¬ n < 0x80 by omega, show ¬ n < 0xC2 by omega, show ¬ n < 0xE0 by omega]

theorem lead_four {n : Nat} (h : 0xF0 ≤ n ∧ n < 0xF5) :
    lead n = .opening
      ⟨n - 0xF0, 2, if n = 0xF0 then 0x90 else 0x80, if n = 0xF4 then 0x8F else 0xBF⟩ := by
  simp [lead, h, show ¬ n < 0x80 by omega, show ¬ n < 0xC2 by omega, show ¬ n < 0xE0 by omega,
    show ¬ n < 0xF0 by omega]

/-- A character that has been written is read, whatever follows. -/
theorem decodeFrom_encodeChar (c : Char) :
    decodeFrom none (String.utf8EncodeChar c ++ bytes) = c :: decodeFrom none bytes := by
  have hvalid : c.toNat < 0xD800 ∨ (0xDFFF < c.toNat ∧ c.toNat < 0x110000) := c.valid
  have hc : c.val.toNat = c.toNat := rfl
  unfold String.utf8EncodeChar
  simp only [hc]
  generalize hv : c.toNat = v at hvalid
  have hback : ∀ n, n = v → Char.ofNat n = c := by
    rintro n rfl
    rw [← hv, Char.ofNat_toNat]
  split_ifs with h₁ h₂ h₃
  · have e₁ := UInt8.toNat_ofNat_of_lt' (show v < 256 by omega)
    rw [List.cons_append, decodeFrom_whole (by omega), e₁, hback v rfl, List.nil_append]
  · have e₁ := UInt8.toNat_ofNat_of_lt' (show v / 64 % 0x20 + 0xC0 < 256 by omega)
    have e₂ := UInt8.toNat_ofNat_of_lt' (show v % 0x40 + 0x80 < 256 by omega)
    rw [List.cons_append, decodeFrom_opening (lead_two (by omega)), List.cons_append,
      decodeFrom_last (by omega), e₁, e₂, hback _ (by omega), List.nil_append]
  · have e₁ := UInt8.toNat_ofNat_of_lt' (show v / 4096 % 0x10 + 0xE0 < 256 by omega)
    have e₂ := UInt8.toNat_ofNat_of_lt' (show v / 64 % 0x40 + 0x80 < 256 by omega)
    have e₃ := UInt8.toNat_ofNat_of_lt' (show v % 0x40 + 0x80 < 256 by omega)
    rw [List.cons_append, decodeFrom_opening (lead_three (by omega)), List.cons_append,
      decodeFrom_more (by rw [e₁, e₂]; split_ifs <;> omega), List.cons_append,
      decodeFrom_last (by omega), e₁, e₂, e₃, hback _ (by omega), List.nil_append]
  · have e₁ := UInt8.toNat_ofNat_of_lt' (show v / 262144 % 0x08 + 0xF0 < 256 by omega)
    have e₂ := UInt8.toNat_ofNat_of_lt' (show v / 4096 % 0x40 + 0x80 < 256 by omega)
    have e₃ := UInt8.toNat_ofNat_of_lt' (show v / 64 % 0x40 + 0x80 < 256 by omega)
    have e₄ := UInt8.toNat_ofNat_of_lt' (show v % 0x40 + 0x80 < 256 by omega)
    rw [List.cons_append, decodeFrom_opening (lead_four (by omega)), List.cons_append,
      decodeFrom_more (by rw [e₁, e₂]; split_ifs <;> omega), List.cons_append,
      decodeFrom_more (by omega), List.cons_append, decodeFrom_last (by omega), e₁, e₂, e₃, e₄,
      hback _ (by omega), List.nil_append]

theorem decodeFrom_flatMap (text : List Char) :
    decodeFrom none (text.flatMap String.utf8EncodeChar) = text := by
  induction text with
  | nil => rfl
  | cons c text ih => rw [List.flatMap_cons, decodeFrom_encodeChar, ih]

theorem decode_encode (text : String) : decode (encode text) = text := by
  rw [decode, encode, decodeFrom_flatMap, String.ofList_toList]

theorem toNat_eq_of_mem_encodeChar {c : Char} (h : b ∈ String.utf8EncodeChar c)
    (hb : b.toNat < 0x80) : c.toNat = b.toNat := by
  have hc : c.val.toNat = c.toNat := rfl
  have hvalid : c.toNat < 0xD800 ∨ (0xDFFF < c.toNat ∧ c.toNat < 0x110000) := c.valid
  unfold String.utf8EncodeChar at h
  simp only [hc] at h
  -- the bytes of a longer character all lie above 0x7F
  split_ifs at h <;>
    simp only [List.mem_cons, List.not_mem_nil, or_false, ← UInt8.toNat_inj,
      UInt8.toNat_ofNat'] at h <;>
    omega

theorem zero_mem_encode {text : String} : 0 ∈ encode text ↔ '\x00' ∈ text.toList := by
  rw [encode, List.mem_flatMap]
  constructor
  · rintro ⟨c, hc, hzero⟩
    have hnul : c.toNat = 0 := toNat_eq_of_mem_encodeChar hzero (by decide)
    rw [← Char.ofNat_toNat c, hnul] at hc
    exact hc
  · intro h
    exact ⟨_, h, by decide⟩

theorem utf8Size_eq_one {c : Char} : c.utf8Size = 1 ↔ c.toNat < 0x80 := by
  rw [Char.utf8Size_eq_one_iff, UInt32.le_iff_toNat_le]
  exact Nat.lt_succ_iff.symm

theorem length_le_length_flatMap (text : List Char) :
    text.length ≤ (text.flatMap String.utf8EncodeChar).length := by
  induction text with
  | nil => exact Nat.le_refl _
  | cons c text ih =>
      have hpos := c.utf8Size_pos
      rw [List.flatMap_cons, List.length_append, String.length_utf8EncodeChar, List.length_cons]
      omega

theorem lt_of_length_flatMap_eq {text : List Char}
    (h : (text.flatMap String.utf8EncodeChar).length = text.length) :
    ∀ c ∈ text, c.toNat < 0x80 := by
  induction text with
  | nil => simp
  | cons c text ih =>
      have hpos := c.utf8Size_pos
      have hrest := length_le_length_flatMap text
      rw [List.flatMap_cons, List.length_append, String.length_utf8EncodeChar,
        List.length_cons] at h
      exact List.forall_mem_cons.mpr ⟨utf8Size_eq_one.mp (by omega), ih (by omega)⟩

end Text.Utf8

namespace Encoding

/-- Whether bytes are text in an encoding. -/
def Accepts : Encoding → List UInt8 → Prop
  | .ascii, bytes => ∀ b ∈ bytes, b.toNat < 0x80
  | .utf8, bytes | .raw, bytes => ∃ text, Text.Utf8.encode text = bytes

theorem encodeChar_asciiChar {b : UInt8} (h : b.toNat < 0x80) :
    String.utf8EncodeChar (asciiChar b) = [b] := by
  have hval : (Char.ofNat b.toNat).val.toNat = b.toNat := by
    unfold Char.ofNat
    rw [dif_pos (Or.inl (by omega))]
    exact UInt32.toNat_ofNatLT
  unfold asciiChar String.utf8EncodeChar
  rw [if_pos h, hval, if_pos (by omega), UInt8.ofNat_toNat]

theorem flatMap_map_asciiChar {bytes : List UInt8} (h : ∀ b ∈ bytes, b.toNat < 0x80) :
    (bytes.map asciiChar).flatMap String.utf8EncodeChar = bytes := by
  induction bytes with
  | nil => rfl
  | cons b bytes ih =>
      rw [List.map_cons, List.flatMap_cons, encodeChar_asciiChar (h b List.mem_cons_self),
        ih fun c hc => h c (List.mem_cons_of_mem _ hc), List.singleton_append]

/-- Bytes that are text in an encoding are written as they were read. -/
theorem encode_decode {encoding : Encoding} {bytes : List UInt8} (h : encoding.Accepts bytes) :
    Text.Utf8.encode (encoding.decode bytes) = bytes := by
  cases encoding with
  | ascii =>
      rw [decode, Text.Utf8.encode, String.toList_ofList]
      exact flatMap_map_asciiChar h
  | utf8 | raw =>
      obtain ⟨text, rfl⟩ := h
      rw [decode, Text.Utf8.decode_encode]

/-- Whether an encoding has the characters of a text. -/
def Spells : Encoding → String → Prop
  | .ascii, text => ∀ c ∈ text.toList, c.toNat < 0x80
  | .utf8, _ | .raw, _ => True

theorem map_asciiChar_flatMap {text : List Char} (h : ∀ c ∈ text, c.toNat < 0x80) :
    (text.flatMap String.utf8EncodeChar).map asciiChar = text := by
  induction text with
  | nil => rfl
  | cons c text ih =>
      rw [List.forall_mem_cons] at h
      have hbyte : c.val.toUInt8.toNat = c.toNat := by
        rw [UInt32.toNat_toUInt8]
        exact Nat.mod_eq_of_lt (Nat.lt_trans h.1 (by decide))
      rw [List.flatMap_cons, String.utf8EncodeChar_eq_singleton (Text.Utf8.utf8Size_eq_one.mpr h.1),
        List.map_append, ih h.2, List.map_singleton, asciiChar, hbyte, if_pos h.1,
        Char.ofNat_toNat, List.singleton_append]

/-- A text is read as it was written if the encoding has its characters. -/
theorem decode_encode_iff (encoding : Encoding) (text : String) :
    encoding.decode (Text.Utf8.encode text) = text ↔ encoding.Spells text := by
  cases encoding with
  | ascii =>
      rw [decode, Text.Utf8.encode, Spells]
      constructor
      · intro h
        have hlength := congrArg (fun t => t.toList.length) h
        simp only [String.toList_ofList, List.length_map] at hlength
        exact Text.Utf8.lt_of_length_flatMap_eq hlength
      · intro h
        rw [map_asciiChar_flatMap h, String.ofList_toList]
  | utf8 | raw => exact iff_of_true (Text.Utf8.decode_encode text) trivial

end Encoding

end TraceFormat
