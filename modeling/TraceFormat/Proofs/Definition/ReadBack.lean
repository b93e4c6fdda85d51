import TraceFormat.Definition.Write
import TraceFormat.Proofs.Cursor.Text
import TraceFormat.Proofs.Decode.Conformance

/-! # Values that are written and read back

An integer, an enumeration value or a text that has been written is found again where it was written
(`Definition.read_back`).  What is found is `Definition.stored`: of an integer the low bits that its
type has room for, of a text the characters that its encoding makes of UTF-8.  This is the value
itself exactly where the declaration can represent it (`IntegerType.stored_eq_iff`,
`Encoding.decode_encode_iff`).

Writing refuses nothing but a text with a NUL in it and what does not fit into the region.  An
integer out of bounds is cut off to its low bits (`Definition.read_back_cut_off`), and a text that
is not ASCII goes into an ASCII string as it is. -/

namespace TraceFormat

namespace IntegerType

/-- What a type keeps of storage that is written. -/
def stored (t : IntegerType) (storage : BitVec 64) : BitVec 64 :=
  toStorage t.length t.signed (storage.toNat % 2 ^ t.length)

theorem signExtend_ofNat_mod {n : Nat} (hpos : 0 < n) (hle : n ≤ 64) {storage : BitVec 64}
    (hlow : -(2 ^ (n - 1) : Nat) ≤ storage.toInt) (hhigh : storage.toInt < (2 ^ (n - 1) : Nat)) :
    (BitVec.ofNat n (storage.toNat % 2 ^ n)).signExtend 64 = storage := by
  have hpow : 2 ^ n = 2 * 2 ^ (n - 1) := by
    rw [← Nat.pow_succ', Nat.succ_eq_add_one, Nat.sub_add_cancel hpos]
  -- the number is its own residue of least magnitude, modulo `2 ^ 64` and modulo `2 ^ n`
  have hdvd : 2 ^ n ∣ 2 ^ 64 := Nat.pow_dvd_pow 2 hle
  have hresidue : storage.toInt.bmod (2 ^ n) = storage.toInt := by
    apply Int.bmod_eq_of_le_mul_two <;> rw [hpow] <;> push_cast at hlow hhigh ⊢ <;> omega
  apply BitVec.eq_of_toInt_eq
  rw [BitVec.toInt_signExtend_of_le hle, BitVec.toInt_ofNat', Int.natCast_emod, Int.emod_bmod,
    ← Int.bmod_bmod_of_dvd hdvd, ← BitVec.toInt_eq_toNat_bmod, hresidue]

theorem stored_eq_iff (t : IntegerType) {storage : BitVec 64} :
    t.stored storage = storage ↔ t.Holds storage := by
  constructor
  · intro h
    have hmem := t.value_toStorage_mem (Nat.mod_lt storage.toNat (Nat.two_pow_pos t.length))
    rw [← stored, h] at hmem
    exact hmem
  · rintro ⟨hlow, hhigh⟩
    unfold minValue value at hlow
    unfold maxValue value at hhigh
    unfold stored toStorage
    split_ifs at hlow hhigh ⊢ with hs
    · rw [Nat.one_shiftLeft] at hlow hhigh
      exact signExtend_ofNat_mod t.length_pos t.length_le hlow (Int.lt_of_le_sub_one hhigh)
    · rw [Nat.one_shiftLeft] at hhigh
      have hfits : storage.toNat < 2 ^ t.length := by omega
      apply BitVec.eq_of_toNat_eq
      rw [BitVec.toNat_ofNat, Nat.mod_eq_of_lt hfits, Nat.mod_eq_of_lt storage.isLt]

variable (t : IntegerType) {storage : BitVec 64} {target : Array UInt8} {s : Nat} {c : Cursor}

theorem le_of_write (h : t.write storage ⟨target, s⟩ = .ok () c) :
    alignUp s t.alignment + t.length ≤ target.size * 8 := by
  rw [write_apply] at h
  split_ifs at h with hroom
  exact Nat.not_lt.mp hroom

theorem read_of_write (h : t.write storage ⟨target, s⟩ = .ok () c) :
    t.read ⟨c.data, s⟩ = .ok (t.stored storage) c := by
  have hroom := t.le_of_write h
  rw [write_apply, if_neg (Nat.not_lt.mpr hroom)] at h
  obtain ⟨-, rfl⟩ := EStateM.Result.ok.inj h
  rw [read_eq_ok_iff]
  refine ⟨?_, ?_, rfl⟩
  · rw [size_splitPieces]
    exact hroom
  · rw [joinPieces_splitPieces t.byteOrder storage.toNat hroom, stored]

theorem error_eq_of_write {e : WriteError} (h : t.write storage ⟨target, s⟩ = .error e c) :
    e = .outOfBounds ∧ target.size * 8 < alignUp s t.alignment + t.length := by
  rw [write_apply] at h
  split_ifs at h with hroom
  exact ⟨(EStateM.Result.error.inj h).1.symm, hroom⟩

end IntegerType

theorem writeString_apply (text : String) (target : Array UInt8) {s start : Nat}
    (hstart : alignUp s 8 = start * 8) :
    (alignTo 8 >>= fun _ => writeText text) ⟨target, s⟩ =
      let bytes := Text.Utf8.encode text
      if '\x00' ∈ text.toList then .error .invalidValue ⟨target, start * 8⟩
      else if target.size < start + bytes.length + 1 then .error .outOfBounds ⟨target, start * 8⟩
      else .ok () ⟨overwrite target start (bytes ++ [0]), (start + bytes.length + 1) * 8⟩ := by
  have hwrite := writeText_apply text target start
  simp only [List.contains_eq_mem, decide_eq_true_eq, Text.Utf8.zero_mem_encode] at hwrite
  change writeText text ⟨target, alignUp s 8⟩ = _
  rw [hstart]
  exact hwrite

theorem decodeText_of_write {encoding : Encoding} {path : Path} {text : String}
    {target : Array UInt8} {s : Nat} {c : Cursor} (a : Arena)
    (h : (alignTo 8 >>= fun _ => writeText text) ⟨target, s⟩ = .ok () c) :
    Declaration.decodeText .standard encoding path ⟨⟨c.data, s⟩, a⟩ =
      .ok (encoding.decode (Text.Utf8.encode text)) ⟨c, a⟩ := by
  obtain ⟨start, hstart⟩ := Declaration.exists_alignUp_eight s
  rw [writeString_apply text target hstart] at h
  dsimp only at h
  split_ifs at h with hnul hroom
  obtain ⟨-, rfl⟩ := EStateM.Result.ok.inj h
  rw [← Text.Utf8.zero_mem_encode] at hnul
  generalize Text.Utf8.encode text = bytes at hnul hroom ⊢
  have hspan : TextSpan.ofBytes none ((overwrite target start (bytes ++ [0])).toList.drop start) =
      ⟨bytes, bytes.length + 1, .terminator⟩ := by
    rw [drop_overwrite _ (by omega), List.append_assoc, List.singleton_append,
      TextSpan.ofBytes_none_append hnul]
  rw [Declaration.decodeText_eq_ok_iff]
  refine ⟨start, _, hstart, ?_, rfl, ?_, ?_, ?_⟩
  · have hsize : start + (bytes ++ [0]).length ≤ target.size := by simp; omega
    rw [size_overwrite hsize]
    omega
  · simp [Limits.standard, hspan]
  · rw [Limits.standard, hspan]
  · rw [Limits.standard, hspan, Nat.add_assoc]

namespace Definition

/-- The values that are numbers or texts, floating-point numbers apart. -/
inductive Scalar : Definition → Prop
  | integer (t : IntegerType) (path : Path) (storage : BitVec 64) : Scalar (.integer t path storage)
  | enum (t : EnumType) (path : Path) (storage : BitVec 64) : Scalar (.enum t path storage)
  | string (encoding : Encoding) (path : Path) (text : String) : Scalar (.string encoding path text)

/-- What is found of a scalar that has been written. -/
def stored : Definition → Definition
  | .integer t path storage => .integer t path (t.stored storage)
  | .enum t path storage => .enum t path (t.container.stored storage)
  | .string encoding path text => .string encoding path (encoding.decode (Text.Utf8.encode text))
  | v => v

/-- Whether a value is a text with a NUL in it, which would end it. -/
def HasNul : Definition → Prop
  | .string _ _ text => '\x00' ∈ text.toList
  | _ => False

/-- Where a scalar ends that is written from a position on. -/
def writtenEnd : Definition → Nat → Nat
  | .integer t _ _, s => alignUp s t.alignment + t.length
  | .enum t _ _, s => alignUp s t.container.alignment + t.container.length
  | .string _ _ text, s => alignUp s 8 + ((Text.Utf8.encode text).length + 1) * 8
  | _, s => s

/-- Whether a scalar is one that its declaration can represent. -/
def Representable : Definition → Prop
  | .integer t _ storage => t.Holds storage
  | .enum t _ storage => t.container.Holds storage
  | .string encoding _ text => encoding.Spells text ∧ '\x00' ∉ text.toList
  | _ => False

variable {v : Definition} {target : Array UInt8} {s : Nat} {c : Cursor}

/-- A scalar that has been written is found again as it is stored. -/
theorem decodeAt_of_write (hv : v.Scalar) (h : v.write ⟨target, s⟩ = .ok () c) (a : Arena)
    (scope : FrameId) :
    Declaration.decodeAt .standard v.declaration scope v.path ⟨⟨c.data, s⟩, a⟩ =
      .ok v.stored ⟨c, a⟩ := by
  cases hv with
  | integer t path storage =>
      rw [write] at h
      rw [declaration, Declaration.decodeAt, bind_eq_ok_iff]
      exact ⟨_, _, DecodeM.ofRead_eq_ok_iff.mpr ⟨_, t.read_of_write h, rfl⟩, rfl⟩
  | enum t path storage =>
      rw [write] at h
      rw [declaration, Declaration.decodeAt, bind_eq_ok_iff]
      exact ⟨_, _, DecodeM.ofRead_eq_ok_iff.mpr ⟨_, t.container.read_of_write h, rfl⟩, rfl⟩
  | string encoding path text =>
      rw [write, Declaration.alignment_string] at h
      rw [declaration, Declaration.decodeAt, bind_eq_ok_iff]
      exact ⟨_, _, decodeText_of_write a h, rfl⟩

theorem room_of_write (hv : v.Scalar) (h : v.write ⟨target, s⟩ = .ok () c) :
    ¬ v.HasNul ∧ v.writtenEnd s ≤ target.size * 8 := by
  cases hv with
  | integer t path storage =>
      rw [write] at h
      exact ⟨not_false, t.le_of_write h⟩
  | enum t path storage =>
      rw [write] at h
      exact ⟨not_false, t.container.le_of_write h⟩
  | string encoding path text =>
      obtain ⟨start, hstart⟩ := Declaration.exists_alignUp_eight s
      rw [write, Declaration.alignment_string, writeString_apply text target hstart] at h
      dsimp only at h
      rw [writtenEnd, HasNul, hstart]
      split_ifs at h with hnul hroom
      exact ⟨hnul, by omega⟩

theorem error_of_write (hv : v.Scalar) {error : WriteError}
    (h : v.write ⟨target, s⟩ = .error error c) :
    (error = .invalidValue ∧ v.HasNul) ∨
      (error = .outOfBounds ∧ ¬ v.HasNul ∧ target.size * 8 < v.writtenEnd s) := by
  cases hv with
  | integer t path storage =>
      rw [write] at h
      obtain ⟨herror, hroom⟩ := t.error_eq_of_write h
      exact .inr ⟨herror, not_false, hroom⟩
  | enum t path storage =>
      rw [write] at h
      obtain ⟨herror, hroom⟩ := t.container.error_eq_of_write h
      exact .inr ⟨herror, not_false, hroom⟩
  | string encoding path text =>
      obtain ⟨start, hstart⟩ := Declaration.exists_alignUp_eight s
      rw [write, Declaration.alignment_string, writeString_apply text target hstart] at h
      dsimp only at h
      rw [writtenEnd, HasNul, hstart]
      split_ifs at h with hnul hroom
      · exact .inl ⟨(EStateM.Result.error.inj h).1.symm, hnul⟩
      · exact .inr ⟨(EStateM.Result.error.inj h).1.symm, hnul, by omega⟩

/-- A scalar without a NUL is stored as it is exactly if its declaration can represent it. -/
theorem stored_eq_self_iff (hv : v.Scalar) (hnul : ¬ v.HasNul) :
    v.stored = v ↔ v.Representable := by
  cases hv with
  | integer t path storage =>
      rw [stored, integer.injEq, Representable, ← t.stored_eq_iff]
      simp
  | enum t path storage =>
      rw [stored, enum.injEq, Representable, ← t.container.stored_eq_iff]
      simp
  | string encoding path text =>
      rw [HasNul] at hnul
      rw [stored, string.injEq, Representable, ← encoding.decode_encode_iff]
      simp [hnul]

/-- A scalar is written if it has no NUL in it and fits into the region.  It is then found again as
it is stored, and this is the scalar itself exactly if its declaration can represent it. -/
theorem read_back (hv : v.Scalar) (target : Array UInt8) (s : Nat) :
    (∀ c, v.write ⟨target, s⟩ = .ok () c →
      ¬ v.HasNul ∧ v.writtenEnd s ≤ target.size * 8 ∧
      (∀ a scope, Declaration.decodeAt .standard v.declaration scope v.path ⟨⟨c.data, s⟩, a⟩ =
        .ok v.stored ⟨c, a⟩) ∧
      (v.stored = v ↔ v.Representable)) ∧
    (∀ error c, v.write ⟨target, s⟩ = .error error c →
      (error = .invalidValue ∧ v.HasNul) ∨
      (error = .outOfBounds ∧ ¬ v.HasNul ∧ target.size * 8 < v.writtenEnd s)) := by
  refine ⟨fun c h => ?_, fun error c h => error_of_write hv h⟩
  obtain ⟨hnul, hroom⟩ := room_of_write hv h
  exact ⟨hnul, hroom, decodeAt_of_write hv h, stored_eq_self_iff hv hnul⟩

theorem read_back_negative :
    let v : Definition := .integer .int8 (.root "n") (-2)
    v.Scalar ∧ v.write ⟨#[7], 0⟩ = .ok () ⟨#[254], 8⟩ ∧
      Declaration.decodeAt .standard v.declaration .root v.path ⟨⟨#[254], 0⟩, .empty⟩ =
        .ok v.stored ⟨⟨#[254], 8⟩, .empty⟩ ∧ v.stored = v := by
  intro v
  have hv : v.Scalar := .integer _ _ _
  have hwrite : v.write ⟨#[7], 0⟩ = .ok () ⟨#[254], 8⟩ := by
    dsimp only [v]
    cbv
  obtain ⟨-, -, hdecode, hstored⟩ := (read_back hv #[7] 0).1 _ hwrite
  have hholds : v.Representable := by
    dsimp only [v, Representable, IntegerType.Holds]
    decide
  exact ⟨hv, hwrite, hdecode .empty .root, hstored.mpr hholds⟩

/-- A number out of bounds is written all the same, and another one is read back. -/
theorem read_back_cut_off :
    let v : Definition := .integer .uint8 (.root "n") 256
    v.write ⟨#[7], 0⟩ = .ok () ⟨#[0], 8⟩ ∧
      Declaration.decodeAt .standard v.declaration .root v.path ⟨⟨#[0], 0⟩, .empty⟩ =
        .ok (.integer .uint8 (.root "n") 0) ⟨⟨#[0], 8⟩, .empty⟩ ∧
      ¬ v.Representable ∧ Definition.integer .uint8 (.root "n") 0 ≠ v := by
  intro v
  refine ⟨?_, ?_, ?_, ?_⟩
  · dsimp only [v]
    cbv
  · dsimp only [v]
    cbv
  · dsimp only [v, Representable, IntegerType.Holds]
    decide
  · dsimp only [v]
    simp

end Definition

end TraceFormat
