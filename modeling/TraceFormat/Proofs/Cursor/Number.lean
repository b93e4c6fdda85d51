import TraceFormat.Declaration.Float
import TraceFormat.Declaration.Integer
import TraceFormat.Proofs.Cursor.Bits

/-! # Numbers at a cursor

An integer that is read is the run of bits at the next aligned position, brought to 64 bits of
storage, and its number lies within the bounds of its type (`IntegerType.value_toStorage_mem`).  One
that is written puts the low bits of its storage into that run.  Storage keeps the bits it was made
from (`testBit_toStorage`), so an integer that is read and written again puts its own bits back. -/

namespace TraceFormat

theorem ByteOrder.weight_weight (order : ByteOrder) {n i : Nat} (h : i < n) :
    order.weight n (order.weight n i) = i := by
  cases order <;> simp only [ByteOrder.weight]
  omega

theorem joinPieces_congr (order : ByteOrder) {data data' : Array UInt8} {p p' n : Nat}
    (h : ∀ i < n, bitAt data' ((p' + i) / 8) (order.place (p' + i)) =
      bitAt data ((p + i) / 8) (order.place (p + i))) :
    joinPieces order data' (pieces p' n) = joinPieces order data (pieces p n) := by
  apply Nat.eq_of_testBit_eq
  intro w
  rcases Nat.lt_or_ge w n with hw | hw
  · have hi := order.weight_lt hw
    rw [← order.weight_weight hw, testBit_joinPieces order data' p' n hi,
      testBit_joinPieces order data p n hi]
    exact h _ hi
  · have hpow : 2 ^ n ≤ 2 ^ w := Nat.pow_le_pow_right (by decide) hw
    rw [Nat.testBit_lt_two_pow (Nat.lt_of_lt_of_le (joinPieces_lt order data' p' n) hpow),
      Nat.testBit_lt_two_pow (Nat.lt_of_lt_of_le (joinPieces_lt order data p n) hpow)]

/-- A run that has been written holds the low bits of what was written. -/
theorem joinPieces_splitPieces (order : ByteOrder) (value : Nat) {data : Array UInt8} {p n : Nat}
    (h : p + n ≤ data.size * 8) :
    joinPieces order (splitPieces order value data (pieces p n)) (pieces p n) = value % 2 ^ n := by
  apply Nat.eq_of_testBit_eq
  intro w
  rw [Nat.testBit_mod_two_pow]
  rcases Nat.lt_or_ge w n with hw | hw
  · have hi := order.weight_lt hw
    have hin : p ≤ p + order.weight n w ∧ p + order.weight n w < p + n := by omega
    rw [← order.weight_weight hw, testBit_joinPieces order _ p n hi,
      bitAt_splitPieces order value h _ (order.place_lt _), order.position_place, if_pos hin,
      Nat.add_sub_cancel_left, order.weight_weight hw]
    simp [hw]
  · have hpow : 2 ^ n ≤ 2 ^ w := Nat.pow_le_pow_right (by decide) hw
    rw [Nat.testBit_lt_two_pow (Nat.lt_of_lt_of_le (joinPieces_lt order _ p n) hpow)]
    simp [Nat.not_lt.mpr hw]

theorem testBit_toStorage {n : Nat} (hn : n ≤ 64) (signed : Bool) (value : Nat) {i : Nat}
    (hi : i < n) : (toStorage n signed value).toNat.testBit i = value.testBit i := by
  rw [BitVec.testBit_toNat]
  unfold toStorage
  have hi' : i < 64 := by omega
  split_ifs
  · rw [BitVec.getLsbD_signExtend, if_pos hi, BitVec.getLsbD_ofNat]
    simp only [hi, hi', decide_true, Bool.true_and]
  · rw [BitVec.getLsbD_ofNat]
    simp only [hi', decide_true, Bool.true_and]

theorem readBits_apply (data : Array UInt8) (p n : Nat) (order : ByteOrder) :
    readBits n order ⟨data, p⟩ =
      if n = 0 ∨ 64 < n then .error .badWidth ⟨data, p⟩
      else if data.size * 8 < p + n then .error .outOfBounds ⟨data, p⟩
      else .ok (joinPieces order data (pieces p n)) ⟨data, p + n⟩ := by
  unfold readBits Cursor.checkSpan Cursor.capacity
  split_ifs <;> rfl

theorem writeBits_apply (data : Array UInt8) (p value n : Nat) (order : ByteOrder) :
    writeBits value n order ⟨data, p⟩ =
      if n = 0 ∨ 64 < n then .error .badWidth ⟨data, p⟩
      else if data.size * 8 < p + n then .error .outOfBounds ⟨data, p⟩
      else .ok () ⟨splitPieces order value data (pieces p n), p + n⟩ := by
  unfold writeBits Cursor.checkSpan Cursor.capacity
  split_ifs <;> rfl

theorem alignUp_of_le_one {unit : Nat} (h : unit ≤ 1) (position : Nat) :
    alignUp position unit = position := by
  obtain rfl | rfl := Nat.le_one_iff_eq_zero_or_eq_one.mp h
  · simp [alignUp]
  · rw [alignUp, Nat.mod_one, Nat.add_zero]

/-- A number at the next aligned position is what `f` makes of the run of bits there. -/
theorem alignTo_map_readBits_apply {α : Type} (f : Nat → α) (data : Array UInt8) (s unit : Nat)
    {n : Nat} (order : ByteOrder) (hpos : 0 < n) (hle : n ≤ 64) :
    (alignTo unit >>= fun _ => f <$> readBits n order) ⟨data, s⟩ =
      if data.size * 8 < alignUp s unit + n then .error .outOfBounds ⟨data, alignUp s unit⟩
      else
        .ok (f (joinPieces order data (pieces (alignUp s unit) n))) ⟨data, alignUp s unit + n⟩ := by
  have hwidth : ¬ (n = 0 ∨ 64 < n) := by omega
  have hread := readBits_apply data (alignUp s unit) n order
  rw [if_neg hwidth] at hread
  change EStateM.map f (readBits n order) ⟨data, alignUp s unit⟩ = _
  rw [EStateM.map, hread]
  split_ifs <;> rfl

theorem alignTo_map_readBits_eq_ok_iff {α : Type} {f : Nat → α} {data : Array UInt8}
    {s e unit n : Nat} {order : ByteOrder} {v : α} (hpos : 0 < n) (hle : n ≤ 64) :
    (alignTo unit >>= fun _ => f <$> readBits n order) ⟨data, s⟩ = .ok v ⟨data, e⟩ ↔
      alignUp s unit + n ≤ data.size * 8 ∧
      v = f (joinPieces order data (pieces (alignUp s unit) n)) ∧ e = alignUp s unit + n := by
  rw [alignTo_map_readBits_apply f data s unit order hpos hle]
  split_ifs with h
  · simp [show ¬ alignUp s unit + n ≤ data.size * 8 by omega]
  · simp [show alignUp s unit + n ≤ data.size * 8 by omega, eq_comm]

namespace IntegerType

theorem write_apply (t : IntegerType) (storage : BitVec 64) (data : Array UInt8) (s : Nat) :
    t.write storage ⟨data, s⟩ =
      if data.size * 8 < alignUp s t.alignment + t.length then
        .error .outOfBounds ⟨data, alignUp s t.alignment⟩
      else
        .ok () ⟨splitPieces t.byteOrder storage.toNat data
            (pieces (alignUp s t.alignment) t.length), alignUp s t.alignment + t.length⟩ := by
  have hwidth : ¬ (t.length = 0 ∨ 64 < t.length) := by
    have := t.length_pos
    have := t.length_le
    omega
  have hwrite := writeBits_apply data (alignUp s t.alignment) storage.toNat t.length t.byteOrder
  rw [if_neg hwidth] at hwrite
  exact hwrite

theorem read_eq_ok_iff (t : IntegerType) {data : Array UInt8} {s e : Nat} {storage : BitVec 64} :
    t.read ⟨data, s⟩ = .ok storage ⟨data, e⟩ ↔
      alignUp s t.alignment + t.length ≤ data.size * 8 ∧
      storage = toStorage t.length t.signed
        (joinPieces t.byteOrder data (pieces (alignUp s t.alignment) t.length)) ∧
      e = alignUp s t.alignment + t.length :=
  alignTo_map_readBits_eq_ok_iff t.length_pos t.length_le

theorem value_toStorage_mem (t : IntegerType) {raw : Nat} (h : raw < 2 ^ t.length) :
    t.minValue ≤ t.value (toStorage t.length t.signed raw) ∧
      t.value (toStorage t.length t.signed raw) ≤ t.maxValue := by
  have hle : 2 ^ t.length ≤ 2 ^ 64 := Nat.pow_le_pow_right (by decide) t.length_le
  unfold minValue maxValue value toStorage
  split_ifs with hs
  · rw [BitVec.toInt_signExtend_of_le t.length_le, Nat.one_shiftLeft]
    have hlow := BitVec.le_toInt (BitVec.ofNat t.length raw)
    have hhigh := BitVec.toInt_lt (x := BitVec.ofNat t.length raw)
    push_cast
    omega
  · rw [Nat.one_shiftLeft, BitVec.toNat_ofNat, Nat.mod_eq_of_lt (Nat.lt_of_lt_of_le h hle)]
    push_cast
    have : (raw : Int) < 2 ^ t.length := by exact_mod_cast h
    omega

end IntegerType

theorem FloatType.length_pos (t : FloatType) : 0 < t.length := by
  have := t.two_le_exponent
  unfold length
  omega

theorem FloatType.read_eq_ok_iff (t : FloatType) {data : Array UInt8} {s e : Nat}
    {value : FloatingPoint.Binary64} :
    t.read ⟨data, s⟩ = .ok value ⟨data, e⟩ ↔
      alignUp s t.alignment + t.length ≤ data.size * 8 ∧
      value = t.decode (joinPieces t.byteOrder data (pieces (alignUp s t.alignment) t.length)) ∧
      e = alignUp s t.alignment + t.length :=
  alignTo_map_readBits_eq_ok_iff t.length_pos t.length_le

end TraceFormat
