import Mathlib.Algebra.BigOperators.Group.Finset.Basic
import Mathlib.Data.Int.ModEq
import TraceFormat.Proofs.Cursor.Number

/-! # Numbers as sums of bits

Each byte order numbers the bits of a region in its own way: at position `q` the big-endian one has
bit `7 - q % 8` of byte `q / 8` and the little-endian one bit `q % 8` of it.  A run that is read is
the sum of its bits, the first of which counts most in a big-endian run and least in a little-endian
one (`joinPieces_eq_sum`).

Storage takes this number as it is or, if it is signed, for the number between `-2 ^ (n - 1)` and
`2 ^ (n - 1)` that differs from it by a multiple of `2 ^ n` (`toInt_toStorage_eq_iff`).  The main
statement, `readBits_readInt_eq`, holds wherever the run begins and however many bytes it meets. -/

namespace TraceFormat

open Finset (range)

/-! ### Sums of bits -/

theorem mod_two_pow_eq_sum (x n : Nat) :
    x % 2 ^ n = ∑ i ∈ range n, (x.testBit i).toNat * 2 ^ i := by
  induction n with
  | zero => simp [Nat.mod_one]
  | succ n ih =>
      rw [Finset.sum_range_succ, ← ih, Nat.mod_pow_succ, Nat.toNat_testBit, Nat.mul_comm]

/-- A run is the sum of its bits, each with its weight. -/
theorem joinPieces_eq_sum (order : ByteOrder) (data : Array UInt8) (p n : Nat) :
    joinPieces order data (pieces p n) =
      ∑ i ∈ range n,
        (bitAt data ((p + i) / 8) (order.place (p + i))).toNat * 2 ^ order.weight n i := by
  have hweight : ∀ i ∈ range n, order.weight n i ∈ range n := fun i hi =>
    Finset.mem_range.mpr (order.weight_lt (Finset.mem_range.mp hi))
  have hback : ∀ i ∈ range n, order.weight n (order.weight n i) = i := fun i hi =>
    order.weight_weight (Finset.mem_range.mp hi)
  rw [← Nat.mod_eq_of_lt (joinPieces_lt order data p n), mod_two_pow_eq_sum]
  -- one side goes through the bits by weight, the other by position
  refine Finset.sum_nbij' (order.weight n) (order.weight n) hweight hweight hback hback ?_
  intro w hw
  have hbit := testBit_joinPieces order data p n (Finset.mem_range.mp (hweight w hw))
  rw [hback w hw] at hbit ⊢
  rw [hbit]

/-! ### Storage -/

theorem toNat_toStorage_unsigned (n : Nat) {value : Nat} (h : value < 2 ^ 64) :
    (toStorage n false value).toNat = value := by
  rw [toStorage, if_neg Bool.false_ne_true, BitVec.toNat_ofNat, Nat.mod_eq_of_lt h]

theorem toInt_toStorage_eq_iff {n : Nat} (hpos : 0 < n) (hle : n ≤ 64) (value : Nat) {x : Int} :
    (toStorage n true value).toInt = x ↔
      -2 ^ (n - 1) ≤ x ∧ x < 2 ^ (n - 1) ∧ x ≡ value [ZMOD 2 ^ n] := by
  have hpow : (2 : Int) ^ n = 2 * 2 ^ (n - 1) := by
    rw [← Int.pow_succ', Nat.sub_add_cancel hpos]
  rw [toStorage, if_pos rfl, BitVec.toInt_signExtend_of_le hle, BitVec.toInt_ofNat',
    Int.bmod_eq_iff (Nat.two_pow_pos n), Int.modEq_comm, Int.modEq_iff_dvd]
  push_cast
  rw [show (2 : Int) ^ n / 2 = 2 ^ (n - 1) by omega,
    show ((2 : Int) ^ n + 1) / 2 = 2 ^ (n - 1) by omega]

/-! ### Reading -/

section

variable (data : Array UInt8) {p n : Nat}

theorem readBits_of_room (order : ByteOrder) (hpos : 0 < n) (hle : n ≤ 64)
    (hroom : p + n ≤ data.size * 8) :
    readBits n order ⟨data, p⟩ = .ok (joinPieces order data (pieces p n)) ⟨data, p + n⟩ := by
  rw [readBits_apply, if_neg (by omega), if_neg (by omega)]

theorem readInt_of_room (signed : Bool) (order : ByteOrder) (hpos : 0 < n) (hle : n ≤ 64)
    (hroom : p + n ≤ data.size * 8) :
    readInt n signed order ⟨data, p⟩ =
      .ok (toStorage n signed (joinPieces order data (pieces p n))) ⟨data, p + n⟩ := by
  change EStateM.map _ (readBits n order) ⟨data, p⟩ = _
  rw [EStateM.map, readBits_of_room data order hpos hle hroom]

end

/-- A run of bits within a region is read as the sum of its bits, and the cursor moves over just
these.  Storage without a sign holds the same 64 bits as the sum, and storage with a sign the only
number between the bounds of `n` bits that is the sum modulo `2 ^ n`. -/
theorem readBits_readInt_eq (data : Array UInt8) {p n : Nat} (hpos : 0 < n) (hle : n ≤ 64)
    (hroom : p + n ≤ data.size * 8) :
    readBits n .big ⟨data, p⟩ =
      .ok (∑ i ∈ range n, (bitAt data ((p + i) / 8) (7 - (p + i) % 8)).toNat * 2 ^ (n - 1 - i))
        ⟨data, p + n⟩ ∧
    readBits n .little ⟨data, p⟩ =
      .ok (∑ i ∈ range n, (bitAt data ((p + i) / 8) ((p + i) % 8)).toNat * 2 ^ i) ⟨data, p + n⟩ ∧
    ∀ order, ∃ value unsigned signed,
      readBits n order ⟨data, p⟩ = .ok value ⟨data, p + n⟩ ∧
      readInt n false order ⟨data, p⟩ = .ok unsigned ⟨data, p + n⟩ ∧
      unsigned.toNat = value ∧ unsigned.toInt = (value : Int).bmod (2 ^ 64) ∧
      readInt n true order ⟨data, p⟩ = .ok signed ⟨data, p + n⟩ ∧
      ∀ x : Int, x = signed.toInt ↔
        -2 ^ (n - 1) ≤ x ∧ x < 2 ^ (n - 1) ∧ x ≡ value [ZMOD 2 ^ n] := by
  have hread := fun order => readBits_of_room data order hpos hle hroom
  have hint := fun signed order => readInt_of_room data signed order hpos hle hroom
  refine ⟨?_, ?_, fun order => ⟨_, _, _, hread order, hint false order, ?_, ?_, hint true order, ?_⟩⟩
  · rw [hread, joinPieces_eq_sum]
    rfl
  · rw [hread, joinPieces_eq_sum]
    rfl
  · have hlt := joinPieces_lt order data p n
    exact toNat_toStorage_unsigned n
      (Nat.lt_of_lt_of_le hlt (Nat.pow_le_pow_right (by decide) hle))
  · exact BitVec.toInt_ofNat' _
  · intro x
    rw [eq_comm, toInt_toStorage_eq_iff hpos hle]

/-- A word that meets nine bytes and has its highest bit set. -/
theorem readBits_readInt_eq_word :
    let data : Array UInt8 := #[0xab, 0xcd, 0xef, 0x12, 0x34, 0x56, 0x78, 0x9a, 0xbc]
    0 < 64 ∧ 64 ≤ 64 ∧ 5 + 64 ≤ data.size * 8 ∧
      readBits 64 .little ⟨data, 5⟩ = .ok 0xe4d3c2b1a0977e6d ⟨data, 69⟩ ∧
      ∃ storage, readInt 64 true .little ⟨data, 5⟩ = .ok storage ⟨data, 69⟩ ∧
        storage.toInt = 0xe4d3c2b1a0977e6d - 2 ^ 64 := by
  intro data
  have hroom : 5 + 64 ≤ data.size * 8 := by decide
  have hsum : ∑ i ∈ range 64, (bitAt data ((5 + i) / 8) ((5 + i) % 8)).toNat * 2 ^ i =
      0xe4d3c2b1a0977e6d := by
    decide +kernel
  obtain ⟨-, hlittle, hint⟩ := readBits_readInt_eq data (by decide) (Nat.le_refl 64) hroom
  rw [hsum] at hlittle
  obtain ⟨value, -, storage, hread, -, -, -, hstorage, hnumber⟩ := hint .little
  obtain ⟨rfl, -⟩ := EStateM.Result.ok.inj (hlittle.symm.trans hread)
  exact ⟨by decide, by decide, hroom, hlittle, storage, hstorage,
    ((hnumber _).mpr ⟨by decide, by decide, by decide⟩).symm⟩

end TraceFormat
