import Mathlib.Algebra.GroupWithZero.Nat
import Mathlib.Tactic.Common
import TraceFormat.Cursor.Bits

/-! # The bits of a region

A region is seen here bit by bit: `bitAt data j k` is bit `k` of byte `j`, where bit `0` is the
least significant one.  Each byte order has its own way to number these bits
(`ByteOrder.position`), and a run of `n` bits holds bit `i` with the weight `ByteOrder.weight n i`.

In these terms a run that is read has the bits of the region (`testBit_joinPieces`), and a run that
is written sets its own bits and leaves the others (`bitAt_splitPieces`). -/

namespace TraceFormat

/-- Bit `k` of byte `j`, counted from the least significant one. -/
def bitAt (data : Array UInt8) (j k : Nat) : Bool := (data.getD j 0).toNat.testBit k

namespace ByteOrder

/-- The position at which a byte order has bit `k` of byte `j`. -/
def position : ByteOrder → (j k : Nat) → Nat
  | .big, j, k => 8 * j + (7 - k)
  | .little, j, k => 8 * j + k

/-- Which bit of its byte a byte order has at a position. -/
def place : ByteOrder → Nat → Nat
  | .big, q => 7 - q % 8
  | .little, q => q % 8

/-- The weight, as an exponent, of bit `i` in a run of `n` bits. -/
def weight : ByteOrder → (n i : Nat) → Nat
  | .big, n, i => n - 1 - i
  | .little, _, i => i

theorem position_div (order : ByteOrder) {j k : Nat} (hk : k < 8) : order.position j k / 8 = j := by
  cases order <;> simp only [position] <;> omega

theorem place_position (order : ByteOrder) {j k : Nat} (hk : k < 8) :
    order.place (order.position j k) = k := by
  cases order <;> simp only [position, place] <;> omega

theorem position_place (order : ByteOrder) (q : Nat) :
    order.position (q / 8) (order.place q) = q := by
  cases order <;> simp only [position, place] <;> omega

theorem place_lt (order : ByteOrder) (q : Nat) : order.place q < 8 := by
  cases order <;> simp only [place] <;> omega

theorem weight_lt (order : ByteOrder) {n i : Nat} (h : i < n) : order.weight n i < n := by
  cases order <;> simp only [weight] <;> omega

end ByteOrder

theorem bitAt_of_le {data : Array UInt8} {j k : Nat} (h : 8 ≤ k) : bitAt data j k = false := by
  have hpow : 2 ^ 8 ≤ 2 ^ k := Nat.pow_le_pow_right (by decide) h
  exact Nat.testBit_lt_two_pow (Nat.lt_of_lt_of_le (data.getD j 0).toNat_lt hpow)

theorem getD_eq_of_bitAt {data data' : Array UInt8} {j : Nat}
    (h : ∀ k < 8, bitAt data' j k = bitAt data j k) : data'.getD j 0 = data.getD j 0 := by
  apply UInt8.toNat_inj.mp
  apply Nat.eq_of_testBit_eq
  intro k
  rcases Nat.lt_or_ge k 8 with hk | hk
  · exact h k hk
  · exact (bitAt_of_le hk).trans (bitAt_of_le hk).symm

/-! ### Pieces -/

namespace Piece

theorem testBit_patch (byte shift size part k : Nat) :
    (patch byte shift size part).testBit k =
      if shift ≤ k ∧ k < shift + size then part.testBit (k - shift) else byte.testBit k := by
  unfold patch
  simp only [Nat.one_shiftLeft, Nat.testBit_or, Nat.testBit_shiftLeft, Nat.testBit_shiftRight,
    Nat.testBit_mod_two_pow]
  rcases Nat.lt_or_ge k shift with h | h
  · simp [h, show ¬ shift ≤ k by omega, show ¬ shift + size ≤ k by omega]
  · rcases Nat.lt_or_ge k (shift + size) with h' | h'
    · simp [h, h', show ¬ k < shift by omega, show ¬ shift + size ≤ k by omega,
        show k - shift < size by omega]
    · simp [h', show ¬ k < shift by omega, show ¬ k < shift + size by omega,
        show ¬ k - shift < size by omega, show shift + size + (k - (shift + size)) = k by omega]

theorem patch_lt {byte shift size part : Nat} (hb : byte < 256) (h : shift + size ≤ 8) :
    patch byte shift size part < 256 := by
  refine Nat.lt_pow_two_of_testBit (n := 8) _ fun k hk => ?_
  rw [testBit_patch, if_neg (by omega)]
  exact Nat.testBit_lt_two_pow
    (Nat.lt_of_lt_of_le (m := 2 ^ 8) hb (Nat.pow_le_pow_right (by decide) hk))

theorem testBit_read (p : Piece) (order : ByteOrder) (data : Array UInt8) (k : Nat) :
    (p.read order data).testBit k =
      (decide (k < p.size) && bitAt data p.index (p.shift order + k)) := by
  unfold read bitAt
  rw [Nat.one_shiftLeft, Nat.testBit_mod_two_pow, Nat.testBit_shiftRight]

theorem read_lt (p : Piece) (order : ByteOrder) (data : Array UInt8) :
    p.read order data < 2 ^ p.size := by
  unfold read
  rw [Nat.one_shiftLeft]
  exact Nat.mod_lt _ (Nat.two_pow_pos _)

theorem size_write (p : Piece) (order : ByteOrder) (data : Array UInt8) (part : Nat) :
    (p.write order data part).size = data.size := by
  simp [write]

theorem bitAt_write {p : Piece} {order : ByteOrder} {data : Array UInt8} (hp : p.index < data.size)
    (hs : p.shift order + p.size ≤ 8) (part j k : Nat) :
    bitAt (p.write order data part) j k =
      if j = p.index ∧ p.shift order ≤ k ∧ k < p.shift order + p.size
      then part.testBit (k - p.shift order) else bitAt data j k := by
  unfold bitAt write
  by_cases hj : j = p.index
  · subst hj
    have hlt : patch (data.getD p.index 0).toNat (p.shift order) p.size part < 256 :=
      patch_lt (data.getD p.index 0).toNat_lt hs
    rw [Array.getD_eq_getD_getElem?, Array.getElem?_setIfInBounds_self_of_lt hp, Option.getD_some,
      UInt8.toNat_ofNat_of_lt' hlt, testBit_patch]
    simp
  · rw [Array.getD_eq_getD_getElem?, Array.getElem?_setIfInBounds_ne (by omega),
      ← Array.getD_eq_getD_getElem?, if_neg (by tauto)]

end Piece

/-! ### Runs -/

theorem pieces_zero (p : Nat) : pieces p 0 = [] := by rw [pieces, if_pos rfl]

theorem pieces_eq_cons (p : Nat) {n : Nat} (hn : n ≠ 0) :
    pieces p n = ⟨p / 8, p % 8, min (8 - p % 8) n⟩ ::
      pieces (p + min (8 - p % 8) n) (n - min (8 - p % 8) n) := by
  rw [pieces, if_neg hn]

/-- A run begins with a piece that does not leave its byte. -/
theorem exists_pieces_eq_cons (p : Nat) {n : Nat} (hn : n ≠ 0) :
    ∃ size, 0 < size ∧ size ≤ n ∧ p % 8 + size ≤ 8 ∧
      pieces p n = ⟨p / 8, p % 8, size⟩ :: pieces (p + size) (n - size) :=
  ⟨_, by omega, by omega, by omega, pieces_eq_cons p hn⟩

theorem total_pieces (p n : Nat) : Piece.total (pieces p n) = n := by
  induction n using Nat.strongRecOn generalizing p with
  | ind n ih =>
      rcases Nat.eq_zero_or_pos n with rfl | hn
      · rw [pieces_zero, Piece.total]
      · obtain ⟨size, hpos, hle, -, heq⟩ := exists_pieces_eq_cons p (Nat.ne_of_gt hn)
        rw [heq, Piece.total, ih _ (by omega)]
        exact Nat.add_sub_cancel' hle

theorem joinPieces_cons (order : ByteOrder) (data : Array UInt8) (q : Piece) (p n : Nat) :
    joinPieces order data (q :: pieces p n) =
      match order with
      | .big => q.read .big data <<< n ||| joinPieces .big data (pieces p n)
      | .little => q.read .little data ||| joinPieces .little data (pieces p n) <<< q.size := by
  cases order
  · rw [joinPieces, total_pieces]
  · rw [joinPieces]

theorem joinPieces_lt (order : ByteOrder) (data : Array UInt8) (p n : Nat) :
    joinPieces order data (pieces p n) < 2 ^ n := by
  induction n using Nat.strongRecOn generalizing p with
  | ind n ih =>
      rcases Nat.eq_zero_or_pos n with rfl | hn
      · simp [pieces_zero, joinPieces]
      · obtain ⟨size, hpos, hle, -, heq⟩ := exists_pieces_eq_cons p (Nat.ne_of_gt hn)
        have hread : Piece.read order data ⟨p / 8, p % 8, size⟩ < 2 ^ size := Piece.read_lt _ _ _
        have hrest := ih (n - size) (by omega) (p + size)
        have hpow : 2 ^ n = 2 ^ (n - size) * 2 ^ size := by
          rw [← Nat.pow_add, Nat.sub_add_cancel hle]
        rw [heq, joinPieces_cons]
        cases order with
        | big =>
            refine Nat.or_lt_two_pow ?_
              (Nat.lt_of_lt_of_le hrest (Nat.pow_le_pow_right (by decide) (by omega)))
            rw [Nat.shiftLeft_eq, hpow, Nat.mul_comm]
            exact Nat.mul_lt_mul_of_pos_left hread (Nat.two_pow_pos _)
        | little =>
            refine Nat.or_lt_two_pow
              (Nat.lt_of_lt_of_le hread (Nat.pow_le_pow_right (by decide) hle)) ?_
            rw [Nat.shiftLeft_eq, hpow]
            exact Nat.mul_lt_mul_of_pos_right hrest (Nat.two_pow_pos _)

/-- Bit `i` of a run is the bit that the byte order has `i` positions further on. -/
theorem testBit_joinPieces (order : ByteOrder) (data : Array UInt8) (p n : Nat) {i : Nat}
    (hi : i < n) :
    (joinPieces order data (pieces p n)).testBit (order.weight n i) =
      bitAt data ((p + i) / 8) (order.place (p + i)) := by
  -- a piece at a time: what follows the first piece is a run of its own
  induction n using Nat.strongRecOn generalizing p i with
  | ind n ih =>
      obtain ⟨size, hpos, hle, hfit, heq⟩ := exists_pieces_eq_cons p (n := n) (by omega)
      have hread : ∀ k, (Piece.read order data ⟨p / 8, p % 8, size⟩).testBit k =
          (decide (k < size) && bitAt data (p / 8) (Piece.shift ⟨p / 8, p % 8, size⟩ order + k)) :=
        Piece.testBit_read _ order data
      have hrest := joinPieces_lt order data (p + size) (n - size)
      rw [heq, joinPieces_cons]
      rcases Nat.lt_or_ge i size with h | h
      · -- the bit lies in the first piece
        rw [show (p + i) / 8 = p / 8 by omega]
        cases order with
        | big =>
            have hlow := Nat.testBit_lt_two_pow (i := n - 1 - i)
              (Nat.lt_of_lt_of_le hrest (Nat.pow_le_pow_right (by decide) (by omega)))
            simp only [ByteOrder.weight, ByteOrder.place, Nat.testBit_or, Nat.testBit_shiftLeft,
              hread, hlow, Piece.shift]
            simp only [show n - 1 - i ≥ n - size by omega, decide_true, Bool.true_and,
              Bool.or_false, show n - 1 - i - (n - size) < size by omega]
            congr 1
            omega
        | little =>
            simp only [ByteOrder.weight, ByteOrder.place, Nat.testBit_or, Nat.testBit_shiftLeft,
              hread, Piece.shift]
            simp only [show ¬ i ≥ size by omega, h, decide_true, decide_false, Bool.true_and,
              Bool.false_and, Bool.or_false]
            congr 1
            omega
      · -- the bit lies behind the first piece
        have h' := ih (n - size) (by omega) (p + size) (i := i - size) (by omega)
        rw [show p + size + (i - size) = p + i by omega] at h'
        rw [← h']
        cases order with
        | big =>
            simp only [ByteOrder.weight, Nat.testBit_or, Nat.testBit_shiftLeft]
            simp only [show ¬ n - 1 - i ≥ n - size by omega, decide_false, Bool.false_and,
              Bool.false_or]
            congr 1
            omega
        | little =>
            simp only [ByteOrder.weight, Nat.testBit_or, Nat.testBit_shiftLeft, hread]
            simp [h, show ¬ i < size by omega]

theorem size_splitPieces (order : ByteOrder) (ps : List Piece) (value : Nat) (data : Array UInt8) :
    (splitPieces order value data ps).size = data.size := by
  induction ps generalizing value data with
  | nil => rfl
  | cons p ps ih => cases order <;> simp [splitPieces, ih, Piece.size_write]

/-- A run that is written sets its own bits and leaves the others. -/
theorem bitAt_splitPieces (order : ByteOrder) (value : Nat) {data : Array UInt8} {p n : Nat}
    (hn : p + n ≤ data.size * 8) (j : Nat) {k : Nat} (hk : k < 8) :
    bitAt (splitPieces order value data (pieces p n)) j k =
      if p ≤ order.position j k ∧ order.position j k < p + n
      then value.testBit (order.weight n (order.position j k - p)) else bitAt data j k := by
  induction n using Nat.strongRecOn generalizing p value data with
  | ind n ih =>
      rcases Nat.eq_zero_or_pos n with rfl | hpos
      · rw [pieces_zero, splitPieces, if_neg (by omega)]
      · obtain ⟨size, hsize, hle, hfit, heq⟩ := exists_pieces_eq_cons p (Nat.ne_of_gt hpos)
        have hwrite : ∀ part, bitAt (Piece.write order data ⟨p / 8, p % 8, size⟩ part) j k =
            if p ≤ order.position j k ∧ order.position j k < p + size
            then part.testBit (k - Piece.shift ⟨p / 8, p % 8, size⟩ order) else bitAt data j k := by
          intro part
          have hshift : Piece.shift ⟨p / 8, p % 8, size⟩ order + size ≤ 8 := by
            cases order <;> simp only [Piece.shift] <;> omega
          rw [Piece.bitAt_write (by dsimp only; omega) hshift]
          congr 1
          cases order <;> simp only [Piece.shift, ByteOrder.position, eq_iff_iff] <;> omega
        have hih : ∀ (w part : Nat), bitAt (splitPieces order w
            (Piece.write order data ⟨p / 8, p % 8, size⟩ part) (pieces (p + size) (n - size))) j k =
            if p + size ≤ order.position j k ∧ order.position j k < p + n
            then w.testBit (order.weight (n - size) (order.position j k - (p + size)))
            else bitAt (Piece.write order data ⟨p / 8, p % 8, size⟩ part) j k := by
          intro w part
          rw [ih (n - size) (by omega) w (by rw [Piece.size_write]; omega),
            show p + size + (n - size) = p + n by omega]
        rw [heq]
        by_cases hrest : p + size ≤ order.position j k ∧ order.position j k < p + n
        · -- the bit belongs to the rest of the run
          rw [if_pos (by omega)]
          cases order with
          | big =>
              rw [splitPieces, total_pieces, hih, if_pos hrest]
              congr 1
              simp only [ByteOrder.weight, ByteOrder.position] at hrest ⊢
              omega
          | little =>
              rw [splitPieces, hih, if_pos hrest, Nat.testBit_shiftRight]
              congr 1
              simp only [ByteOrder.weight, ByteOrder.position] at hrest ⊢
              omega
        · by_cases hfirst : p ≤ order.position j k ∧ order.position j k < p + size
          · -- the bit belongs to the first piece
            rw [if_pos (by omega)]
            cases order with
            | big =>
                rw [splitPieces, total_pieces, hih, if_neg hrest, hwrite, if_pos hfirst,
                  Nat.testBit_shiftRight]
                congr 1
                simp only [ByteOrder.weight, ByteOrder.position, Piece.shift] at hfirst ⊢
                omega
            | little =>
                rw [splitPieces, hih, if_neg hrest, hwrite, if_pos hfirst]
                congr 1
                simp only [ByteOrder.weight, ByteOrder.position, Piece.shift] at hfirst ⊢
                omega
          · -- the bit lies outside the run
            rw [if_neg (by omega)]
            cases order with
            | big => rw [splitPieces, hih, if_neg hrest, hwrite, if_neg hfirst]
            | little => rw [splitPieces, hih, if_neg hrest, hwrite, if_neg hfirst]

end TraceFormat
