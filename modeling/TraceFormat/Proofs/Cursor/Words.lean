import TraceFormat.Declaration.Float
import TraceFormat.Proofs.Cursor.Number

/-! # Runs of bits in machine words

In this library a run of bits is a number of any size.  On a machine it passes through words of
fixed width: the loops that read and write runs go from byte to byte and put a 64-bit word together,
or take it apart, with shifts and masks.  A shift by the width of a word or more has no meaning
there, and neither has a byte outside the region or a count below zero.

Here are these loops with a check before each such operation, as computations that give nothing if a
check fails.  They always give what the library's own definitions say (`readInt?_eq`,
`writeBits?_eq`, `readFloat?_eq`), wherever the cursor stands and however many bits are asked for:
no check ever fails. -/

namespace TraceFormat.Words

open TraceFormat.FloatingPoint (Binary64 Format binary64 powerOfTwo scaleMagnitude)

/-! ### Checked operations -/

/-- The difference of two counts, which must not be negative. -/
def sub? (m n : Nat) : Option Nat := if n ≤ m then some (m - n) else none

section

variable {w : Nat}

/-- A word shifted to the left, by less than its width. -/
def shiftLeft? (x : BitVec w) (k : Nat) : Option (BitVec w) :=
  if k < w then some (x <<< k) else none

/-- A word shifted to the right, by less than its width. -/
def shiftRight? (x : BitVec w) (k : Nat) : Option (BitVec w) :=
  if k < w then some (x >>> k) else none

/-- A word with a sign shifted to the right, by less than its width. -/
def signedShiftRight? (x : BitVec w) (k : Nat) : Option (BitVec w) :=
  if k < w then some (x.sshiftRight k) else none

theorem sub?_eq {m n : Nat} (h : n ≤ m) : sub? m n = some (m - n) := if_pos h

theorem shiftLeft?_eq (x : BitVec w) {k : Nat} (h : k < w) : shiftLeft? x k = some (x <<< k) :=
  if_pos h

theorem shiftRight?_eq (x : BitVec w) {k : Nat} (h : k < w) : shiftRight? x k = some (x >>> k) :=
  if_pos h

theorem signedShiftRight?_eq (x : BitVec w) {k : Nat} (h : k < w) :
    signedShiftRight? x k = some (x.sshiftRight k) :=
  if_pos h

end

/-- The word in which the `n` low bits are set, fewer than all. -/
def lowBits? (w n : Nat) : Option (BitVec w) := do
  let bit ← shiftLeft? (1#w) n
  return bit - 1#w

/-- The byte in which the `n` low bits are set. -/
def lowMask? (n : Nat) : Option (BitVec 8) := do
  let bits ← lowBits? 16 n
  return bits.setWidth 8

/-- How far above the lowest bit of its byte a piece of `take` bits lies. -/
def pieceShift? : ByteOrder → (offset take : Nat) → Option Nat
  | .big, offset, take => sub? (8 - offset) take
  | .little, offset, _ => some offset

theorem lowBits?_eq {w n : Nat} (h : n < w) : lowBits? w n = some (BitVec.ofNat w (2 ^ n - 1)) := by
  have hlt : 2 ^ n < 2 ^ w := Nat.pow_lt_pow_right (by decide) h
  have hpos := Nat.two_pow_pos n
  have hone : (1#w).toNat = 1 := by rw [BitVec.toNat_ofNat, Nat.mod_eq_of_lt (by omega)]
  have hbit : (1#w <<< n).toNat = 2 ^ n := by
    rw [BitVec.toNat_shiftLeft, hone, Nat.one_shiftLeft, Nat.mod_eq_of_lt hlt]
  have hbits : 1#w <<< n - 1#w = BitVec.ofNat w (2 ^ n - 1) := by
    apply BitVec.eq_of_toNat_eq
    rw [BitVec.toNat_sub, hone, hbit, BitVec.toNat_ofNat,
      show 2 ^ w - 1 + 2 ^ n = 2 ^ n - 1 + 2 ^ w by omega, Nat.add_mod_right]
  unfold lowBits?
  rw [shiftLeft?_eq _ h, ← hbits]
  rfl

theorem toNat_lowBits {w n : Nat} (h : n ≤ w) : (BitVec.ofNat w (2 ^ n - 1)).toNat = 2 ^ n - 1 := by
  have hle : 2 ^ n ≤ 2 ^ w := Nat.pow_le_pow_right (by decide) h
  have hpos := Nat.two_pow_pos n
  rw [BitVec.toNat_ofNat, Nat.mod_eq_of_lt (by omega)]

theorem toNat_field {w n : Nat} (x : BitVec w) (k : Nat) (h : n ≤ w) :
    (x >>> k &&& BitVec.ofNat w (2 ^ n - 1)).toNat = x.toNat >>> k % 1 <<< n := by
  rw [BitVec.toNat_and, BitVec.toNat_ushiftRight, toNat_lowBits h, Nat.and_two_pow_sub_one_eq_mod,
    Nat.one_shiftLeft]

theorem lowMask?_eq {n : Nat} (h : n ≤ 8) : lowMask? n = some (BitVec.ofNat 8 (2 ^ n - 1)) := by
  have hmask : (BitVec.ofNat 16 (2 ^ n - 1)).setWidth 8 = BitVec.ofNat 8 (2 ^ n - 1) := by
    apply BitVec.eq_of_toNat_eq
    rw [BitVec.toNat_setWidth, toNat_lowBits (by omega), BitVec.toNat_ofNat]
  unfold lowMask?
  rw [lowBits?_eq (by omega), ← hmask]
  rfl

theorem pieceShift?_eq (order : ByteOrder) (index : Nat) {offset size : Nat}
    (h : offset + size ≤ 8) :
    pieceShift? order offset size = some (Piece.shift ⟨index, offset, size⟩ order) := by
  cases order with
  | big => exact sub?_eq (by omega)
  | little => rfl

/-! ### Reading -/

/-- Puts the next `take` bits behind, or above, the `shift` bits that `value` has so far. -/
def readStep? (order : ByteOrder) (data : Array UInt8) (value : BitVec 64) (shift pos take : Nat) :
    Option (BitVec 64) := do
  let byte ← data[pos / 8]?
  let mask ← lowMask? take
  let part ← shiftRight? byte.toBitVec (← pieceShift? order (pos % 8) take)
  let part := (part &&& mask).setWidth 64
  match order with
  | .big => return (← shiftLeft? value take) ||| part
  | .little => return value ||| (← shiftLeft? part shift)

/-- Reads byte by byte: `shift` bits are in `value`, `remaining` bits from `pos` on are to come. -/
def readLoop? (order : ByteOrder) (data : Array UInt8) (value : BitVec 64)
    (shift pos remaining : Nat) : Option (BitVec 64 × Nat) :=
  if remaining = 0 then some (value, pos)
  else do
    let take := min (8 - pos % 8) remaining
    let value ← readStep? order data value shift pos take
    readLoop? order data value (shift + take) (pos + take) (remaining - take)
termination_by remaining

/-- A word that has `shift` bits with a run of `n` more behind or above them. -/
def extend (order : ByteOrder) (value : BitVec 64) (shift n run : Nat) : BitVec 64 :=
  match order with
  | .big => value <<< n ||| BitVec.ofNat 64 run
  | .little => value ||| BitVec.ofNat 64 run <<< shift

theorem ofNat_shiftLeft {w : Nat} (x k : Nat) :
    BitVec.ofNat w (x <<< k) = BitVec.ofNat w x <<< k := by
  apply BitVec.eq_of_toNat_eq
  simp [Nat.shiftLeft_eq]

theorem extend_zero (order : ByteOrder) (value : BitVec 64) (shift : Nat) :
    extend order value shift 0 0 = value := by
  cases order <;> simp [extend]

/-- Two runs one after the other extend a word as the run that they make up. -/
theorem extend_extend (order : ByteOrder) (value : BitVec 64) (shift : Nat) (data : Array UInt8)
    (q : Piece) (p n : Nat) :
    extend order (extend order value shift q.size (q.read order data)) (shift + q.size) n
        (joinPieces order data (pieces p n)) =
      extend order value shift (q.size + n) (joinPieces order data (q :: pieces p n)) := by
  rw [joinPieces_cons]
  cases order with
  | big =>
      simp only [extend, BitVec.shiftLeft_or_distrib, BitVec.shiftLeft_add, BitVec.ofNat_or,
        ofNat_shiftLeft, BitVec.or_assoc]
  | little =>
      simp only [extend, BitVec.shiftLeft_or_distrib, BitVec.shiftLeft_add, BitVec.ofNat_or,
        ofNat_shiftLeft, BitVec.or_assoc, Nat.add_comm shift]

theorem setWidth_and_mask (order : ByteOrder) {data : Array UInt8} {p : Piece}
    (h : p.index < data.size) (hsize : p.size ≤ 8) :
    ((data[p.index].toBitVec >>> p.shift order &&& BitVec.ofNat 8 (2 ^ p.size - 1)).setWidth 64) =
      BitVec.ofNat 64 (p.read order data) := by
  have hbyte : data.getD p.index 0 = data[p.index] := by simp [Array.getD, h]
  apply BitVec.eq_of_toNat_eq
  rw [BitVec.toNat_setWidth, toNat_field _ _ hsize, BitVec.toNat_ofNat, Piece.read, hbyte]
  rfl

theorem readStep?_eq (order : ByteOrder) (data : Array UInt8) (value : BitVec 64)
    (shift pos take : Nat) (hpos : pos / 8 < data.size) (htake : 0 < take)
    (hfit : pos % 8 + take ≤ 8) (hshift : shift < 64) :
    readStep? order data value shift pos take =
      some (extend order value shift take (Piece.read order data ⟨pos / 8, pos % 8, take⟩)) := by
  have hpiece : Piece.shift ⟨pos / 8, pos % 8, take⟩ order < 8 := by
    cases order <;> simp only [Piece.shift] <;> omega
  have hpart := setWidth_and_mask order (p := ⟨pos / 8, pos % 8, take⟩) hpos (by dsimp only; omega)
  unfold readStep?
  rw [Array.getElem?_eq_getElem hpos, lowMask?_eq (by omega),
    pieceShift?_eq order (pos / 8) hfit]
  simp only [Option.bind_eq_bind, Option.bind_some, shiftRight?_eq _ hpiece, hpart]
  cases order with
  | big => rw [shiftLeft?_eq value (by omega)]; rfl
  | little => rw [shiftLeft?_eq _ hshift]; rfl

/-- The bits that are to come are those of the run at the position. -/
theorem readLoop?_eq (order : ByteOrder) (data : Array UInt8) (value : BitVec 64)
    (shift pos n : Nat) (hroom : pos + n ≤ data.size * 8) (hshift : shift + n ≤ 64) :
    readLoop? order data value shift pos n =
      some (extend order value shift n (joinPieces order data (pieces pos n)), pos + n) := by
  induction n using Nat.strongRecOn generalizing value shift pos with
  | ind n ih =>
      rcases Nat.eq_zero_or_pos n with rfl | hn
      · rw [readLoop?, if_pos rfl, pieces_zero, joinPieces, extend_zero, Nat.add_zero]
      · have hpieces := pieces_eq_cons pos (Nat.ne_of_gt hn)
        rw [readLoop?, if_neg (Nat.ne_of_gt hn)]
        generalize htake : min (8 - pos % 8) n = take at hpieces ⊢
        have hle : take ≤ n := by omega
        have hstep := readStep?_eq order data value shift pos take (by omega) (by omega) (by omega)
          (by omega)
        have hrest := ih (n - take) (by omega)
          (extend order value shift take (Piece.read order data ⟨pos / 8, pos % 8, take⟩))
          (shift + take) (pos + take) (by omega) (by omega)
        have hextend := extend_extend order value shift data ⟨pos / 8, pos % 8, take⟩ (pos + take)
          (n - take)
        dsimp only at hextend
        rw [hextend, ← hpieces, Nat.add_assoc, Nat.add_sub_cancel' hle] at hrest
        simp only [Option.bind_eq_bind, hstep, Option.bind_some, hrest]

/-! ### Numbers that are read -/

/-- Reads `n` bits into a word, once it is clear that they lie in the region. -/
def readBits? (n : Nat) (order : ByteOrder) (c : Cursor) :
    Option (EStateM.Result ReadError Cursor (BitVec 64)) :=
  match c.checkSpan n with
  | .error e => some (.error e c)
  | .ok () => do
    let (value, position) ← readLoop? order c.data 0 0 c.position n
    return .ok value { c with position }

/-- Fills a word up with the highest of its `n` low bits. -/
def signExtend? (value : BitVec 64) (n : Nat) : Option (BitVec 64) := do
  let shift ← sub? 64 n
  signedShiftRight? (← shiftLeft? value shift) shift

/-- Reads an `n`-bit number into 64 bits of storage. -/
def readInt? (n : Nat) (signed : Bool) (order : ByteOrder) (c : Cursor) :
    Option (EStateM.Result ReadError Cursor (BitVec 64)) := do
  match ← readBits? n order c with
  | .error e c => return .error e c
  | .ok value c =>
    let storage ← if signed then signExtend? value n else some value
    return .ok storage c

theorem extend_all (order : ByteOrder) (n run : Nat) :
    extend order 0 0 n run = BitVec.ofNat 64 run := by
  cases order <;> simp [extend]

theorem bounds_of_checkSpan {c : Cursor} {n : Nat} {u : Unit} (h : c.checkSpan n = .ok u) :
    0 < n ∧ n ≤ 64 ∧ c.position + n ≤ c.data.size * 8 := by
  unfold Cursor.checkSpan at h
  split_ifs at h with hwidth hroom
  exact ⟨by omega, by omega, Nat.not_lt.mp hroom⟩

theorem readBits?_eq (n : Nat) (order : ByteOrder) (c : Cursor) :
    readBits? n order c = some (EStateM.map (BitVec.ofNat 64) (readBits n order) c) := by
  unfold readBits? readBits EStateM.map
  dsimp only
  cases hspan : c.checkSpan n with
  | error e => rfl
  | ok _ =>
      obtain ⟨-, hle, hroom⟩ := bounds_of_checkSpan hspan
      have hloop := readLoop?_eq order c.data 0 0 c.position n hroom (by omega)
      simp only [hloop, extend_all, Option.bind_eq_bind, Option.bind_some]
      rfl

theorem bounds_of_readBits {n raw : Nat} {order : ByteOrder} {c c' : Cursor}
    (h : readBits n order c = .ok raw c') : 0 < n ∧ n ≤ 64 ∧ raw < 2 ^ n := by
  obtain ⟨data, position⟩ := c
  rw [readBits_apply] at h
  split_ifs at h with hwidth hroom
  obtain ⟨rfl, -⟩ := EStateM.Result.ok.inj h
  exact ⟨by omega, by omega, joinPieces_lt order data position n⟩

/-- A word shifted up and down again is filled up with what was the highest of its low bits. -/
theorem sshiftRight_shiftLeft {n : Nat} (hpos : 0 < n) (hle : n ≤ 64) (value : Nat) :
    (BitVec.ofNat 64 value <<< (64 - n)).sshiftRight (64 - n) =
      (BitVec.ofNat n value).signExtend 64 := by
  apply BitVec.eq_of_getLsbD_eq
  intro i hi
  rw [BitVec.getLsbD_sshiftRight, BitVec.getLsbD_signExtend]
  by_cases h : i < n
  · rw [if_pos (by omega), if_pos h]
    simp only [BitVec.getLsbD_shiftLeft, BitVec.getLsbD_ofNat, Nat.add_sub_cancel_left]
    simp [hi, h, show ¬ 64 ≤ i by omega, show 64 - n + i < 64 by omega,
      show ¬ 64 - n + i < 64 - n by omega]
  · rw [if_neg (by omega), if_neg h]
    simp only [BitVec.msb_eq_getLsbD_last, BitVec.getLsbD_shiftLeft, BitVec.getLsbD_ofNat]
    simp [hi, show ¬ 64 ≤ i by omega, show 64 - 1 - (64 - n) = n - 1 by omega,
      show ¬ 63 < 64 - n by omega, show n - 1 < 64 by omega, show n - 1 < n by omega]

theorem signExtend?_eq {n : Nat} (hpos : 0 < n) (hle : n ≤ 64) (value : Nat) :
    signExtend? (BitVec.ofNat 64 value) n = some (toStorage n true value) := by
  have hshift : 64 - n < 64 := by omega
  unfold signExtend?
  rw [sub?_eq hle]
  simp only [Option.bind_eq_bind, Option.bind_some, shiftLeft?_eq _ hshift,
    signedShiftRight?_eq _ hshift, sshiftRight_shiftLeft hpos hle]
  rfl

-- The width is what keeps the shifts in range: a word without bits would be shifted by all of it.
example : signExtend? 0 0 = none := by decide

theorem readInt?_eq (n : Nat) (signed : Bool) (order : ByteOrder) (c : Cursor) :
    readInt? n signed order c = some (readInt n signed order c) := by
  unfold readInt?
  rw [readBits?_eq]
  change _ = some (EStateM.map (toStorage n signed) (readBits n order) c)
  unfold EStateM.map
  dsimp only [Option.bind_eq_bind, Option.bind_some]
  cases hread : readBits n order c with
  | error e c' => rfl
  | ok value c' =>
      obtain ⟨hpos, hle, -⟩ := bounds_of_readBits hread
      cases signed with
      | false => rfl
      | true =>
          dsimp only
          rw [if_pos rfl, signExtend?_eq hpos hle]
          rfl

/-! ### Writing -/

/-- Puts `take` bits of a word at a position: those above the `rest` low ones, which come behind
them, or those above the `done` low ones, which have come before. -/
def writeStep? (order : ByteOrder) (value : BitVec 64) (data : Array UInt8)
    (done pos take rest : Nat) : Option (Array UInt8) := do
  let mask ← lowMask? take
  let shift ← pieceShift? order (pos % 8) take
  let part ← shiftRight? value (match order with | .big => rest | .little => done)
  let part := part.setWidth 8 &&& mask
  let byte ← data[pos / 8]?
  let hole ← shiftLeft? mask shift
  let filling ← shiftLeft? part shift
  return data.setIfInBounds (pos / 8) ⟨byte.toBitVec &&& ~~~hole ||| filling⟩

/-- Writes byte by byte: `done` bits of the word are written, `remaining` are to come. -/
def writeLoop? (order : ByteOrder) (value : BitVec 64) (data : Array UInt8)
    (done pos remaining : Nat) : Option (Array UInt8 × Nat) :=
  if remaining = 0 then some (data, pos)
  else do
    let take := min (8 - pos % 8) remaining
    let data ← writeStep? order value data done pos take (remaining - take)
    writeLoop? order value data (done + take) (pos + take) (remaining - take)
termination_by remaining

/-- Writes the `n` low bits of a word, once it is clear that there is room for them. -/
def writeBits? (value : BitVec 64) (n : Nat) (order : ByteOrder) (c : Cursor) :
    Option (EStateM.Result WriteError Cursor Unit) :=
  match c.checkSpan n with
  | .error .badWidth => some (.error .badWidth c)
  | .error _ => some (.error .outOfBounds c)
  | .ok () => do
    let (data, position) ← writeLoop? order value c.data 0 c.position n
    return .ok () ⟨data, position⟩

/-- Whether a run of `n` bits is what is left of a word of which `done` bits are written: its low
bits, or those above the low `done` ones. -/
def IsLeft (order : ByteOrder) (value : BitVec 64) (done n run : Nat) : Prop :=
  match order with
  | .big => ∀ i < n, value.getLsbD i = run.testBit i
  | .little => ∀ i < n, value.getLsbD (done + i) = run.testBit i

/-- A byte in which the bits of a piece are replaced, in words. -/
theorem ofNat_patch {byte : UInt8} {shift size part : Nat} {word : BitVec 8}
    (h : shift + size ≤ 8) (hword : ∀ i < size, word.getLsbD i = part.testBit i) :
    UInt8.ofNat (Piece.patch byte.toNat shift size part) =
      ⟨byte.toBitVec &&& ~~~(BitVec.ofNat 8 (2 ^ size - 1) <<< shift) |||
        (word &&& BitVec.ofNat 8 (2 ^ size - 1)) <<< shift⟩ := by
  apply UInt8.toBitVec_inj.mp
  apply BitVec.eq_of_getLsbD_eq
  intro k hk
  have hpatch : (UInt8.ofNat (Piece.patch byte.toNat shift size part)).toBitVec.getLsbD k =
      (Piece.patch byte.toNat shift size part).testBit k := by
    change (BitVec.ofNat 8 (Piece.patch byte.toNat shift size part)).getLsbD k = _
    rw [BitVec.getLsbD_ofNat, decide_eq_true hk, Bool.true_and]
  have hbyte : byte.toNat.testBit k = byte.toBitVec.getLsbD k := rfl
  rw [hpatch, Piece.testBit_patch, hbyte]
  simp only [BitVec.getLsbD_or, BitVec.getLsbD_and, BitVec.getLsbD_not, BitVec.getLsbD_shiftLeft,
    BitVec.getLsbD_ofNat, Nat.testBit_two_pow_sub_one]
  by_cases hlow : shift ≤ k
  · by_cases hhigh : k < shift + size
    · rw [if_pos ⟨hlow, hhigh⟩, hword (k - shift) (by omega)]
      simp [hk, show ¬ k < shift by omega, show k - shift < 8 by omega,
        show k - shift < size by omega]
    · rw [if_neg (by omega)]
      simp [hk, show ¬ k - shift < size by omega]
  · rw [if_neg (by omega)]
    simp [hk, show k < shift by omega]

theorem writeStep?_eq (order : ByteOrder) (value : BitVec 64) (data : Array UInt8)
    (done pos take rest part : Nat) (hpos : pos / 8 < data.size) (htake : 0 < take)
    (hfit : pos % 8 + take ≤ 8) (hdone : done < 64) (hrest : rest < 64)
    (hpart : ∀ i < take,
      value.getLsbD ((match order with | .big => rest | .little => done) + i) = part.testBit i) :
    writeStep? order value data done pos take rest =
      some (Piece.write order data ⟨pos / 8, pos % 8, take⟩ part) := by
  have hpiece : Piece.shift ⟨pos / 8, pos % 8, take⟩ order + take ≤ 8 := by
    cases order <;> simp only [Piece.shift] <;> omega
  have hdrop : (match order with | .big => rest | .little => done) < 64 := by
    cases order <;> assumption
  have hbyte : data.getD (pos / 8) 0 = data[pos / 8] := by simp [Array.getD, hpos]
  have hword : ∀ i < take,
      ((value >>> (match order with | .big => rest | .little => done)).setWidth 8).getLsbD i =
        part.testBit i := by
    intro i hi
    rw [BitVec.getLsbD_setWidth, BitVec.getLsbD_ushiftRight, hpart i hi]
    simp [show i < 8 by omega]
  unfold writeStep?
  rw [Array.getElem?_eq_getElem hpos, lowMask?_eq (by omega),
    pieceShift?_eq order (pos / 8) hfit, shiftRight?_eq value hdrop]
  simp only [Option.bind_eq_bind, Option.bind_some,
    shiftLeft?_eq _ (show Piece.shift ⟨pos / 8, pos % 8, take⟩ order < 8 by omega)]
  rw [Piece.write, hbyte, ofNat_patch hpiece hword]
  rfl

/-- What is left of the word is put into the run at the position. -/
theorem writeLoop?_eq (order : ByteOrder) (value : BitVec 64) (data : Array UInt8)
    (done pos n run : Nat) (hroom : pos + n ≤ data.size * 8) (hdone : done + n ≤ 64)
    (hrun : IsLeft order value done n run) :
    writeLoop? order value data done pos n =
      some (splitPieces order run data (pieces pos n), pos + n) := by
  -- a piece at a time: `IsLeft` says which bits of the word are still to be written
  induction n using Nat.strongRecOn generalizing data done pos run with
  | ind n ih =>
      rcases Nat.eq_zero_or_pos n with rfl | hn
      · rw [writeLoop?, if_pos rfl, pieces_zero, splitPieces, Nat.add_zero]
      · have hpieces := pieces_eq_cons pos (Nat.ne_of_gt hn)
        rw [writeLoop?, if_neg (Nat.ne_of_gt hn)]
        generalize htake : min (8 - pos % 8) n = take at hpieces ⊢
        have hle : take ≤ n := by omega
        have hstep := fun part => writeStep?_eq order value data done pos take (n - take) part
          (by omega) (by omega) (by omega) (by omega) (by omega)
        have hih := fun part run => ih (n - take) (by omega)
          (Piece.write order data ⟨pos / 8, pos % 8, take⟩ part) (done + take) (pos + take) run
          (by rw [Piece.size_write]; omega) (by omega)
        cases order with
        | big =>
            have hpart : ∀ i < take, value.getLsbD (n - take + i) =
                (run >>> (n - take)).testBit i := by
              intro i hi
              rw [Nat.testBit_shiftRight]
              exact hrun _ (by omega)
            have hrest := hih (run >>> (n - take)) run fun i hi => hrun i (by omega)
            simp only [hstep _ hpart, Option.bind_eq_bind, Option.bind_some, hrest]
            rw [hpieces, splitPieces, total_pieces, Nat.add_assoc, Nat.add_sub_cancel' hle]
        | little =>
            have hrest := hih run (run >>> take) fun i hi => by
              rw [Nat.testBit_shiftRight, Nat.add_assoc]
              exact hrun _ (by omega)
            simp only [hstep run fun i hi => hrun i (by omega), Option.bind_eq_bind,
              Option.bind_some, hrest]
            rw [hpieces, splitPieces, Nat.add_assoc, Nat.add_sub_cancel' hle]

theorem isLeft_all (order : ByteOrder) (value : Nat) {n : Nat} (hn : n ≤ 64) :
    IsLeft order (BitVec.ofNat 64 value) 0 n value := by
  have hbits : ∀ i < n, (BitVec.ofNat 64 value).getLsbD i = value.testBit i := fun i hi => by
    rw [BitVec.getLsbD_ofNat, decide_eq_true (by omega), Bool.true_and]
  cases order with
  | big => exact hbits
  | little => exact fun i hi => by rw [Nat.zero_add, hbits i hi]

theorem writeBits?_eq (value n : Nat) (order : ByteOrder) (c : Cursor) :
    writeBits? (BitVec.ofNat 64 value) n order c = some (writeBits value n order c) := by
  unfold writeBits? writeBits
  cases hspan : c.checkSpan n with
  | error e => cases e <;> rfl
  | ok _ =>
      obtain ⟨-, hle, hroom⟩ := bounds_of_checkSpan hspan
      have hloop := writeLoop?_eq order (BitVec.ofNat 64 value) c.data 0 c.position n value hroom
        (by omega) (isLeft_all order value hle)
      simp only [hloop, Option.bind_eq_bind, Option.bind_some]
      rfl

/-! ### Floating-point numbers -/

/-- The fields of a floating-point word, with what their widths stand for. -/
structure Fields where
  fractionBits : Nat
  negative : Bool
  biased : Nat
  /-- The biased exponent of infinities and of what is no number. -/
  exponentMax : Nat
  fraction : Nat
  bias : Int

/-- The value of a word with the given fields. -/
def Fields.value (x : Fields) : Binary64 :=
  let fraction := (binary64.magnitude (binary64.round (.ofNat x.fraction))).scale (-x.fractionBits)
  .ofNat <| binary64.withSign x.negative <|
    if x.biased = x.exponentMax then
      if x.fraction = 0 then binary64.infinity else binary64.infinity + 1 <<< 51
    else if x.biased = 0 then scaleMagnitude fraction (powerOfTwo (1 - x.bias))
    else
      let significand := binary64.magnitude (binary64.round (fraction.add (.ofNat 1)))
      scaleMagnitude significand (powerOfTwo (x.biased - x.bias))

/-- Takes a word of a type apart. -/
def fields? (t : FloatType) (raw : BitVec 64) : Option Fields := do
  let fractionBits ← sub? t.mantissa 1
  let sign ← shiftRight? raw (← sub? t.length 1)
  let exponentMax ← lowBits? 64 t.exponent
  let biased ← shiftRight? raw fractionBits
  let fraction ← lowBits? 64 fractionBits
  let bias ← lowBits? 64 (← sub? t.exponent 1)
  return ⟨fractionBits, sign &&& 1#64 == 1#64, (biased &&& exponentMax).toNat, exponentMax.toNat,
    (raw &&& fraction).toNat, bias.toInt⟩

theorem toInt_lowBits {n : Nat} (h : n ≤ 62) :
    (BitVec.ofNat 64 (2 ^ n - 1)).toInt = ((1 <<< n : Nat) : Int) - 1 := by
  have hbits := toNat_lowBits (w := 64) (n := n) (by omega)
  have hle : 2 ^ n ≤ 2 ^ 62 := Nat.pow_le_pow_right (by decide) h
  have hpos := Nat.two_pow_pos n
  rw [BitVec.toInt_eq_toNat_of_lt (by omega), hbits, Nat.one_shiftLeft]
  omega

theorem fields?_eq (t : FloatType) {raw : Nat} (h : raw < 2 ^ 64) :
    fields? t (BitVec.ofNat 64 raw) =
      let layout : Format := ⟨t.exponent, t.mantissa - 1 + 1⟩
      some ⟨t.mantissa - 1, layout.isNegative raw, layout.exponentField raw, layout.exponentMax,
        layout.fractionField raw, (1 <<< (t.exponent - 1) : Nat) - 1⟩ := by
  obtain ⟨exponent, mantissa, byteOrder, alignment, hexponent, hmantissa, hlength⟩ := t
  have hraw : (BitVec.ofNat 64 raw).toNat = raw := by rw [BitVec.toNat_ofNat, Nat.mod_eq_of_lt h]
  have hnegative : (BitVec.ofNat 64 raw >>> (exponent + mantissa - 1) &&& 1#64 == 1#64) =
      Format.isNegative ⟨exponent, mantissa - 1 + 1⟩ raw := by
    have hbit := toNat_field (n := 1) (BitVec.ofNat 64 raw) (exponent + mantissa - 1) (by decide)
    have hplace : exponent + mantissa - 1 = mantissa - 1 + 1 - 1 + exponent := by omega
    rw [hraw, hplace] at hbit
    rw [Format.isNegative, Format.fractionBits, Bool.eq_iff_iff, beq_iff_eq, beq_iff_eq,
      ← BitVec.toNat_inj, hplace]
    exact iff_of_eq (congrArg (· = 1) hbit)
  have hbiased := toNat_field (n := exponent) (BitVec.ofNat 64 raw) (mantissa - 1) (by omega)
  have hfraction := toNat_field (n := mantissa - 1) (BitVec.ofNat 64 raw) 0 (by omega)
  rw [hraw] at hbiased hfraction
  rw [BitVec.ushiftRight_zero] at hfraction
  unfold fields? FloatType.length
  simp only [sub?_eq hmantissa, sub?_eq (show 1 ≤ exponent + mantissa by omega),
    sub?_eq (show 1 ≤ exponent by omega), Option.bind_eq_bind, Option.bind_some,
    shiftRight?_eq _ (show exponent + mantissa - 1 < 64 by omega),
    shiftRight?_eq _ (show mantissa - 1 < 64 by omega),
    lowBits?_eq (show exponent < 64 by omega), lowBits?_eq (show mantissa - 1 < 64 by omega),
    lowBits?_eq (show exponent - 1 < 64 by omega), hnegative, hbiased, hfraction,
    toInt_lowBits (show exponent - 1 ≤ 62 by omega)]
  rw [toNat_lowBits (by omega), ← Nat.one_shiftLeft]
  rfl

/-- The value of a word of a type: the standard layouts are those of the machine itself. -/
def decodeFloat? (t : FloatType) (raw : BitVec 64) : Option Binary64 :=
  match t.standard? with
  | some .binary32 => some (.ofBinary32 raw.toNat)
  | some .binary64 => some ⟨raw⟩
  | none => Fields.value <$> fields? t raw

/-- Reads a value at the next position that the type allows. -/
def readFloat? (t : FloatType) (c : Cursor) :
    Option (EStateM.Result ReadError Cursor Binary64) := do
  match ← readBits? t.length t.byteOrder (c.alignTo t.alignment) with
  | .error e c => return .error e c
  | .ok raw c =>
    let value ← decodeFloat? t raw
    return .ok value c

theorem decodeFloat?_eq (t : FloatType) {raw : Nat} (h : raw < 2 ^ 64) :
    decodeFloat? t (BitVec.ofNat 64 raw) = some (t.decode raw) := by
  unfold decodeFloat? FloatType.decode
  cases t.standard? with
  | none =>
      dsimp only
      rw [fields?_eq t h]
      rfl
  | some standard =>
      cases standard with
      | binary32 =>
          dsimp only
          rw [BitVec.toNat_ofNat, Nat.mod_eq_of_lt h]
      | binary64 => rfl

theorem readFloat?_eq (t : FloatType) (c : Cursor) : readFloat? t c = some (t.read c) := by
  unfold readFloat?
  rw [readBits?_eq]
  change _ = some (EStateM.map t.decode (readBits t.length t.byteOrder) (c.alignTo t.alignment))
  unfold EStateM.map
  dsimp only [Option.bind_eq_bind, Option.bind_some]
  cases hread : readBits t.length t.byteOrder (c.alignTo t.alignment) with
  | error e c' => rfl
  | ok raw c' =>
      obtain ⟨-, hle, hraw⟩ := bounds_of_readBits hread
      have hraw : raw < 2 ^ 64 := Nat.lt_of_lt_of_le hraw (Nat.pow_le_pow_right (by decide) hle)
      dsimp only
      rw [decodeFloat?_eq t hraw]
      rfl

end TraceFormat.Words
