import Mathlib.Order.Interval.Set.Defs
import TraceFormat.Proofs.Cursor.Number
import TraceFormat.Proofs.Cursor.Text

/-! # Operations of a cursor are done whole or not at all

A cursor is moved, read from and written to by operations in any order (`CursorOp`), and an
alignment may have carried it beyond the end of its region.  Before an operation does anything, it
is clear whether it can be done there at all (`CursorOp.Proper`) and whether all bits that it needs
lie in the region (`CursorOp.Fits`).  So there are three ways in which it ends (`CursorOp.Ending`):
if one of the two fails, so does the operation, and it leaves the cursor as it was; if both hold,
the operation is done.  Positions have no upper limit here, but with 64 bits for them the bounds are
the same (`Cursor.checkSpan_eq_words`), and so is an alignment as long as its sum fits into the word
(`Cursor.alignTo_eq_words_iff`).

What one operation keeps, a run of operations keeps, and the operations of a run that fail might
as well not be there (`Cursor.after_kept`).  `CursorOp.all_or_nothing` puts this together for every
cursor that a run leads to. -/

namespace TraceFormat

/-- What a cursor is told to do. -/
inductive CursorOp where
  | setPosition (position : Nat)
  | skipBits (n : Nat)
  | alignTo (unit : Nat)
  | readBits (n : Nat) (order : ByteOrder)
  | readInt (n : Nat) (signed : Bool) (order : ByteOrder)
  | readText (limit : Option Nat) (encoding : Encoding)
  | readTextUntil (limit : Option Nat) (encoding : Encoding)
  | writeBits (value n : Nat) (order : ByteOrder)
  | writeInt (value : BitVec 64) (n : Nat) (order : ByteOrder)
  /-- Writes a floating-point number of 32 bits. -/
  | writeSingle (word : BitVec 32) (order : ByteOrder)
  /-- Writes a floating-point number of 64 bits. -/
  | writeDouble (word : BitVec 64) (order : ByteOrder)
  | writeText (text : String)
deriving Repr

/-- Why an operation has failed. -/
inductive CursorError where
  | read (error : ReadError)
  | write (error : WriteError)
deriving DecidableEq, Repr

/-- The error of an action, if it has failed, and the cursor that it leaves behind. -/
def attempt {ε α : Type} (toError : ε → CursorError) (action : EStateM ε Cursor α) (c : Cursor) :
    Option CursorError × Cursor :=
  match action c with
  | .ok _ c' => (none, c')
  | .error e c' => (some (toError e), c')

namespace CursorOp

/-- Does what the cursor is told. -/
def perform : CursorOp → Cursor → Option CursorError × Cursor
  | setPosition position => attempt .read (TraceFormat.setPosition position)
  | skipBits n => attempt .read (TraceFormat.skipBits n)
  | alignTo unit => attempt .read (TraceFormat.alignTo unit)
  | readBits n order => attempt .read (TraceFormat.readBits n order)
  | readInt n signed order => attempt .read (TraceFormat.readInt n signed order)
  | readText limit encoding => attempt .read (TraceFormat.readText limit encoding)
  | readTextUntil limit encoding => attempt .read (TraceFormat.readTextUntil limit encoding)
  | writeBits value n order => attempt .write (TraceFormat.writeBits value n order)
  | writeInt value n order => attempt .write (TraceFormat.writeInt value n order)
  | writeSingle word order => attempt .write (TraceFormat.writeBits word.toNat 32 order)
  | writeDouble word order => attempt .write (TraceFormat.writeBits word.toNat 64 order)
  | writeText text => attempt .write (TraceFormat.writeText text)

/-- Whether an operation puts something into the region. -/
def writes : CursorOp → Bool
  | writeBits _ _ _ | writeInt _ _ _ | writeSingle _ _ | writeDouble _ _ | writeText _ => true
  | _ => false

/-- The number of bits that an operation passes, where the operation itself says it. -/
def width? : CursorOp → Option Nat
  | skipBits n | readBits n _ | readInt n _ _ | writeBits _ n _ | writeInt _ n _ => some n
  | writeSingle _ _ => some 32
  | writeDouble _ _ => some 64
  | _ => none

/-- The positions of the bits that an operation cannot do without: those that it passes, of a text
that is read the first byte, and those before a position that is set. -/
def needs (c : Cursor) : CursorOp → Set Nat
  | setPosition position => Set.Iio position
  | alignTo _ => ∅
  | readText _ _ | readTextUntil _ _ => Set.Ico c.position (c.position + 8)
  | writeText text =>
    Set.Ico c.position (c.position + ((Text.Utf8.encode text).length + 1) * 8)
  | skipBits n | readBits n _ | readInt n _ _ | writeBits _ n _ | writeInt _ n _ =>
    Set.Ico c.position (c.position + n)
  | writeSingle _ _ => Set.Ico c.position (c.position + 32)
  | writeDouble _ _ => Set.Ico c.position (c.position + 64)

/-- Whether nothing but the end of the region can stand in the way of an operation. -/
def Proper (c : Cursor) : CursorOp → Prop
  | setPosition _ | skipBits _ | alignTo _ => True
  | readBits n _ | readInt n _ _ | writeBits _ n _ | writeInt _ n _ => 0 < n ∧ n ≤ 64
  | writeSingle _ _ | writeDouble _ _ => True
  | readText _ _ | readTextUntil _ _ => c.position % 8 = 0
  | writeText text => c.position % 8 = 0 ∧ '\x00' ∉ text.toList

/-- Whether all bits that an operation needs lie in the region. -/
def Fits (c : Cursor) (op : CursorOp) : Prop := ∀ q ∈ op.needs c, q < c.capacity

/-- The error of an operation for which the region is too short. -/
def outOfBounds (op : CursorOp) : CursorError :=
  if op.writes then .write .outOfBounds else .read .outOfBounds

/-- The ways in which an operation can end. -/
inductive Ending (op : CursorOp) (c : Cursor) : Option CursorError × Cursor → Prop
  | improper {e : CursorError} : ¬ op.Proper c → e ≠ op.outOfBounds → Ending op c (some e, c)
  | beyond : op.Proper c → ¬ op.Fits c → Ending op c (some op.outOfBounds, c)
  | done {data : Array UInt8} {position : Nat} : op.Proper c → op.Fits c →
      data.size = c.data.size → (op.writes = false → data = c.data) →
      (∀ n, op.width? = some n → position = c.position + n) → Ending op c (none, ⟨data, position⟩)

variable {op : CursorOp} {c : Cursor}

/-! ### The end of an operation -/

theorem forall_mem_Ico_lt_iff {s n k : Nat} :
    (∀ q ∈ Set.Ico s (s + n), q < k) ↔ n = 0 ∨ s + n ≤ k := by
  constructor
  · intro h
    rcases Nat.eq_zero_or_pos n with hn | hn
    · exact .inl hn
    · have := h (s + n - 1) ⟨by omega, by omega⟩
      omega
  · rintro (rfl | h) q ⟨hle, hlt⟩ <;> omega

theorem fits_iff_of_needs {n : Nat} (h : op.needs c = Set.Ico c.position (c.position + n)) :
    op.Fits c ↔ n = 0 ∨ c.position + n ≤ c.capacity := by
  rw [Fits, h, forall_mem_Ico_lt_iff]

/-- What is left of an operation once nothing but the end of the region is in question. -/
theorem Ending.bounded {tooFar : Prop} [Decidable tooFar] {data : Array UInt8} {position : Nat}
    (hproper : op.Proper c) (hfits : op.Fits c ↔ ¬ tooFar)
    (hsize : ¬ tooFar → data.size = c.data.size) (hdata : op.writes = false → data = c.data)
    (hwidth : ∀ n, op.width? = some n → position = c.position + n) :
    Ending op c (if tooFar then (some op.outOfBounds, c) else (none, ⟨data, position⟩)) := by
  split
  next h => exact .beyond hproper fun hf => hfits.mp hf h
  next h => exact .done hproper (hfits.mpr h) (hsize h) hdata hwidth

/-- A run of bits is refused for its width, and else only for its end. -/
theorem Ending.span {n : Nat} {bad : CursorError} {data : Array UInt8}
    (hproper : op.Proper c ↔ 0 < n ∧ n ≤ 64)
    (hneeds : op.needs c = Set.Ico c.position (c.position + n)) (hwidth : op.width? = some n)
    (hbad : bad ≠ op.outOfBounds) (hsize : data.size = c.data.size)
    (hdata : op.writes = false → data = c.data) :
    Ending op c
      (if n = 0 ∨ 64 < n then (some bad, c)
      else if c.capacity < c.position + n then (some op.outOfBounds, c)
      else (none, ⟨data, c.position + n⟩)) := by
  have hfits := fits_iff_of_needs hneeds
  split
  next h => exact .improper (fun hp => by have := hproper.mp hp; omega) hbad
  next h =>
    refine .bounded (hproper.mpr (by omega)) (hfits.trans (by omega)) (fun _ => hsize) hdata
      fun m hm => ?_
    rw [← Option.some.inj (hwidth.symm.trans hm)]

theorem byte_fits_iff (hneeds : op.needs c = Set.Ico c.position (c.position + 8))
    (haligned : c.position % 8 = 0) : op.Fits c ↔ ¬ c.data.size ≤ c.position / 8 := by
  rw [fits_iff_of_needs hneeds, Cursor.capacity]
  omega

theorem attempt_map {ε α β : Type} (toError : ε → CursorError) (f : α → β)
    (action : EStateM ε Cursor α) :
    attempt toError (f <$> action) c = attempt toError action c := by
  simp only [attempt, Functor.map, EStateM.map]
  cases action c <;> rfl

theorem attempt_setPosition (position : Nat) :
    attempt .read (TraceFormat.setPosition position) c =
      if c.capacity < position then (some (.read .outOfBounds), c)
      else (none, ⟨c.data, position⟩) := by
  rw [attempt, TraceFormat.setPosition]
  split_ifs <;> rfl

theorem attempt_skipBits (n : Nat) :
    attempt .read (TraceFormat.skipBits n) c =
      if c.remaining < n then (some (.read .outOfBounds), c)
      else (none, ⟨c.data, c.position + n⟩) := by
  rw [attempt, TraceFormat.skipBits]
  split_ifs <;> rfl

theorem attempt_readBits (n : Nat) (order : ByteOrder) :
    attempt .read (TraceFormat.readBits n order) c =
      if n = 0 ∨ 64 < n then (some (.read .badWidth), c)
      else if c.capacity < c.position + n then (some (.read .outOfBounds), c)
      else (none, ⟨c.data, c.position + n⟩) := by
  obtain ⟨data, p⟩ := c
  rw [attempt, readBits_apply, Cursor.capacity]
  split_ifs <;> rfl

theorem attempt_writeBits (value n : Nat) (order : ByteOrder) :
    attempt .write (TraceFormat.writeBits value n order) c =
      if n = 0 ∨ 64 < n then (some (.write .badWidth), c)
      else if c.capacity < c.position + n then (some (.write .outOfBounds), c)
      else (none, ⟨splitPieces order value c.data (pieces c.position n), c.position + n⟩) := by
  obtain ⟨data, p⟩ := c
  rw [attempt, writeBits_apply, Cursor.capacity]
  split_ifs <;> rfl

theorem attempt_readTextUntil (limit : Option Nat) (encoding : Encoding) :
    attempt .read (TraceFormat.readTextUntil limit encoding) c =
      if c.position % 8 ≠ 0 then (some (.read .unaligned), c)
      else if c.data.size ≤ c.position / 8 then (some (.read .outOfBounds), c)
      else
        (none, ⟨c.data, c.position +
          (TextSpan.ofBytes limit (c.data.toList.drop (c.position / 8))).length * 8⟩) := by
  rw [attempt, TraceFormat.readTextUntil]
  split_ifs <;> rfl

theorem attempt_writeText (text : String) :
    attempt .write (TraceFormat.writeText text) c =
      if c.position % 8 ≠ 0 then (some (.write .unaligned), c)
      else if (Text.Utf8.encode text).contains 0 then (some (.write .invalidValue), c)
      else if c.data.size < c.position / 8 + (Text.Utf8.encode text).length + 1 then
        (some (.write .outOfBounds), c)
      else
        (none, ⟨overwrite c.data (c.position / 8) (Text.Utf8.encode text ++ [0]),
          (c.position / 8 + (Text.Utf8.encode text).length + 1) * 8⟩) := by
  rw [attempt, TraceFormat.writeText]
  split_ifs <;> rfl

theorem ending_setPosition (position : Nat) :
    Ending (setPosition position) c ((setPosition position).perform c) := by
  have hfits : (setPosition position).Fits c ↔ ¬ c.capacity < position := by
    constructor
    · intro h hlt
      exact Nat.lt_irrefl _ (h c.capacity hlt)
    · exact fun h q (hq : q < position) => by omega
  rw [perform, attempt_setPosition]
  exact .bounded trivial hfits (fun _ => rfl) (fun _ => rfl) (by rintro _ ⟨⟩)

theorem ending_skipBits (n : Nat) : Ending (skipBits n) c ((skipBits n).perform c) := by
  have hfits : (skipBits n).Fits c ↔ ¬ c.remaining < n := by
    rw [fits_iff_of_needs rfl, Cursor.remaining]
    omega
  rw [perform, attempt_skipBits]
  exact .bounded trivial hfits (fun _ => rfl) (fun _ => rfl) (by rintro _ ⟨⟩; rfl)

theorem ending_readTextUntil (limit : Option Nat) (encoding : Encoding)
    (hop : op = readText limit encoding ∨ op = readTextUntil limit encoding) :
    Ending op c (attempt .read (TraceFormat.readTextUntil limit encoding) c) := by
  have hproper : op.Proper c ↔ c.position % 8 = 0 := by rcases hop with rfl | rfl <;> rfl
  have hneeds : op.needs c = Set.Ico c.position (c.position + 8) := by
    rcases hop with rfl | rfl <;> rfl
  have herror : op.outOfBounds = .read .outOfBounds := by rcases hop with rfl | rfl <;> rfl
  have hwidth : op.width? = none := by rcases hop with rfl | rfl <;> rfl
  rw [attempt_readTextUntil, ← herror]
  split
  next h => exact .improper (fun hp => h (hproper.mp hp)) (by rw [herror]; simp)
  next h =>
    have haligned : c.position % 8 = 0 := not_not.mp h
    exact .bounded (hproper.mpr haligned) (byte_fits_iff hneeds haligned) (fun _ => rfl)
      (fun _ => rfl) (by rw [hwidth]; rintro _ ⟨⟩)

theorem ending_writeText (text : String) :
    Ending (writeText text) c ((writeText text).perform c) := by
  rw [perform, attempt_writeText]
  split
  next h => exact .improper (fun hp => h hp.1) (by rintro ⟨⟩)
  next h =>
    have haligned : c.position % 8 = 0 := not_not.mp h
    have hzero : (Text.Utf8.encode text).contains 0 = true ↔ '\x00' ∈ text.toList := by
      rw [List.contains_eq_mem, decide_eq_true_eq, Text.Utf8.zero_mem_encode]
    split
    next hnul => exact .improper (fun hp => hp.2 (hzero.mp hnul)) (by rintro ⟨⟩)
    next hnul =>
      have hfits : (writeText text).Fits c ↔
          ¬ c.data.size < c.position / 8 + (Text.Utf8.encode text).length + 1 := by
        rw [fits_iff_of_needs rfl, Cursor.capacity]
        omega
      refine .bounded ⟨haligned, fun h => hnul (hzero.mpr h)⟩ hfits (fun hle => size_overwrite ?_)
        (by rintro ⟨⟩) (by rintro _ ⟨⟩)
      rw [List.length_append, List.length_singleton]
      omega

/-- However an operation ends, it ends in one of the three ways. -/
theorem ending_perform (op : CursorOp) (c : Cursor) : Ending op c (op.perform c) := by
  cases op with
  | setPosition position => exact ending_setPosition position
  | skipBits n => exact ending_skipBits n
  | alignTo unit =>
      exact .done trivial (by rintro _ ⟨⟩) rfl (fun _ => rfl) (by rintro _ ⟨⟩)
  | readBits n order =>
      rw [perform, attempt_readBits]
      exact .span .rfl rfl rfl (by rintro ⟨⟩) rfl fun _ => rfl
  | readInt n signed order =>
      rw [perform, TraceFormat.readInt, attempt_map, attempt_readBits]
      exact .span .rfl rfl rfl (by rintro ⟨⟩) rfl fun _ => rfl
  | readText limit encoding =>
      rw [perform, TraceFormat.readText, attempt_map]
      exact ending_readTextUntil limit encoding (.inl rfl)
  | readTextUntil limit encoding => exact ending_readTextUntil limit encoding (.inr rfl)
  | writeBits value n order =>
      rw [perform, attempt_writeBits]
      exact .span .rfl rfl rfl (by rintro ⟨⟩) (size_splitPieces ..) (by rintro ⟨⟩)
  | writeInt value n order =>
      rw [perform, TraceFormat.writeInt, attempt_writeBits]
      exact .span .rfl rfl rfl (by rintro ⟨⟩) (size_splitPieces ..) (by rintro ⟨⟩)
  | writeSingle word order =>
      rw [perform, attempt_writeBits]
      exact .span (by simp [Proper]) rfl rfl (by rintro ⟨⟩) (size_splitPieces ..) (by rintro ⟨⟩)
  | writeDouble word order =>
      rw [perform, attempt_writeBits]
      exact .span (by simp [Proper]) rfl rfl (by rintro ⟨⟩) (size_splitPieces ..) (by rintro ⟨⟩)
  | writeText text => exact ending_writeText text

end CursorOp

/-! ### Bounds in words -/

/-- The bounds of a run of bits are the same where a sum that needs more than 64 bits is refused
for that. -/
theorem Cursor.checkSpan_eq_words {c : Cursor} {n : Nat} (hposition : c.position < 2 ^ 64)
    (hcapacity : c.capacity < 2 ^ 64) :
    c.checkSpan n =
      if n = 0 ∨ 64 < n then .error .badWidth
      else if (BitVec.ofNat 64 c.position).uaddOverflow (BitVec.ofNat 64 n) ∨
          c.capacity < (BitVec.ofNat 64 c.position + BitVec.ofNat 64 n).toNat then
        .error .outOfBounds
      else .ok () := by
  unfold checkSpan
  split
  next => rfl
  next hn =>
    have hn' : n < 2 ^ 64 := by omega
    -- a sum that overflows is beyond the region in any case
    simp only [BitVec.uaddOverflow, BitVec.toNat_add, BitVec.toNat_ofNat,
      Nat.mod_eq_of_lt hposition, Nat.mod_eq_of_lt hn', ge_iff_le, decide_eq_true_eq]
    congr 1
    rw [eq_iff_iff]
    omega

/-- Aligns a position that is a word, by what its remainder leaves to the unit. -/
def alignWord (position unit : BitVec 64) : BitVec 64 :=
  if unit ≤ 1 ∨ position % unit = 0 then position else position + (unit - position % unit)

theorem alignUp_eq_ite (position unit : Nat) :
    alignUp position unit =
      if unit ≤ 1 ∨ position % unit = 0 then position else position + (unit - position % unit) := by
  split
  next h =>
    rcases h with hunit | hzero
    · exact alignUp_of_le_one hunit position
    · rw [alignUp, hzero, Nat.sub_zero, Nat.mod_self, Nat.add_zero]
  next h =>
    rw [not_or] at h
    rw [alignUp, Nat.mod_eq_of_lt (by omega : unit - position % unit < unit)]

/-- Beyond its greatest number a word comes round to zero. -/
theorem toNat_alignWord (position unit : BitVec 64) :
    (alignWord position unit).toNat = alignUp position.toNat unit.toNat % 2 ^ 64 := by
  have hrem : (position % unit).toNat = position.toNat % unit.toNat := BitVec.toNat_umod
  have hstays : (unit ≤ 1 ∨ position % unit = 0) ↔
      (unit.toNat ≤ 1 ∨ position.toNat % unit.toNat = 0) := by
    rw [← hrem, BitVec.le_def, ← BitVec.toNat_inj]
    rfl
  rw [alignWord, alignUp_eq_ite]
  split_ifs with hword hnat hnat
  · exact (Nat.mod_eq_of_lt position.isLt).symm
  · exact absurd (hstays.mp hword) hnat
  · exact absurd (hstays.mpr hnat) hword
  · have hlt : position.toNat % unit.toNat < unit.toNat := Nat.mod_lt _ (by omega)
    rw [BitVec.toNat_add, BitVec.toNat_sub_of_le (by rw [BitVec.le_def, hrem]; omega), hrem]

/-- An alignment in words ends at the same position exactly if this is less than `2 ^ 64`; beyond
that the sum does not fit. -/
theorem Cursor.alignTo_eq_words_iff {c : Cursor} {unit : Nat} (hposition : c.position < 2 ^ 64)
    (hunit : unit < 2 ^ 64) :
    (alignWord (BitVec.ofNat 64 c.position) (BitVec.ofNat 64 unit)).toNat =
        (c.alignTo unit).position ↔
      (c.alignTo unit).position < 2 ^ 64 := by
  rw [toNat_alignWord, BitVec.toNat_ofNat, BitVec.toNat_ofNat, Nat.mod_eq_of_lt hposition,
    Nat.mod_eq_of_lt hunit, alignTo, Nat.mod_eq_iff_lt (by decide)]

/-! ### Runs of operations -/

namespace Cursor

/-- The cursor after some operations, whether or not they have failed. -/
def after (c : Cursor) (ops : List CursorOp) : Cursor := ops.foldl (fun c op => (op.perform c).2) c

/-- Those of some operations that do not fail. -/
def kept : Cursor → List CursorOp → List CursorOp
  | _, [] => []
  | c, op :: ops =>
    if (op.perform c).1 = none then op :: kept (op.perform c).2 ops else kept (op.perform c).2 ops

variable {c : Cursor} {ops : List CursorOp}

@[simp] theorem after_nil : c.after [] = c := rfl

@[simp] theorem after_cons (op : CursorOp) :
    c.after (op :: ops) = ((op.perform c).2).after ops := rfl

end Cursor

/-- What it means for an operation to be done whole or not at all. -/
structure CursorOp.AllOrNothing (op : CursorOp) (c : Cursor) : Prop where
  eq_of_error : (op.perform c).1 ≠ none → (op.perform c).2 = c
  data_eq : op.writes = false → (op.perform c).2.data = c.data
  size_eq : (op.perform c).2.data.size = c.data.size
  passes : (op.perform c).1 = none →
    ∀ n, op.width? = some n → (op.perform c).2.position = c.position + n
  succeeds_iff : (op.perform c).1 = none ↔ op.Proper c ∧ op.Fits c
  outOfBounds_iff : (op.perform c).1 = some op.outOfBounds ↔ op.Proper c ∧ ¬ op.Fits c

theorem CursorOp.allOrNothing_perform (op : CursorOp) (c : Cursor) : op.AllOrNothing c := by
  have h := ending_perform op c
  generalize hr : op.perform c = r at h
  cases h with
  | improper hp he =>
      constructor <;> simp [hr, hp, he]
  | beyond hp hf =>
      constructor <;> simp [hr, hp, hf]
  | done hp hf hsize hdata hwidth =>
      constructor <;> simp [hr, hp, hf, hsize]
      · exact hdata
      · exact hwidth

namespace Cursor

variable {c : Cursor} {ops : List CursorOp}

theorem size_after (c : Cursor) (ops : List CursorOp) :
    (c.after ops).data.size = c.data.size := by
  induction ops generalizing c with
  | nil => rfl
  | cons op ops ih => rw [after_cons, ih, (op.allOrNothing_perform c).size_eq]

theorem data_after (h : ∀ op ∈ ops, op.writes = false) : (c.after ops).data = c.data := by
  induction ops generalizing c with
  | nil => rfl
  | cons op ops ih =>
      rw [after_cons, ih fun o ho => h o (List.mem_cons_of_mem _ ho),
        (op.allOrNothing_perform c).data_eq (h op List.mem_cons_self)]

theorem after_kept (c : Cursor) (ops : List CursorOp) : c.after (c.kept ops) = c.after ops := by
  induction ops generalizing c with
  | nil => rfl
  | cons op ops ih =>
      rw [kept, after_cons]
      split
      next => rw [after_cons, ih]
      next hfail => rw [(op.allOrNothing_perform c).eq_of_error hfail, ih]

end Cursor

/-- After any operations on any cursor, every further operation is done whole or not at all; the
operations before it have kept the length of the region, have kept the region where none of them
writes, and come to what those of them come to that have not failed. -/
theorem CursorOp.all_or_nothing (c : Cursor) (ops : List CursorOp) (op : CursorOp) :
    op.AllOrNothing (c.after ops) ∧ (c.after ops).data.size = c.data.size ∧
      ((∀ o ∈ ops, o.writes = false) → (c.after ops).data = c.data) ∧
      c.after (c.kept ops) = c.after ops :=
  ⟨op.allOrNothing_perform _, Cursor.size_after c ops, Cursor.data_after, Cursor.after_kept c ops⟩

end TraceFormat
