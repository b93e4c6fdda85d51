import Mathlib.Algebra.BigOperators.Group.List.Basic
import TraceFormat.Proofs.Cursor.Numbering

/-! # Fields packed side by side

Bit fields that lie one right behind the other share bytes, and a field is written by patching the
bytes that it meets.  Two fields of one byte order never have a bit in common.  Two of different
orders do not number the bits of a byte alike, so they have none in common only if a byte ends
between them (`BitField.not_covered`).

Where this holds of all neighbours (`BitField.Joined`) each field keeps what has been written to it
whatever is written behind it, and no bit changes but those of the fields
(`BitField.write_read_packed`). -/

namespace TraceFormat

theorem bind_apply_of_ok {ε σ α β : Type} {x : EStateM ε σ α} {f : α → EStateM ε σ β} {s t : σ}
    {a : α} (h : x s = .ok a t) : (x >>= f) s = f a t := by
  simp only [bind, EStateM.bind, h]

/-- A number for a run of bits. -/
structure BitField where
  value : Nat
  width : Nat
  order : ByteOrder
  width_pos : 0 < width
  width_le : width ≤ 64

namespace BitField

/-- Writes the low bits of the number. -/
def write (f : BitField) : WriteM Unit := writeBits f.value f.width f.order

/-- Reads the run of bits. -/
def read (f : BitField) : ReadM Nat := readBits f.width f.order

/-- Writes fields one after the other. -/
def writeAll : List BitField → WriteM Unit
  | [] => pure ()
  | f :: fs => do
    f.write
    writeAll fs

/-- Reads fields one after the other. -/
def readAll : List BitField → ReadM (List Nat)
  | [] => pure []
  | f :: fs => do
    let value ← f.read
    let values ← readAll fs
    return value :: values

/-- What is left of the number in its run. -/
def stored (f : BitField) : Nat := f.value % 2 ^ f.width

/-- The number of bits of some fields. -/
def total (fs : List BitField) : Nat := (fs.map width).sum

/-- Whether fields side by side from `p` on are of one byte order or meet where a byte ends. -/
def Joined : (p : Nat) → List BitField → Prop
  | p, f :: g :: fs =>
    (f.order = g.order ∨ (p + f.width) % 8 = 0) ∧ Joined (p + f.width) (g :: fs)
  | _, _ => True

/-- Whether a field at `p` has bit `k` of byte `j`. -/
def Covers (f : BitField) (p j k : Nat) : Prop :=
  p ≤ f.order.position j k ∧ f.order.position j k < p + f.width

/-- Whether one of the fields side by side from `p` on has bit `k` of byte `j`. -/
def Covered : (p : Nat) → List BitField → (j k : Nat) → Prop
  | _, [], _, _ => False
  | p, f :: fs, j, k => f.Covers p j k ∨ Covered (p + f.width) fs j k

/-- A region in which fields are written side by side from `p` on. -/
def put : (p : Nat) → List BitField → Array UInt8 → Array UInt8
  | _, [], data => data
  | p, f :: fs, data =>
    put (p + f.width) fs (splitPieces f.order f.value data (pieces p f.width))

/-! ### Fields have no bits in common -/

theorem joined_cons {p : Nat} {f : BitField} {fs : List BitField} :
    Joined p (f :: fs) ↔
      (∀ g ∈ fs.head?, f.order = g.order ∨ (p + f.width) % 8 = 0) ∧ Joined (p + f.width) fs := by
  cases fs <;> simp [Joined]

/-- A bit that one order has before the end of a byte, another order has there too. -/
theorem position_lt_of_byte {order other : ByteOrder} {p j k : Nat} (hk : k < 8) (hbyte : p % 8 = 0)
    (h : order.position j k < p) : other.position j k < p := by
  cases order <;> cases other <;> simp only [ByteOrder.position] at h ⊢ <;> omega

/-- A bit before some fields, in the order of what they follow, belongs to none of them. -/
theorem not_covered {order : ByteOrder} {fs : List BitField} {p j k : Nat} (hk : k < 8)
    (hmeet : ∀ g ∈ fs.head?, order = g.order ∨ p % 8 = 0) (hjoin : Joined p fs)
    (h : order.position j k < p) : ¬ Covered p fs j k := by
  induction fs generalizing p order with
  | nil => exact not_false
  | cons f fs ih =>
      obtain ⟨hnext, hrest⟩ := joined_cons.mp hjoin
      have hbefore : f.order.position j k < p := by
        rcases hmeet f rfl with rfl | hbyte
        · exact h
        · exact position_lt_of_byte hk hbyte h
      rintro (hcover | hcovered)
      · exact absurd hcover.1 (Nat.not_le.mpr hbefore)
      · exact ih hnext hrest (by omega) hcovered

theorem not_covered_of_covers {f : BitField} {fs : List BitField} {p j k : Nat} (hk : k < 8)
    (hjoin : Joined p (f :: fs)) (h : f.Covers p j k) : ¬ Covered (p + f.width) fs j k := by
  obtain ⟨hnext, hrest⟩ := joined_cons.mp hjoin
  exact not_covered hk hnext hrest h.2

/-! ### Writing -/

theorem total_cons (f : BitField) (fs : List BitField) : total (f :: fs) = f.width + total fs := by
  rw [total, List.map_cons, List.sum_cons, total]

theorem size_put (p : Nat) (fs : List BitField) (data : Array UInt8) :
    (put p fs data).size = data.size := by
  induction fs generalizing p data with
  | nil => rfl
  | cons f fs ih => rw [put, ih, size_splitPieces]

theorem write_apply (f : BitField) {data : Array UInt8} {p : Nat}
    (hroom : p + f.width ≤ data.size * 8) :
    f.write ⟨data, p⟩ =
      .ok () ⟨splitPieces f.order f.value data (pieces p f.width), p + f.width⟩ := by
  have hpos := f.width_pos
  have hle := f.width_le
  rw [write, writeBits_apply, if_neg (by omega), if_neg (by omega)]

theorem writeAll_apply {fs : List BitField} {data : Array UInt8} {p : Nat}
    (hroom : p + total fs ≤ data.size * 8) :
    writeAll fs ⟨data, p⟩ = .ok () ⟨put p fs data, p + total fs⟩ := by
  induction fs generalizing data p with
  | nil => rfl
  | cons f fs ih =>
      rw [total_cons] at hroom ⊢
      have hrest : p + f.width + total fs ≤
          (splitPieces f.order f.value data (pieces p f.width)).size * 8 := by
        rw [size_splitPieces]
        omega
      rw [writeAll, bind_apply_of_ok (f.write_apply (by omega)), ih hrest, put, Nat.add_assoc]

theorem bitAt_put {fs : List BitField} {data : Array UInt8} {p j k : Nat} (hk : k < 8)
    (hroom : p + total fs ≤ data.size * 8) (h : ¬ Covered p fs j k) :
    bitAt (put p fs data) j k = bitAt data j k := by
  induction fs generalizing data p with
  | nil => rfl
  | cons f fs ih =>
      rw [total_cons] at hroom
      rw [Covered, Covers, not_or] at h
      rw [put, ih (by rw [size_splitPieces]; omega) h.2,
        bitAt_splitPieces f.order f.value (by omega) j hk, if_neg h.1]

/-! ### Reading back -/

theorem covers_place (f : BitField) (p : Nat) {i : Nat} (hi : i < f.width) :
    f.Covers p ((p + i) / 8) (f.order.place (p + i)) := by
  rw [Covers, f.order.position_place]
  omega

/-- The run of a field holds what has been written to it, whatever has been written behind it. -/
theorem joinPieces_put {f : BitField} {fs : List BitField} {data : Array UInt8} {p : Nat}
    (hroom : p + total (f :: fs) ≤ data.size * 8) (hjoin : Joined p (f :: fs)) :
    joinPieces f.order (put p (f :: fs) data) (pieces p f.width) = f.stored := by
  rw [total_cons] at hroom
  rw [stored, ← joinPieces_splitPieces f.order f.value (by omega : p + f.width ≤ data.size * 8), put]
  refine joinPieces_congr f.order fun i hi => ?_
  have hk := f.order.place_lt (p + i)
  exact bitAt_put hk (by rw [size_splitPieces]; omega)
    (not_covered_of_covers hk hjoin (f.covers_place p hi))

theorem readAll_put {fs : List BitField} {data : Array UInt8} {p : Nat}
    (hroom : p + total fs ≤ data.size * 8) (hjoin : Joined p fs) :
    readAll fs ⟨put p fs data, p⟩ = .ok (fs.map stored) ⟨put p fs data, p + total fs⟩ := by
  induction fs generalizing data p with
  | nil => rfl
  | cons f fs ih =>
      have hvalue := joinPieces_put hroom hjoin
      rw [total_cons] at hroom ⊢
      have hread : f.read ⟨put p (f :: fs) data, p⟩ =
          .ok f.stored ⟨put p (f :: fs) data, p + f.width⟩ := by
        rw [read, readBits_of_room _ f.order f.width_pos f.width_le
          (by rw [size_put]; omega), hvalue]
      have hrest : p + f.width + total fs ≤
          (splitPieces f.order f.value data (pieces p f.width)).size * 8 := by
        rw [size_splitPieces]
        omega
      rw [put] at hread ⊢
      rw [readAll, bind_apply_of_ok hread, bind_apply_of_ok (ih hrest (joined_cons.mp hjoin).2),
        Nat.add_assoc]
      rfl

/-- Fields side by side that fit into a region are all written, and then read back from where they
begin: each gives the low bits of its number, and the cursor ends where it ended before.  Every bit
that belongs to none of the fields keeps its value. -/
theorem write_read_packed (fs : List BitField) (data : Array UInt8) (p : Nat)
    (hroom : p + total fs ≤ data.size * 8) (hjoin : Joined p fs) :
    ∃ data', writeAll fs ⟨data, p⟩ = .ok () ⟨data', p + total fs⟩ ∧
      (setPosition p >>= fun _ => readAll fs) ⟨data', p + total fs⟩ =
        .ok (fs.map fun f => f.value % 2 ^ f.width) ⟨data', p + total fs⟩ ∧
      data'.size = data.size ∧
      ∀ j, ∀ k < 8, ¬ Covered p fs j k → bitAt data' j k = bitAt data j k := by
  refine ⟨put p fs data, writeAll_apply hroom, ?_, size_put p fs data,
    fun j k hk h => bitAt_put hk hroom h⟩
  have hback : setPosition p ⟨put p fs data, p + total fs⟩ = .ok () ⟨put p fs data, p⟩ := by
    rw [setPosition, Cursor.capacity, size_put, if_neg (by omega)]
  rw [bind_apply_of_ok hback, readAll_put hroom hjoin]
  rfl

-- Inside a byte two orders begin at opposite ends, and the second field is put over the first.
example : put 0 [⟨15, 4, .big, by decide, by decide⟩, ⟨0, 4, .little, by decide, by decide⟩] #[0] =
    #[0] := by
  cbv

/-- Two big-endian fields that share a byte, and a little-endian one from the next byte on that cuts
its number off and leaves a bit of its byte alone. -/
theorem write_read_packed_mixed :
    let fs : List BitField := [⟨5, 3, .big, by decide, by decide⟩,
      ⟨300, 11, .big, by decide, by decide⟩, ⟨1000, 7, .little, by decide, by decide⟩]
    let data : Array UInt8 := #[0xff, 0xff, 0xff]
    2 + total fs ≤ data.size * 8 ∧ Joined 2 fs ∧
      ∃ data', writeAll fs ⟨data, 2⟩ = .ok () ⟨data', 23⟩ ∧
        (setPosition 2 >>= fun _ => readAll fs) ⟨data', 23⟩ = .ok [5, 300, 104] ⟨data', 23⟩ ∧
        bitAt data' 2 7 = true := by
  intro fs data
  have hroom : 2 + total fs ≤ data.size * 8 := by decide
  have hjoin : Joined 2 fs := ⟨.inl rfl, .inr rfl, trivial⟩
  have hother : ¬ Covered 2 fs 2 7 := by
    simp [fs, Covered, Covers, ByteOrder.position]
  obtain ⟨data', hwrite, hread, -, hkeep⟩ := write_read_packed fs data 2 hroom hjoin
  exact ⟨hroom, hjoin, data', hwrite, hread,
    (hkeep 2 7 (by decide) hother).trans (by decide)⟩

end BitField

end TraceFormat
