import TraceFormat.Definition.Write
import TraceFormat.Proofs.Cursor.Number
import TraceFormat.Proofs.Cursor.Text
import TraceFormat.Proofs.Decode.Consumed

/-! # What a write changes

What a write does to a region does not depend on what the region holds.  Its size and the position
at which the write starts settle everything (`Course`): which bits are set and to which values, where
the write stops, and whether it fails there.  A value has such a course in every region
(`Definition.course`), the actions of a write take theirs one after the other (`Takes.andThen`), and
writing the value takes the course of the value (`Definition.takes_write`).

So two regions of one size end alike, but for the bits that are not set, and no byte changes but
those from the start to the place where the write stops (`Definition.write_footprint`).  This holds
of a write that fails as well: what was set before the failure stays, and the field that could not
be written sets nothing. -/

namespace TraceFormat

/-- What a write does to a region. -/
structure Course where
  /-- The value that bit `k` of byte `j` is set to, if it is set. -/
  mark : (j k : Nat) → Option Bool
  /-- The position of the cursor in the end. -/
  stop : Nat
  /-- Why the write has failed, if it has. -/
  error : Option WriteError

namespace Course

/-- A course that sets nothing. -/
def still (stop : Nat) (error : Option WriteError) : Course := ⟨fun _ _ => none, stop, error⟩

def align (unit s : Nat) : Course := still (alignUp s unit) none

def bits (size value n : Nat) (order : ByteOrder) (s : Nat) : Course :=
  if n = 0 ∨ 64 < n then still s (some .badWidth)
  else if size * 8 < s + n then still s (some .outOfBounds)
  else
    { mark j k :=
        if k < 8 ∧ s ≤ order.position j k ∧ order.position j k < s + n then
          some (value.testBit (order.weight n (order.position j k - s)))
        else none
      stop := s + n
      error := none }

/-- The course of a text and its NUL. -/
def text (size : Nat) (value : String) (s : Nat) : Course :=
  let bytes := Text.Utf8.encode value
  if s % 8 ≠ 0 then still s (some .unaligned)
  else if bytes.contains 0 then still s (some .invalidValue)
  else if size < s / 8 + bytes.length + 1 then still s (some .outOfBounds)
  else
    { mark j k :=
        if k < 8 ∧ s / 8 ≤ j ∧ j < s / 8 + bytes.length + 1 then
          some (((bytes ++ [0]).getD (j - s / 8) 0).toNat.testBit k)
        else none
      stop := (s / 8 + bytes.length + 1) * 8
      error := none }

/-- One course and then, if it has not failed, another.  A bit that both set has the value that it
is set to last. -/
def andThen (p q : Nat → Course) (s : Nat) : Course :=
  match (p s).error with
  | some _ => p s
  | none =>
    let next := q (p s).stop
    { next with mark := fun j k => (next.mark j k).or ((p s).mark j k) }

end Course

/-- The course of a number, which only the two standard layouts have. -/
def FloatType.course (t : FloatType) (value : FloatingPoint.Binary64) (size : Nat) : Nat → Course :=
  match t.standard? with
  | some .binary32 => .andThen (.align t.alignment) (.bits size value.toBinary32 32 t.byteOrder)
  | some .binary64 => .andThen (.align t.alignment) (.bits size value.toNat 64 t.byteOrder)
  | none => fun s => .still s (some .invalidValue)

namespace Definition

mutual

/-- The course of a value in a region of `size` bytes, from each position. -/
def course (size : Nat) : Definition → Nat → Course
  | .integer t _ storage =>
    .andThen (.align t.alignment) (.bits size storage.toNat t.length t.byteOrder)
  | .float t _ value => t.course value size
  | .string encoding _ value =>
    .andThen (.align (Declaration.string encoding).alignment) (.text size value)
  | .enum t _ storage =>
    .andThen (.align t.container.alignment)
      (.bits size storage.toNat t.container.length t.container.byteOrder)
  | .array d _ elements => .andThen (.align d.alignment) (courseAll size elements)
  | .struct t _ fields => .andThen (.align t.alignment) (courseAll size fields)
  | .variant _ _ _ current _ => current.course size

def courseAll (size : Nat) : List Definition → Nat → Course
  | [] => fun s => .still s none
  | d :: ds => .andThen (d.course size) (courseAll size ds)

end

end Definition

/-! ### Taking a course -/

/-- The error of a write, if it has failed, and the cursor that it leaves behind. -/
def outcome : EStateM.Result WriteError Cursor Unit → Option WriteError × Cursor
  | .ok () c => (none, c)
  | .error e c => (some e, c)

/-- Whether the marked bits, and no others, make one region from another. -/
def Course.Turns (c : Course) (data after : Array UInt8) : Prop :=
  after.size = data.size ∧ ∀ j k, bitAt after j k = (c.mark j k).getD (bitAt data j k)

/-- Whether a course from `s` goes forwards and sets no bit outside the bytes that it passes. -/
structure Course.Onward (c : Course) (s : Nat) : Prop where
  le_stop : s ≤ c.stop
  within : ∀ j k, c.mark j k ≠ none → s / 8 ≤ j ∧ j < (c.stop + 7) / 8

/-- Whether a write does what the courses `p` say, from every position and whatever a region of
`size` bytes holds. -/
structure Takes (size : Nat) (x : WriteM Unit) (p : Nat → Course) : Prop where
  outcome_eq : ∀ (data : Array UInt8) (s : Nat), data.size = size →
    ∃ after, outcome (x ⟨data, s⟩) = ((p s).error, ⟨after, (p s).stop⟩) ∧ (p s).Turns data after
  onward : ∀ s, (p s).Onward s

namespace Course

theorem turns_still (stop : Nat) (error : Option WriteError) (data : Array UInt8) :
    (still stop error).Turns data data :=
  ⟨rfl, fun _ _ => rfl⟩

theorem turns_of_lt {c : Course} {data after : Array UInt8} (hsize : after.size = data.size)
    (hmark : ∀ j k, 8 ≤ k → c.mark j k = none)
    (h : ∀ j k, k < 8 → bitAt after j k = (c.mark j k).getD (bitAt data j k)) :
    c.Turns data after := by
  refine ⟨hsize, fun j k => ?_⟩
  rcases Nat.lt_or_ge k 8 with hk | hk
  · exact h j k hk
  · rw [hmark j k hk, Option.getD_none, bitAt_of_le hk, bitAt_of_le hk]

theorem onward_still {s stop : Nat} (h : s ≤ stop) (error : Option WriteError) :
    (still stop error).Onward s :=
  ⟨h, fun _ _ hmark => absurd rfl hmark⟩

theorem onward_bits (size value n : Nat) (order : ByteOrder) (s : Nat) :
    (bits size value n order s).Onward s := by
  unfold bits
  split_ifs
  · exact onward_still (Nat.le_refl s) _
  · exact onward_still (Nat.le_refl s) _
  · refine ⟨Nat.le_add_right s n, fun j k hmark => ?_⟩
    dsimp only at hmark ⊢
    split_ifs at hmark with hbit
    · have hj := order.position_div (j := j) hbit.1
      omega
    · exact absurd rfl hmark

theorem onward_text (size : Nat) (value : String) (s : Nat) : (text size value s).Onward s := by
  unfold text
  dsimp only
  split_ifs
  · exact onward_still (Nat.le_refl s) _
  · exact onward_still (Nat.le_refl s) _
  · exact onward_still (Nat.le_refl s) _
  · refine ⟨by dsimp only; omega, fun j k hmark => ?_⟩
    dsimp only at hmark ⊢
    split_ifs at hmark with hbyte
    · omega
    · exact absurd rfl hmark

end Course

section

variable {size : Nat} {x y : WriteM Unit} {p q : Nat → Course}

theorem takes_still (stop : Nat → Nat) (error : Option WriteError) (hle : ∀ s, s ≤ stop s)
    (h : ∀ data s, outcome (x ⟨data, s⟩) = (error, ⟨data, stop s⟩)) :
    Takes size x fun s => .still (stop s) error where
  outcome_eq data s _ := ⟨data, h data s, Course.turns_still _ _ data⟩
  onward s := Course.onward_still (hle s) error

theorem takes_pure : Takes size (pure ()) fun s => .still s none :=
  takes_still id none Nat.le_refl fun _ _ => rfl

theorem takes_alignTo (unit : Nat) : Takes size (alignTo unit) (.align unit) :=
  takes_still (alignUp · unit) none (le_alignUp · unit) fun _ _ => rfl

theorem takes_writeBits (value n : Nat) (order : ByteOrder) :
    Takes size (writeBits value n order) (.bits size value n order) where
  outcome_eq := by
    rintro data s rfl
    rw [writeBits_apply, Course.bits]
    split_ifs with hwidth hroom
    · exact ⟨data, rfl, Course.turns_still _ _ data⟩
    · exact ⟨data, rfl, Course.turns_still _ _ data⟩
    · refine ⟨_, rfl, Course.turns_of_lt (size_splitPieces order _ value data)
        (fun j k hk => if_neg (by omega)) fun j k hk => ?_⟩
      rw [bitAt_splitPieces order value (by omega) j hk]
      simp only [hk, true_and]
      split_ifs <;> rfl
  onward := Course.onward_bits size value n order

theorem takes_writeText (text : String) : Takes size (writeText text) (.text size text) where
  outcome_eq := by
    rintro data s rfl
    unfold writeText Course.text
    dsimp only
    split_ifs with haligned hnul hroom
    · exact ⟨data, rfl, Course.turns_still _ _ data⟩
    · exact ⟨data, rfl, Course.turns_still _ _ data⟩
    · exact ⟨data, rfl, Course.turns_still _ _ data⟩
    · have hbytes : s / 8 + (Text.Utf8.encode text ++ [0]).length ≤ data.size := by
        rw [List.length_append, List.length_singleton]
        omega
      refine ⟨_, rfl, Course.turns_of_lt (size_overwrite hbytes)
        (fun j k hk => if_neg (by omega)) fun j k hk => ?_⟩
      unfold bitAt
      rw [getD_overwrite hbytes, List.length_append, List.length_singleton, ← Nat.add_assoc]
      simp only [hk, true_and]
      split_ifs <;> rfl
  onward := Course.onward_text size text

/-- Two writes in turn take their courses in turn. -/
theorem Takes.andThen (hx : Takes size x p) (hy : Takes size y q) :
    Takes size (x >>= fun _ => y) (.andThen p q) where
  outcome_eq data s h := by
    obtain ⟨mid, hmid, hsize, hbits⟩ := hx.outcome_eq data s h
    simp only [bind, EStateM.bind, Course.andThen]
    cases hresult : x ⟨data, s⟩ with
    | error e c =>
        -- the second write is not reached
        rw [hresult] at hmid
        obtain ⟨herror, rfl⟩ := Prod.mk.inj hmid
        rw [← herror]
        exact ⟨mid, congrArg (·, _) herror, hsize, hbits⟩
    | ok u c =>
        rw [hresult] at hmid
        obtain ⟨herror, rfl⟩ := Prod.mk.inj hmid
        rw [← herror]
        obtain ⟨after, hafter, hsize', hbits'⟩ := hy.outcome_eq mid (p s).stop (hsize.trans h)
        refine ⟨after, hafter, hsize'.trans hsize, fun j k => ?_⟩
        rw [hbits', hbits, Option.getD_or]
  onward s := by
    obtain ⟨hstop, hwithin⟩ := hx.onward s
    obtain ⟨hstop', hwithin'⟩ := hy.onward (p s).stop
    unfold Course.andThen
    cases (p s).error with
    | some _ => exact ⟨hstop, hwithin⟩
    | none =>
        -- both parts keep to the bytes between the start of the first and the stop of the second
        refine ⟨Nat.le_trans hstop hstop', fun j k hmark => ?_⟩
        dsimp only at hmark ⊢
        rw [ne_eq, Option.or_eq_none_iff, not_and_or] at hmark
        rcases hmark with hmark | hmark
        · have hj := hwithin' j k hmark
          omega
        · have hj := hwithin j k hmark
          omega

theorem Course.Turns.getElem?_eq {c : Course} {s j : Nat} {data after : Array UInt8}
    (h : c.Turns data after) (hc : c.Onward s) (hj : j < s / 8 ∨ (c.stop + 7) / 8 ≤ j) :
    after[j]? = data[j]? := by
  have hbyte : after.getD j 0 = data.getD j 0 := getD_eq_of_bitAt fun k _ => by
    have hmark : c.mark j k = none := by
      by_contra hset
      have hpassed := hc.within j k hset
      omega
    rw [h.2, hmark, Option.getD_none]
  have hsize := h.1
  rcases Nat.lt_or_ge j data.size with hlt | hge
  · rw [Array.getElem?_eq_getElem (by omega), Array.getElem?_eq_getElem hlt]
    simpa [Array.getD, hsize, hlt] using hbyte
  · rw [Array.getElem?_eq_none (by omega), Array.getElem?_eq_none hge]

end

theorem FloatType.takes_write (t : FloatType) (value : FloatingPoint.Binary64) (size : Nat) :
    Takes size (t.write value) (t.course value size) := by
  unfold FloatType.write FloatType.course
  cases t.standard? with
  | none => exact takes_still id _ Nat.le_refl fun _ _ => rfl
  | some standard =>
      cases standard with
      | binary32 => exact (takes_alignTo _).andThen (takes_writeBits _ _ _)
      | binary64 => exact (takes_alignTo _).andThen (takes_writeBits _ _ _)

namespace Definition

theorem takes_writeAll {size : Nat} {ds : List Definition}
    (h : ∀ d ∈ ds, Takes size d.write (d.course size)) :
    Takes size (writeAll ds) (courseAll size ds) := by
  induction ds with
  | nil =>
      rw [writeAll, courseAll]
      exact takes_pure
  | cons d ds ih =>
      rw [List.forall_mem_cons] at h
      rw [writeAll, courseAll]
      exact h.1.andThen (ih h.2)

/-- A value is written as its course says. -/
theorem takes_write (size : Nat) (v : Definition) : Takes size v.write (v.course size) := by
  induction v using Definition.induction with
  | integer t path storage =>
      rw [write, course]
      exact (takes_alignTo _).andThen (takes_writeBits _ _ _)
  | float t path value =>
      rw [write, course]
      exact t.takes_write value size
  | string encoding path text =>
      rw [write, course]
      exact (takes_alignTo _).andThen (takes_writeText text)
  | enum t path storage =>
      rw [write, course]
      exact (takes_alignTo _).andThen (takes_writeBits _ _ _)
  | array d path elements ih =>
      rw [write, course]
      exact (takes_alignTo _).andThen (takes_writeAll ih)
  | struct t path fields ih =>
      rw [write, course]
      exact (takes_alignTo _).andThen (takes_writeAll ih)
  | variant t path label current siblings ih _ =>
      rw [write, course]
      exact ih

/-- Whatever a region holds, a write ends in the same way and at the same place, sets the same bits
to the same values and leaves the others. -/
theorem write_footprint (v : Definition) (data : Array UInt8) (s : Nat) :
    let course := v.course data.size s
    let result := outcome (v.write ⟨data, s⟩)
    result.2.data.size = data.size ∧ s ≤ result.2.position ∧
    (∀ j, j < s / 8 ∨ (result.2.position + 7) / 8 ≤ j → result.2.data[j]? = data[j]?) ∧
    ∀ other : Array UInt8, other.size = data.size →
      let result' := outcome (v.write ⟨other, s⟩)
      result'.1 = result.1 ∧ result'.2.position = result.2.position ∧
      (∀ j k b, course.mark j k = some b →
        bitAt result.2.data j k = b ∧ bitAt result'.2.data j k = b) ∧
      (∀ j k, course.mark j k = none →
        bitAt result.2.data j k = bitAt data j k ∧ bitAt result'.2.data j k = bitAt other j k) ∧
      ∀ j k, bitAt result.2.data j k ≠ bitAt result'.2.data j k →
        course.mark j k = none ∧ bitAt data j k ≠ bitAt other j k := by
  intro course result
  have htakes := v.takes_write data.size
  obtain ⟨after, hresult, hturns⟩ := htakes.outcome_eq data s rfl
  have hresult : result = (course.error, ⟨after, course.stop⟩) := hresult
  rw [hresult]
  have honward := htakes.onward s
  refine ⟨hturns.1, honward.le_stop, fun j => hturns.getElem?_eq honward, fun other hother => ?_⟩
  intro result'
  obtain ⟨after', hresult', hturns'⟩ := htakes.outcome_eq other s hother
  have hresult' : result' = (course.error, ⟨after', course.stop⟩) := hresult'
  rw [hresult']
  have hset : ∀ j k b, course.mark j k = some b → bitAt after j k = b ∧ bitAt after' j k = b := by
    intro j k b hb
    rw [hturns.2, hturns'.2, hb]
    exact ⟨rfl, rfl⟩
  have hleft : ∀ j k, course.mark j k = none →
      bitAt after j k = bitAt data j k ∧ bitAt after' j k = bitAt other j k := by
    intro j k hnone
    rw [hturns.2, hturns'.2, hnone]
    exact ⟨rfl, rfl⟩
  refine ⟨rfl, rfl, hset, hleft, fun j k hne => ?_⟩
  cases hmark : course.mark j k with
  | some b => exact absurd ((hset j k b hmark).1.trans (hset j k b hmark).2.symm) hne
  | none =>
      obtain ⟨hdata, hother⟩ := hleft j k hmark
      exact ⟨rfl, fun heq => hne (hdata.trans (heq.trans hother.symm))⟩

/-- The last text has no room, and the bits beside the first field are still those of the region. -/
theorem write_footprint_no_room :
    let v : Definition := .struct ⟨1, []⟩ (.root "r")
      [.integer (.plain 3 false .big (by decide)) (.root "n") 5, .string .utf8 (.root "t") "A",
        .string .utf8 (.root "u") "B"]
    v.write ⟨#[0xFF, 0xFF, 0xFF], 2⟩ = .error .outOfBounds ⟨#[0xEF, 0x41, 0], 24⟩ ∧
      v.write ⟨#[0, 0, 0], 2⟩ = .error .outOfBounds ⟨#[0x28, 0x41, 0], 24⟩ ∧
      (v.course 3 2).mark 0 6 = none := by
  intro v
  have hwrite : v.write ⟨#[0xFF, 0xFF, 0xFF], 2⟩ = .error .outOfBounds ⟨#[0xEF, 0x41, 0], 24⟩ := by
    dsimp only [v]
    cbv
  have hwrite' : v.write ⟨#[0, 0, 0], 2⟩ = .error .outOfBounds ⟨#[0x28, 0x41, 0], 24⟩ := by
    dsimp only [v]
    cbv
  obtain ⟨-, -, -, hother⟩ := write_footprint v #[0xFF, 0xFF, 0xFF] 2
  obtain ⟨-, -, -, -, hdiffer⟩ := hother #[0, 0, 0] rfl
  rw [hwrite, hwrite'] at hdiffer
  exact ⟨hwrite, hwrite', (hdiffer 0 6 (by decide)).1⟩

end Definition

end TraceFormat
