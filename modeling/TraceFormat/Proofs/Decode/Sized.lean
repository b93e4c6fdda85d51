import Mathlib
import TraceFormat.Proofs.Cursor.Number
import TraceFormat.Proofs.Decode.InStep

/-! # Declarations of a fixed size

Where no string, no sequence and no variant occurs (`Declaration.Sized`) the bits of a region decide
which values are found and nothing else.  Two decodes of such a declaration that begin at the same
place of regions of one size (`DecodeState.SamePlace`) take the same course (`SameCourse`): both
find their values or both run out of the region, and they end at the same place.

Neither the contents of the regions nor the arenas have a part in this
(`Declaration.decode_of_sized`). -/

namespace TraceFormat

/-- Two places at one position in regions of one size, whatever the regions and the arenas hold. -/
def DecodeState.SamePlace (s t : DecodeState) : Prop :=
  s.cursor.data.size = t.cursor.data.size ∧ s.cursor.position = t.cursor.position

/-- Both runs have to run out of their regions. -/
def Tolerance.exhausted : Tolerance DecodeError :=
  ⟨fun e f => e = .read .outOfBounds ∧ f = .read .outOfBounds, fun _ => False⟩

open DecodeState (SamePlace)

/-- Two actions that, begun at the same place, succeed together or run out of their regions
together, and end at the same place. -/
def SameCourse {α β : Type} (x : DecodeM α) (y : DecodeM β) : Prop :=
  InStep .exhausted SamePlace (fun _ _ => True) x y

/-- Whether two decodes have ended alike: both with a value or both because the region was too
short, and at one position. -/
def SameEnd : EStateM.Result DecodeError DecodeState Definition →
    EStateM.Result DecodeError DecodeState Definition → Prop
  | .ok _ s, .ok _ t => s.cursor.position = t.cursor.position
  | .error e s, .error f t =>
      e = .read .outOfBounds ∧ f = .read .outOfBounds ∧ s.cursor.position = t.cursor.position
  | _, _ => False

namespace SameCourse

variable {α β γ δ : Type} {x : DecodeM α} {y : DecodeM β}

theorem pure (v : α) (w : β) : SameCourse (pure v) (pure w) := inStep_pure trivial

theorem bind {f : α → DecodeM γ} {g : β → DecodeM δ} (hx : SameCourse x y)
    (hf : ∀ v w, SameCourse (f v) (g w)) : SameCourse (x >>= f) (y >>= g) :=
  InStep.bind hx fun v w _ => hf v w

theorem bind_pure (hx : SameCourse x y) (f : α → γ) (g : β → δ) :
    SameCourse (x >>= fun v => Pure.pure (f v)) (y >>= fun w => Pure.pure (g w)) :=
  hx.bind fun v w => .pure (f v) (g w)

theorem align (unit : Nat) : SameCourse (DecodeM.align unit) (DecodeM.align unit) :=
  fun _ _ hs => .ok trivial ⟨hs.1, congrArg (alignUp · unit) hs.2⟩

theorem fieldPath (id id' : FrameId) (name name' : String) :
    SameCourse (DecodeM.ofArena fun arena => .ok (arena.fieldPath id name))
      (DecodeM.ofArena fun arena => .ok (arena.fieldPath id' name')) :=
  fun _ _ hs => .ok trivial hs

theorem number (f : Nat → α) (unit : Nat) {n : Nat} (order : ByteOrder) (hpos : 0 < n)
    (hle : n ≤ 64) :
    SameCourse (DecodeM.ofRead (alignTo unit >>= fun _ => f <$> readBits n order))
      (DecodeM.ofRead (alignTo unit >>= fun _ => f <$> readBits n order)) := by
  rintro ⟨⟨data, s⟩, a⟩ ⟨⟨data', _⟩, b⟩ ⟨hsize, rfl⟩
  dsimp only at hsize
  have hread := alignTo_map_readBits_apply f data s unit order hpos hle
  have hread' := alignTo_map_readBits_apply f data' s unit order hpos hle
  simp only [DecodeM.ofRead, hread, hread', hsize]
  split_ifs
  · exact .error ⟨rfl, rfl⟩ ⟨hsize, rfl⟩
  · exact .ok trivial ⟨hsize, rfl⟩

theorem forIndices {f : Nat → DecodeM α} {g : Nat → DecodeM β} (h : ∀ i, SameCourse (f i) (g i))
    (n : Nat) : SameCourse (DecodeM.forIndices f n 0 []) (DecodeM.forIndices g n 0 []) :=
  InStep.imp (DecodeM.inStep_forIndices h n 0 .nil) fun _ _ _ => trivial

theorem collectIn (parent parent' : FrameId) (path path' : Path)
    {body body' : FrameId → DecodeM Unit} (h : ∀ id id', SameCourse (body id) (body' id')) :
    SameCourse (DecodeM.collectIn parent path body) (DecodeM.collectIn parent' path' body') := by
  refine DecodeM.inStep_collectIn (R := SamePlace) (fun s t hs => ?_)
    fun _ _ _ _ _ hr => ⟨hr, trivial⟩
  exact InStep.imp (h s.arena.next t.arena.next) (fun _ _ _ => rfl) _ _ hs

end SameCourse

namespace Declaration

/-- A declaration in which no string, no sequence and no variant occurs. -/
inductive Sized : Declaration → Prop
  | integer (t : IntegerType) : Sized (.integer t)
  | float (t : FloatType) : Sized (.float t)
  | enum (t : EnumType) : Sized (.enum t)
  | array {n : Nat} {element : Declaration} : Sized element → Sized (.array n element)
  | struct {minAlignment : Nat} {members : Members} :
      (∀ m ∈ members, Sized m.2) → Sized (.struct minAlignment members)

variable {limits limits' : Limits}

theorem sameCourse_decodeFields {members : Members}
    (h : ∀ m ∈ members, ∀ scope scope' path path',
      SameCourse (decodeAt limits m.2 scope path) (decodeAt limits' m.2 scope' path'))
    (id id' : FrameId) :
    SameCourse (decodeFields limits members id) (decodeFields limits' members id') := by
  induction members with
  | nil =>
      rw [decodeFields, decodeFields]
      exact .pure () ()
  | cons m members ih =>
      obtain ⟨name, d⟩ := m
      rw [List.forall_mem_cons] at h
      rw [decodeFields, decodeFields]
      have hbind : ∀ v w, SameCourse (DecodeM.bindIn id v) (DecodeM.bindIn id' w) :=
        fun _ _ _ _ hs => .ok trivial hs
      refine (SameCourse.fieldPath id id' name name).bind fun path path' => ?_
      exact (h.1 id id' path path').bind fun v w => (hbind v w).bind fun _ _ => ih h.2

/-- Decodes of a sized declaration take the same course from the same place. -/
theorem Sized.sameCourse {d : Declaration} (hd : d.Sized) (scope scope' : FrameId)
    (path path' : Path) :
    SameCourse (decodeAt limits d scope path) (decodeAt limits' d scope' path') := by
  induction hd generalizing scope scope' path path' with
  | integer t =>
      rw [decodeAt, decodeAt]
      have hread := SameCourse.number (toStorage t.length t.signed) t.alignment t.byteOrder
        t.length_pos t.length_le
      exact hread.bind_pure _ _
  | float t =>
      rw [decodeAt, decodeAt]
      have hread := SameCourse.number t.decode t.alignment t.byteOrder t.length_pos t.length_le
      exact hread.bind_pure _ _
  | enum t =>
      rw [decodeAt, decodeAt]
      have hread := SameCourse.number (toStorage t.container.length t.container.signed)
        t.container.alignment t.container.byteOrder t.container.length_pos t.container.length_le
      exact hread.bind_pure _ _
  | @array n element _ ih =>
      rw [decodeAt, decodeAt]
      have helements := SameCourse.forIndices
        (fun i => ih scope scope' (path.element i) (path'.element i)) n
      exact (SameCourse.align _).bind fun _ _ => helements.bind_pure _ _
  | struct _ ih =>
      rw [decodeAt, decodeAt]
      have hfields := SameCourse.collectIn scope scope' path path' (sameCourse_decodeFields ih)
      exact (SameCourse.align _).bind fun _ _ => hfields.bind_pure _ _

/-- Where a decode of a sized declaration ends, and whether the region is long enough for it, depend
on the declaration, the size of the region and the place of the beginning alone. -/
theorem decode_of_sized (limits limits' : Limits) {d : Declaration} (hd : d.Sized)
    {s t : DecodeState} (h : s.SamePlace t) (scope scope' : FrameId) (name name' : String) :
    SameEnd (decode limits d scope name s) (decode limits' d scope' name' t) := by
  have hcourse : SameCourse (decode limits d scope name) (decode limits' d scope' name') :=
    (SameCourse.fieldPath scope scope' name name').bind (hd.sameCourse scope scope')
  have hagree := hcourse s t h
  generalize decode limits d scope name s = r, decode limits' d scope' name' t = r' at hagree
  cases hagree with
  | ok _ hs => exact hs.2
  | error he hs => exact ⟨he.1, he.2, hs.2⟩
  | alone he => exact he.elim

theorem decode_of_sized_pair :
    let nibble : IntegerType := .plain 4 true .big (by decide)
    let state : EnumType := ⟨.uint8, [⟨0, 9, "idle"⟩]⟩
    let pair : Declaration := .array 2 (.integer nibble)
    let members : Members := [("state", .enum state), ("pair", pair)]
    let s : DecodeState := ⟨⟨#[0, 5, 0x9F], 3⟩, .empty⟩
    let t : DecodeState := ⟨⟨#[7, 200, 0x12], 3⟩, .empty⟩
    (Declaration.struct 1 members).Sized ∧ s.SamePlace t ∧
      decode .standard (.struct 1 members) .root "a" s =
        .ok (.struct ⟨1, members⟩ (.root "a") [.enum state ⟨"a.", "state"⟩ 5,
            .array pair ⟨"a.", "pair"⟩
              [.integer nibble ⟨"a.", "pair[0]"⟩ (-7), .integer nibble ⟨"a.", "pair[1]"⟩ (-1)]])
          ⟨⟨#[0, 5, 0x9F], 24⟩, .empty⟩ ∧
      ∃ w t', decode .standard (.struct 1 members) .root "b" t = .ok w t' ∧
        t'.cursor.position = 24 := by
  intro nibble state pair members s t
  have hd : (Declaration.struct 1 members).Sized :=
    .struct (by simp [members, pair, Sized.enum, Sized.array (Sized.integer nibble)])
  have hplace : s.SamePlace t := ⟨rfl, rfl⟩
  have hsame := decode_of_sized .standard .standard hd hplace .root .root "a" "b"
  have hdecode : decode .standard (.struct 1 members) .root "a" s =
      .ok (.struct ⟨1, members⟩ (.root "a") [.enum state ⟨"a.", "state"⟩ 5,
          .array pair ⟨"a.", "pair"⟩
            [.integer nibble ⟨"a.", "pair[0]"⟩ (-7), .integer nibble ⟨"a.", "pair[1]"⟩ (-1)]])
        ⟨⟨#[0, 5, 0x9F], 24⟩, .empty⟩ := by
    dsimp only [members, s, state, pair, nibble]
    cbv
  refine ⟨hd, hplace, hdecode, ?_⟩
  rw [hdecode] at hsame
  cases hr : decode .standard (.struct 1 members) .root "b" t with
  | ok w t' =>
      rw [hr] at hsame
      exact ⟨w, t', rfl, hsame.symm⟩
  | error _ _ =>
      rw [hr] at hsame
      exact hsame.elim

end Declaration

end TraceFormat
