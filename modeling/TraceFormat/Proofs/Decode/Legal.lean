import TraceFormat.Proofs.Cursor.Words
import TraceFormat.Proofs.Definition.ReadBack

/-! # Every call of the cursor is a legal one

A cursor refuses a run of bits without a width or wider than a word, and a text inside a byte.  No
declaration asks for either: the widths of its numbers are within their bounds by construction, and
strings are aligned to bytes.  So a decode that fails to read has run out of its region, and a write
fails for lack of room or for a value that cannot be written (`decode_write_legal`).  The words in
which a machine reads and writes the runs never leave their range either. -/

namespace TraceFormat

/-! ### What an action may fail with -/

section

variable {ε σ α β : Type}

/-- Whether all that an action fails with has a property. -/
def FailsOnly (E : ε → Prop) (x : EStateM ε σ α) : Prop := ∀ s e t, x s = .error e t → E e

variable {E : ε → Prop}

theorem failsOnly_pure (a : α) : FailsOnly E (pure a : EStateM ε σ α) := nofun

theorem failsOnly_throw {e : ε} (h : E e) : FailsOnly E (throw e : EStateM ε σ α) := by
  rintro s _ t ⟨⟩
  exact h

theorem FailsOnly.bind {x : EStateM ε σ α} {f : α → EStateM ε σ β} (hx : FailsOnly E x)
    (hf : ∀ a, FailsOnly E (f a)) : FailsOnly E (x >>= f) := by
  intro s e t h
  rcases bind_eq_error_iff.mp h with h | ⟨a, s', -, h⟩
  · exact hx s e t h
  · exact hf a s' e t h

theorem FailsOnly.bind_pure {x : EStateM ε σ α} (hx : FailsOnly E x) (f : α → β) :
    FailsOnly E (x >>= fun a => pure (f a)) :=
  hx.bind fun a => failsOnly_pure (f a)

theorem failsOnly_alignTo {E : ε → Prop} (unit : Nat) :
    FailsOnly E (alignTo unit : EStateM ε Cursor Unit) :=
  nofun

end

/-! ### Decoding -/

theorem failsOnly_number {α : Type} (f : Nat → α) (unit : Nat) {n : Nat} (order : ByteOrder)
    (hpos : 0 < n) (hle : n ≤ 64) :
    FailsOnly (· = ReadError.outOfBounds) (alignTo unit >>= fun _ => f <$> readBits n order) := by
  rintro ⟨data, s⟩ e c h
  rw [alignTo_map_readBits_apply f data s unit order hpos hle] at h
  split_ifs at h
  exact (EStateM.Result.error.inj h).1.symm

theorem IntegerType.failsOnly_read (t : IntegerType) :
    FailsOnly (· = ReadError.outOfBounds) t.read :=
  failsOnly_number _ _ _ t.length_pos t.length_le

theorem FloatType.failsOnly_read (t : FloatType) :
    FailsOnly (· = ReadError.outOfBounds) t.read :=
  failsOnly_number _ _ _ t.length_pos t.length_le

/-- An error that, if it is one of reading, says that the region has ended. -/
def DecodeError.IsLegal (e : DecodeError) : Prop := ∀ error, e = .read error → error = .outOfBounds

namespace DecodeM

variable {α : Type}

theorem failsOnly_ofRead {action : ReadM α} (h : FailsOnly (· = ReadError.outOfBounds) action) :
    FailsOnly DecodeError.IsLegal (ofRead action) := by
  intro s e t heq
  unfold ofRead at heq
  cases hread : action s.cursor with
  | ok a c =>
      rw [hread] at heq
      cases heq
  | error error c =>
      rw [hread] at heq
      obtain ⟨rfl, -⟩ := EStateM.Result.error.inj heq
      rintro error' ⟨⟩
      exact h _ _ _ hread

theorem failsOnly_align (unit : Nat) : FailsOnly DecodeError.IsLegal (align unit) :=
  failsOnly_ofRead (failsOnly_alignTo unit)

theorem failsOnly_ofArena {f : Arena → Except DecodeError α}
    (h : ∀ a e, f a = .error e → e.IsLegal) : FailsOnly DecodeError.IsLegal (ofArena f) := by
  intro s e t heq
  unfold ofArena at heq
  cases hf : f s.arena with
  | ok a =>
      rw [hf] at heq
      cases heq
  | error error =>
      rw [hf] at heq
      obtain ⟨rfl, -⟩ := EStateM.Result.error.inj heq
      exact h _ _ hf

theorem failsOnly_ofArena_ok {E : DecodeError → Prop} (f : Arena → α) :
    FailsOnly E (ofArena fun a => .ok (f a)) := by
  intro s e t h
  cases h

theorem failsOnly_bindIn (id : FrameId) (d : Definition) :
    FailsOnly DecodeError.IsLegal (bindIn id d) :=
  nofun

theorem failsOnly_forIndices {E : DecodeError → Prop} {action : Nat → DecodeM α}
    (h : ∀ i, FailsOnly E (action i)) (n index : Nat) (done : List α) :
    FailsOnly E (forIndices action n index done) := by
  induction n generalizing index done with
  | zero => exact failsOnly_pure _
  | succ n ih => exact (h index).bind fun a => ih (index + 1) (a :: done)

theorem failsOnly_collectIn {E : DecodeError → Prop} (parent : FrameId) (path : Path)
    {body : FrameId → DecodeM Unit} (h : ∀ id, FailsOnly E (body id)) :
    FailsOnly E (collectIn parent path body) := by
  intro s e t heq
  unfold collectIn at heq
  dsimp only at heq
  cases hbody : body s.arena.next { s with arena := s.arena.enter parent path } with
  | ok _ t' =>
      rw [hbody] at heq
      cases heq
  | error error t' =>
      rw [hbody] at heq
      obtain ⟨rfl, -⟩ := EStateM.Result.error.inj heq
      exact h _ _ _ _ hbody

end DecodeM

namespace Declaration

open DecodeM

variable {limits : Limits}

theorem failsOnly_decodeText (encoding : Encoding) (path : Path) :
    FailsOnly DecodeError.IsLegal (decodeText limits encoding path) := by
  rintro ⟨⟨data, s⟩, a⟩ e t h
  obtain ⟨start, hstart⟩ := exists_alignUp_eight s
  rw [decodeText_apply limits encoding path data a hstart] at h
  split_ifs at h
  · obtain ⟨rfl, -⟩ := EStateM.Result.error.inj h
    rintro error ⟨⟩
    rfl
  · dsimp only at h
    split at h
    · obtain ⟨rfl, -⟩ := EStateM.Result.error.inj h
      exact nofun
    · cases h

theorem isLegal_of_sequenceLength {name : String} {scope : FrameId} {path : Path} (a : Arena)
    (e : DecodeError) (h : sequenceLength limits name scope path a = .error e) : e.IsLegal := by
  unfold sequenceLength at h
  split at h
  · obtain rfl := Except.error.inj h
    exact nofun
  · split at h
    · obtain rfl := Except.error.inj h
      exact nofun
    · split_ifs at h
      obtain rfl := Except.error.inj h
      exact nofun
  · obtain rfl := Except.error.inj h
    exact nofun

theorem isLegal_of_selectedLabel {tag : Option String} {scope : FrameId} {path : Path} (a : Arena)
    (e : DecodeError) (h : selectedLabel tag scope path a = .error e) : e.IsLegal := by
  unfold selectedLabel at h
  split at h
  · obtain rfl := Except.error.inj h
    exact nofun
  · split at h
    · obtain rfl := Except.error.inj h
      exact nofun
    · split at h
      · obtain rfl := Except.error.inj h
        exact nofun
      · cases h
    · obtain rfl := Except.error.inj h
      exact nofun

theorem failsOnly_decodeFields {members : Members}
    (h : ∀ m ∈ members, ∀ scope path,
      FailsOnly DecodeError.IsLegal (decodeAt limits m.2 scope path)) (id : FrameId) :
    FailsOnly DecodeError.IsLegal (decodeFields limits members id) := by
  induction members with
  | nil =>
      rw [decodeFields]
      exact failsOnly_pure ()
  | cons m members ih =>
      obtain ⟨name, d⟩ := m
      rw [List.forall_mem_cons] at h
      rw [decodeFields]
      refine (failsOnly_ofArena_ok _).bind fun path => (h.1 id path).bind fun value => ?_
      exact (failsOnly_bindIn id value).bind fun _ => ih h.2

theorem failsOnly_decodeMember {members : Members}
    (h : ∀ m ∈ members, ∀ scope path,
      FailsOnly DecodeError.IsLegal (decodeAt limits m.2 scope path))
    (label : String) (scope : FrameId) (path : Path) :
    FailsOnly DecodeError.IsLegal (decodeMember limits members label scope path) := by
  induction members with
  | nil =>
      rw [decodeMember]
      refine failsOnly_throw ?_
      rintro error ⟨⟩
  | cons m members ih =>
      obtain ⟨name, d⟩ := m
      rw [List.forall_mem_cons] at h
      rw [decodeMember]
      split_ifs
      · exact h.1 scope (path.child label)
      · exact ih h.2

/-- A decode that fails to read has run out of its region. -/
theorem failsOnly_decodeAt (limits : Limits) (d : Declaration) (scope : FrameId) (path : Path) :
    FailsOnly DecodeError.IsLegal (decodeAt limits d scope path) := by
  induction d using Declaration.induction generalizing scope path with
  | integer t =>
      rw [decodeAt]
      exact (failsOnly_ofRead t.failsOnly_read).bind_pure _
  | float t =>
      rw [decodeAt]
      exact (failsOnly_ofRead t.failsOnly_read).bind_pure _
  | string encoding =>
      rw [decodeAt]
      exact (failsOnly_decodeText encoding path).bind_pure _
  | enum t =>
      rw [decodeAt]
      exact (failsOnly_ofRead t.container.failsOnly_read).bind_pure _
  | array n element ih =>
      rw [decodeAt]
      have helements := failsOnly_forIndices (fun i => ih scope (path.element i)) n 0 []
      exact (failsOnly_align _).bind fun _ => helements.bind_pure _
  | sequence name element ih =>
      rw [decodeAt]
      refine (failsOnly_ofArena isLegal_of_sequenceLength).bind fun n => ?_
      have helements := failsOnly_forIndices (fun i => ih scope (path.element i)) n 0 []
      exact (failsOnly_align _).bind fun _ => helements.bind_pure _
  | struct minAlignment members ih =>
      rw [decodeAt]
      have hfields := failsOnly_collectIn scope path (failsOnly_decodeFields ih)
      exact (failsOnly_align _).bind fun _ => hfields.bind_pure _
  | variant tag members ih =>
      rw [decodeAt]
      refine (failsOnly_ofArena isLegal_of_selectedLabel).bind fun label => ?_
      refine (failsOnly_ofArena_ok _).bind fun siblings => ?_
      exact (failsOnly_decodeMember ih label scope path).bind_pure _

theorem failsOnly_decode (limits : Limits) (d : Declaration) (scope : FrameId) (name : String) :
    FailsOnly DecodeError.IsLegal (d.decode limits scope name) :=
  (failsOnly_ofArena_ok _).bind fun path => failsOnly_decodeAt limits d scope path

end Declaration

/-! ### Writing -/

/-- An error of a write that lacks room or has a value that cannot be written. -/
def WriteError.IsLegal (e : WriteError) : Prop := e = .outOfBounds ∨ e = .invalidValue

theorem IntegerType.failsOnly_write (t : IntegerType) (storage : BitVec 64) :
    FailsOnly WriteError.IsLegal (t.write storage) := by
  rintro ⟨data, s⟩ e c h
  exact .inl (t.error_eq_of_write h).1

theorem failsOnly_writeRun (unit value : Nat) {n : Nat} (order : ByteOrder) (hpos : 0 < n)
    (hle : n ≤ 64) :
    FailsOnly WriteError.IsLegal (alignTo unit >>= fun _ => writeBits value n order) := by
  refine (failsOnly_alignTo unit).bind fun _ => ?_
  rintro ⟨data, s⟩ e c h
  rw [writeBits_apply, if_neg (by omega)] at h
  split_ifs at h
  exact .inl (EStateM.Result.error.inj h).1.symm

theorem FloatType.failsOnly_write (t : FloatType) (value : FloatingPoint.Binary64) :
    FailsOnly WriteError.IsLegal (t.write value) := by
  unfold FloatType.write
  cases t.standard? with
  | none => exact failsOnly_throw (.inr rfl)
  | some standard =>
      cases standard with
      | binary32 => exact failsOnly_writeRun _ _ _ (by decide) (by decide)
      | binary64 => exact failsOnly_writeRun _ _ _ (by decide) (by decide)

theorem failsOnly_writeString (text : String) :
    FailsOnly WriteError.IsLegal (alignTo 8 >>= fun _ => writeText text) := by
  rintro ⟨data, s⟩ e c h
  obtain ⟨start, hstart⟩ := Declaration.exists_alignUp_eight s
  rw [writeString_apply text data hstart] at h
  dsimp only at h
  split_ifs at h
  · exact .inr (EStateM.Result.error.inj h).1.symm
  · exact .inl (EStateM.Result.error.inj h).1.symm

namespace Definition

theorem failsOnly_writeAll {ds : List Definition}
    (h : ∀ d ∈ ds, FailsOnly WriteError.IsLegal d.write) :
    FailsOnly WriteError.IsLegal (writeAll ds) := by
  induction ds with
  | nil =>
      rw [writeAll]
      exact failsOnly_pure ()
  | cons d ds ih =>
      rw [List.forall_mem_cons] at h
      rw [writeAll]
      exact h.1.bind fun _ => ih h.2

/-- A write fails for lack of room or for a value that cannot be written. -/
theorem failsOnly_write (v : Definition) : FailsOnly WriteError.IsLegal v.write := by
  induction v using Definition.induction with
  | integer t path storage =>
      rw [write]
      exact t.failsOnly_write storage
  | float t path value =>
      rw [write]
      exact t.failsOnly_write value
  | string encoding path text =>
      rw [write, Declaration.alignment_string]
      exact failsOnly_writeString text
  | enum t path storage =>
      rw [write]
      exact t.container.failsOnly_write storage
  | array d path elements ih =>
      rw [write]
      exact (failsOnly_alignTo _).bind fun _ => failsOnly_writeAll ih
  | struct t path fields ih =>
      rw [write]
      exact (failsOnly_alignTo _).bind fun _ => failsOnly_writeAll ih
  | variant t path label current siblings ih _ =>
      rw [write]
      exact ih

end Definition

/-- Whatever is decoded or written, wherever the cursor stands: a decode that fails to read has run
out of its region, a write fails for lack of room or for its value, and the words in which runs of
bits are read and written never leave their range. -/
theorem decode_write_legal :
    (∀ (limits : Limits) (d : Declaration) (scope : FrameId) (name : String) (s t : DecodeState)
      (error : ReadError),
      d.decode limits scope name s = .error (.read error) t → error = .outOfBounds) ∧
    (∀ (v : Definition) (c c' : Cursor) (error : WriteError),
      v.write c = .error error c' → error = .outOfBounds ∨ error = .invalidValue) ∧
    (∀ (n : Nat) (signed : Bool) (order : ByteOrder) (c : Cursor),
      Words.readInt? n signed order c = some (readInt n signed order c)) ∧
    (∀ (t : FloatType) (c : Cursor), Words.readFloat? t c = some (t.read c)) ∧
    ∀ (value n : Nat) (order : ByteOrder) (c : Cursor),
      Words.writeBits? (BitVec.ofNat 64 value) n order c = some (writeBits value n order c) :=
  ⟨fun limits d scope name s t error h => d.failsOnly_decode limits scope name s _ t h error rfl,
    fun v c c' error h => v.failsOnly_write c error c' h, Words.readInt?_eq, Words.readFloat?_eq,
    Words.writeBits?_eq⟩

end TraceFormat
