import TraceFormat.Decode
import TraceFormat.Proofs.Scope.Order

/-! # Decoding gives the arena back

While a structure is decoded its frame stands at the end of the arena (`Arena.collecting`), and only
this frame changes: each field is bound in it, and what a field enters for itself is closed again.
So an action of a field keeps the arena (`DecodeM.Keeps`), the fields of a structure together keep
all but the last frame, and closing that frame gives the arena back.

The main statement, `Declaration.after_decode_arena`, holds of every outcome, whichever error at
whichever depth has ended the decode. -/

namespace TraceFormat

/-! ### The frame at the end of an arena -/

namespace Arena

/-- An arena with one frame more, which has collected some fields. -/
def collecting (a : Arena) (parent : FrameId) (path : Path) (fields : List Definition) : Arena :=
  a.add ⟨path, some parent, .collecting fields⟩

variable (a : Arena) (parent : FrameId) (path : Path) (fields : List Definition)

theorem frame?_next_add (f : Frame) : (a.add f).frame? a.next = some f := by
  simp [frame?, next, add]

theorem enter_eq_collecting : a.enter parent path = a.collecting parent path [] := rfl

theorem live_next_collecting : (a.collecting parent path fields).Live a.next :=
  live_add.mpr (.inr rfl)

theorem bind_collecting (d : Definition) :
    (a.collecting parent path fields).bind a.next d = a.collecting parent path (fields ++ [d]) := by
  have h := List.modifyTailIdx_add (List.modifyHead (Frame.bind d)) 0 a.frames
    [⟨path, some parent, .collecting fields⟩]
  exact congrArg Arena.mk h

theorem fieldPath_collecting (name : String) :
    (a.collecting parent path fields).fieldPath a.next name = path.child name := by
  simp [fieldPath, path?, collecting, frame?_next_add]

theorem bindings_collecting : (a.collecting parent path fields).bindings a.next = fields := by
  simp [bindings, collecting, frame?_next_add, Frame.fields]

variable {a}

theorem Live.next_ne_root {id : FrameId} (h : a.Live id) : a.next ≠ .root := by
  intro e
  have : a.frames.length = 0 := congrArg FrameId.index e
  simp [Live, this] at h

theorem collected_collecting (h : a.next ≠ .root) :
    (a.collecting parent path fields).collected a.next = fields := by
  simp [collected, h, collecting, frame?_next_add, Frame.collected]

theorem close_collecting (h : a.next ≠ .root) :
    (a.collecting parent path fields).close a.next = a := by
  rw [close, if_neg h]
  simp [collecting, add, next]

end Arena

/-! ### Actions that keep a property of the state -/

/-- Where decoding stands: somewhere in a region and in an arena. -/
def DecodeState.At (data : Array UInt8) (a : Arena) (s : DecodeState) : Prop :=
  s.cursor.data = data ∧ s.arena = a

/-- Where decoding stands between two fields of a structure: in a frame that has collected some. -/
def DecodeState.Inside (data : Array UInt8) (a : Arena) (parent : FrameId) (path : Path)
    (s : DecodeState) : Prop :=
  ∃ fields, s.At data (a.collecting parent path fields)

/-- A reading action that leaves the region as it is, whether or not it succeeds. -/
def ReadM.KeepsData {α : Type} (action : ReadM α) : Prop := ∀ c,
  match action c with
  | .ok _ c' => c'.data = c.data
  | .error _ c' => c'.data = c.data

namespace DecodeM

variable {α β : Type} {P : DecodeState → Prop}

/-- The state in which an action ends, whether or not it succeeds. -/
def after (action : DecodeM α) (s : DecodeState) : DecodeState :=
  match action s with
  | .ok _ t => t
  | .error _ t => t

/-- An action in whose final state a property holds if it held before, whether or not the action
succeeds. -/
def Keeps (P : DecodeState → Prop) (action : DecodeM α) : Prop := ∀ s, P s → P (action.after s)

theorem keeps_pure (a : α) : Keeps P (pure a) := fun _ h => h

theorem keeps_throw (e : DecodeError) : Keeps P (throw e : DecodeM α) := fun _ h => h

theorem keeps_bind {x : DecodeM α} {f : α → DecodeM β} (hx : Keeps P x) (hf : ∀ a, Keeps P (f a)) :
    Keeps P (x >>= f) := by
  intro s hs
  have h := hx s hs
  simp only [after, bind, EStateM.bind] at h ⊢
  cases hr : x s with
  | ok a t =>
      rw [hr] at h
      exact hf a t h
  | error e t =>
      rw [hr] at h
      exact h

theorem keeps_ofArena (f : Arena → Except DecodeError α) : Keeps P (ofArena f) := by
  intro s hs
  unfold after ofArena
  cases f s.arena <;> exact hs

theorem keeps_ofRead {data : Array UInt8} {a : Arena} {action : ReadM α} (h : action.KeepsData) :
    Keeps (DecodeState.At data a) (ofRead action) := by
  rintro ⟨c, _⟩ ⟨rfl, rfl⟩
  have hc := h c
  unfold after ofRead
  cases hr : action c with
  | ok v c' =>
      rw [hr] at hc
      exact ⟨hc, rfl⟩
  | error e c' =>
      rw [hr] at hc
      exact ⟨hc, rfl⟩

theorem keeps_forIndices {action : Nat → DecodeM α} (h : ∀ i, Keeps P (action i)) :
    ∀ n index done, Keeps P (forIndices action n index done)
  | 0, _, _ => keeps_pure _
  | n + 1, index, _ => keeps_bind (h index) fun _ => keeps_forIndices h n (index + 1) _

theorem keeps_inside {data : Array UInt8} {a : Arena} {parent : FrameId} {path : Path}
    {action : DecodeM α}
    (h : ∀ fields, Keeps (DecodeState.At data (a.collecting parent path fields)) action) :
    Keeps (DecodeState.Inside data a parent path) action := fun s ⟨fields, hs⟩ =>
  ⟨fields, h fields s hs⟩

theorem keeps_bindIn (data : Array UInt8) (a : Arena) (parent : FrameId) (path : Path)
    (d : Definition) : Keeps (DecodeState.Inside data a parent path) (bindIn a.next d) := by
  rintro ⟨c, _⟩ ⟨fields, rfl, rfl⟩
  exact ⟨fields ++ [d], rfl, a.bind_collecting parent path fields d⟩

/-- Closing the frame of a structure undoes all that has happened in it. -/
theorem keeps_collectIn {data : Array UInt8} {a : Arena} {parent : FrameId} {path : Path}
    {body : FrameId → DecodeM Unit} (root : a.next ≠ .root)
    (h : Keeps (DecodeState.Inside data a parent path) (body a.next)) :
    Keeps (DecodeState.At data a) (collectIn parent path body) := by
  rintro ⟨c, a⟩ ⟨rfl, rfl⟩
  obtain ⟨fields, hdata, harena⟩ := h ⟨c, a.enter parent path⟩ ⟨[], rfl, rfl⟩
  unfold after at hdata harena
  unfold after collectIn
  cases hr : body a.next ⟨c, a.enter parent path⟩ with
  | ok _ t =>
      simp only [hr] at hdata harena ⊢
      exact ⟨hdata, by rw [harena, Arena.close_collecting parent path fields root]⟩
  | error _ t =>
      simp only [hr] at hdata harena ⊢
      exact ⟨hdata, by rw [harena, Arena.close_collecting parent path fields root]⟩

end DecodeM

/-! ### Reading keeps the region -/

namespace ReadM

theorem keepsData_bind {α β : Type} {x : ReadM α} {f : α → ReadM β} (hx : x.KeepsData)
    (hf : ∀ a, (f a).KeepsData) : KeepsData (x >>= f) := by
  intro c
  have h := hx c
  simp only [bind, EStateM.bind]
  cases hr : x c with
  | ok a c₁ =>
      rw [hr] at h
      have h' := hf a c₁
      simp only at h ⊢
      rw [h] at h'
      exact h'
  | error e c₁ =>
      rw [hr] at h
      exact h

theorem keepsData_map {α β : Type} {x : ReadM α} (f : α → β) (hx : x.KeepsData) :
    KeepsData (f <$> x) := by
  intro c
  have h := hx c
  simp only [Functor.map, EStateM.map]
  cases hr : x c <;> rw [hr] at h <;> exact h

theorem keepsData_alignTo (unit : Nat) : KeepsData (alignTo unit) := fun _ => rfl

theorem keepsData_readBits (n : Nat) (order : ByteOrder) : KeepsData (readBits n order) := by
  intro c
  unfold readBits
  cases c.checkSpan n <;> rfl

theorem keepsData_readTextUntil (limit : Option Nat) (encoding : Encoding) :
    KeepsData (readTextUntil limit encoding) := by
  intro c
  unfold readTextUntil
  split_ifs <;> rfl

end ReadM

theorem IntegerType.keepsData_read (t : IntegerType) : ReadM.KeepsData t.read := by
  have halign := ReadM.keepsData_alignTo t.alignment
  have hbits := ReadM.keepsData_readBits t.length t.byteOrder
  exact ReadM.keepsData_bind halign fun _ => ReadM.keepsData_map _ hbits

theorem FloatType.keepsData_read (t : FloatType) : ReadM.KeepsData t.read := by
  have halign := ReadM.keepsData_alignTo t.alignment
  have hbits := ReadM.keepsData_readBits t.length t.byteOrder
  exact ReadM.keepsData_bind halign fun _ => ReadM.keepsData_map _ hbits

/-! ### Decoding -/

namespace Declaration

open DecodeM (keeps_pure keeps_throw keeps_bind keeps_ofArena keeps_ofRead keeps_forIndices
  keeps_inside keeps_bindIn keeps_collectIn)

variable {data : Array UInt8} {limits : Limits}

theorem keeps_align {a : Arena} (unit : Nat) :
    DecodeM.Keeps (DecodeState.At data a) (DecodeM.align unit) :=
  keeps_ofRead (ReadM.keepsData_alignTo unit)

theorem keeps_decodeText {a : Arena} (encoding : Encoding) (path : Path) :
    DecodeM.Keeps (DecodeState.At data a) (decodeText limits encoding path) := by
  refine keeps_bind (keeps_align _) fun _ => keeps_bind
    (keeps_ofRead (ReadM.keepsData_readTextUntil _ _)) fun ⟨_, stop⟩ => ?_
  dsimp only
  split
  · exact keeps_throw _
  · exact keeps_pure _

theorem keeps_decodeFields {a : Arena} {parent : FrameId} {path : Path} : ∀ {members : Members},
    (∀ m ∈ members, ∀ (b : Arena) scope p, b.next ≠ .root →
      DecodeM.Keeps (DecodeState.At data b) (decodeAt limits m.2 scope p)) →
    DecodeM.Keeps (DecodeState.Inside data a parent path) (decodeFields limits members a.next)
  | [], _ => by
      rw [decodeFields]
      exact keeps_pure _
  | (name, d) :: members, h => by
      rw [decodeFields]
      refine keeps_bind (keeps_ofArena _) fun p => keeps_bind ?_ fun v =>
        keeps_bind (keeps_bindIn data a parent path v) fun _ => ?_
      · exact keeps_inside fun fields =>
          h _ List.mem_cons_self _ _ p (a.live_next_collecting parent path fields).next_ne_root
      · exact keeps_decodeFields fun m hm => h m (List.mem_cons_of_mem _ hm)

theorem keeps_decodeMember {a : Arena} {label : String} {scope : FrameId} {path : Path} :
    ∀ {members : Members},
    (∀ m ∈ members, ∀ p, DecodeM.Keeps (DecodeState.At data a) (decodeAt limits m.2 scope p)) →
    DecodeM.Keeps (DecodeState.At data a) (decodeMember limits members label scope path)
  | [], _ => by
      rw [decodeMember]
      exact keeps_throw _
  | (name, d) :: members, h => by
      rw [decodeMember]
      split_ifs
      · exact h _ List.mem_cons_self _
      · exact keeps_decodeMember fun m hm => h m (List.mem_cons_of_mem _ hm)

/-- Decoding keeps the region and the arena, whether or not it succeeds.  The frame may be closed;
all that matters is that no structure enters a frame in the place of the root. -/
theorem keeps_decodeAt_of_root (d : Declaration) (a : Arena) (scope : FrameId) (path : Path)
    (root : a.next ≠ .root) :
    DecodeM.Keeps (DecodeState.At data a) (decodeAt limits d scope path) := by
  induction d using Declaration.induction generalizing a scope path with
  | integer t =>
      rw [decodeAt]
      exact keeps_bind (keeps_ofRead t.keepsData_read) fun _ => keeps_pure _
  | float t =>
      rw [decodeAt]
      exact keeps_bind (keeps_ofRead t.keepsData_read) fun _ => keeps_pure _
  | string encoding =>
      rw [decodeAt]
      exact keeps_bind (keeps_decodeText encoding path) fun _ => keeps_pure _
  | enum t =>
      rw [decodeAt]
      exact keeps_bind (keeps_ofRead t.container.keepsData_read) fun _ => keeps_pure _
  | array length element ih =>
      rw [decodeAt]
      have helement := fun i => ih a scope (path.element i) root
      have helements := keeps_forIndices helement length 0 []
      exact keeps_bind (keeps_align _) fun _ => keeps_bind helements fun _ => keeps_pure _
  | sequence name element ih =>
      rw [decodeAt]
      have helement := fun i => ih a scope (path.element i) root
      refine keeps_bind (keeps_ofArena _) fun n => keeps_bind (keeps_align _) fun _ => ?_
      have helements := keeps_forIndices helement n 0 []
      exact keeps_bind helements fun _ => keeps_pure _
  | struct minAlignment members ih =>
      rw [decodeAt]
      have hcollect : DecodeM.Keeps (DecodeState.At data a)
          (DecodeM.collectIn scope path fun id => decodeFields limits members id) := by
        apply keeps_collectIn root
        apply keeps_decodeFields
        intro m hm b scope p hb
        exact ih m hm b scope p hb
      exact keeps_bind (keeps_align _) fun _ => keeps_bind hcollect fun _ => keeps_pure _
  | variant tag members ih =>
      rw [decodeAt]
      have hmember : ∀ label, DecodeM.Keeps (DecodeState.At data a)
          (decodeMember limits members label scope path) := by
        intro label
        apply keeps_decodeMember
        intro m hm p
        exact ih m hm a scope p root
      exact keeps_bind (keeps_ofArena _) fun label => keeps_bind (keeps_ofArena _) fun _ =>
        keeps_bind (hmember label) fun _ => keeps_pure _

theorem keeps_decodeAt (d : Declaration) (a : Arena) (scope : FrameId) (path : Path)
    (live : a.Live scope) :
    DecodeM.Keeps (DecodeState.At data a) (decodeAt limits d scope path) :=
  keeps_decodeAt_of_root d a scope path live.next_ne_root

/-- A decode that has ended, with a value or with an error at whichever depth, has left the arena as
it was. -/
theorem after_decode_arena (d : Declaration) (name : String) (c : Cursor) {a : Arena}
    {scope : FrameId} (live : a.Live scope) :
    ((decode limits d scope name).after ⟨c, a⟩).arena = a := by
  have h : DecodeM.Keeps (DecodeState.At c.data a) (decode limits d scope name) :=
    fun s hs => keeps_bind (keeps_ofArena _) (fun p => keeps_decodeAt d a scope p live) s hs
  exact (h ⟨c, a⟩ ⟨rfl, rfl⟩).2

theorem after_decode_arena_truncated :
    let d := Declaration.struct 1 [("n", .integer .uint8),
      ("inner", .struct 1 [("x", .integer .uint8), ("y", .integer .uint8)])]
    Arena.empty.Live .root ∧
      decode .standard d .root "s" ⟨⟨#[1, 2], 0⟩, .empty⟩ =
        .error (.read .outOfBounds) ((decode .standard d .root "s").after ⟨⟨#[1, 2], 0⟩, .empty⟩) ∧
      ((decode .standard d .root "s").after ⟨⟨#[1, 2], 0⟩, .empty⟩).arena = .empty := by
  refine ⟨Nat.zero_lt_one, ?_, after_decode_arena _ _ _ Nat.zero_lt_one⟩
  cbv

end Declaration

end TraceFormat
