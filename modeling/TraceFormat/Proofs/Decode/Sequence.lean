import Mathlib
import TraceFormat.Proofs.Decode.Run

/-! # A sequence is the array that its length says

The length of a sequence is looked up and checked before anything is read.  Where no value of its
name is found, or one that is no integer, or an integer that is negative or above the limit
(`Limits.Forbids`), the sequence is refused, and neither the cursor nor the arena has changed.
Otherwise the sequence is decoded as the array of so many elements.

A sequence fails with any error that one of its elements fails with, and an element may hold another
sequence that is refused.  What makes it a refusal of this sequence is that it fails so whatever its
elements are (`Declaration.Refused`).  `Declaration.sequence_as_array` says when this is, and that
every other sequence is its array, in every frame of every arena.  For one sequence the whole
outcome, by what its name is bound to, is `Declaration.decodeAt_sequence_cases`. -/

namespace TraceFormat

/-- Whether limits keep an integer from being the length of a sequence. -/
def Limits.Forbids (limits : Limits) (t : IntegerType) (storage : BitVec 64) : Prop :=
  (t.signed ∧ storage.toInt < 0) ∨ limits.maxSequenceLength < storage.toNat

instance (limits : Limits) (t : IntegerType) (storage : BitVec 64) :
    Decidable (limits.Forbids t storage) :=
  inferInstanceAs (Decidable (_ ∨ _))

def Definition.IsInteger (v : Definition) : Prop := ∃ t p storage, v = .integer t p storage

/-- An array under another declaration, with the same path and elements. -/
def Definition.redeclareArray (d : Declaration) : Definition → Definition
  | .array _ path elements => .array d path elements
  | v => v

theorem Arena.lookup?_cases (a : Arena) (scope : FrameId) (name : String) :
    a.lookup? scope name = none ∨
      (∃ t p storage, a.lookup? scope name = some (.integer t p storage)) ∨
      ∃ v, a.lookup? scope name = some v ∧ ¬ v.IsInteger := by
  cases h : a.lookup? scope name with
  | none => exact .inl rfl
  | some v =>
      by_cases hv : v.IsInteger
      · obtain ⟨t, p, storage, rfl⟩ := hv
        exact .inr (.inl ⟨t, p, storage, rfl⟩)
      · exact .inr (.inr ⟨v, rfl, hv⟩)

theorem DecodeM.exists_forIndices_eq_ok {α : Type} {action : Nat → DecodeM α}
    (h : ∀ i s, ∃ v t, action i s = .ok v t) (n index : Nat) (done : List α) (s : DecodeState) :
    ∃ vs t, forIndices action n index done s = .ok vs t := by
  induction n generalizing index done s with
  | zero => exact ⟨_, s, rfl⟩
  | succ n ih =>
      obtain ⟨v, s₁, hv⟩ := h index s
      obtain ⟨vs, t, hvs⟩ := ih (index + 1) (v :: done) s₁
      exact ⟨vs, t, bind_eq_ok_iff.mpr ⟨v, s₁, hv, hvs⟩⟩

namespace Declaration

def decodeElements (limits : Limits) (element : Declaration) (n : Nat) (scope : FrameId)
    (path : Path) : DecodeM (List Definition) := do
  DecodeM.align element.alignment
  DecodeM.forIndices (fun i => decodeAt limits element scope (path.element i)) n 0 []

/-- Whether a sequence is refused with `e` for its length: it fails so whatever its elements
are. -/
def Refused (limits : Limits) (name : String) (scope : FrameId) (path : Path) (s : DecodeState)
    (e : DecodeError) : Prop :=
  ∀ element, ∃ t, decodeAt limits (.sequence name element) scope path s = .error e t

variable {limits : Limits} {name : String} {element : Declaration} {scope : FrameId} {path : Path}
  {s : DecodeState} {a : Arena} {n : Nat} {e : DecodeError}

/-! ### The length -/

theorem sequenceLength_of_none (h : a.lookup? scope name = none) :
    sequenceLength limits name scope path a = .error (.unresolvedReference name path.text) := by
  rw [sequenceLength, h]

theorem sequenceLength_of_not_isInteger {v : Definition} (h : a.lookup? scope name = some v)
    (hv : ¬ v.IsInteger) :
    sequenceLength limits name scope path a = .error (.wrongKind name .integer) := by
  rw [sequenceLength, h]
  cases v with
  | integer t p storage => exact absurd ⟨t, p, storage, rfl⟩ hv
  | _ => rfl

theorem sequenceLength_of_integer {t : IntegerType} {p : Path} {storage : BitVec 64}
    (h : a.lookup? scope name = some (.integer t p storage)) :
    sequenceLength limits name scope path a =
      if limits.Forbids t storage then .error (.invalidLength name storage.toInt)
      else .ok storage.toNat := by
  rw [sequenceLength, h]
  simp only [IntegerType.count?, Limits.Forbids, Limits.allowsSequence]
  by_cases hnegative : t.signed = true ∧ storage.toInt < 0
  · simp [hnegative]
  · by_cases hmax : storage.toNat ≤ limits.maxSequenceLength
    · simp [hnegative, hmax]
    · simp [hnegative, hmax, Nat.lt_of_not_le hmax]

theorem sequenceLength_eq_ok_iff :
    sequenceLength limits name scope path a = .ok n ↔
      ∃ t p storage, a.lookup? scope name = some (.integer t p storage) ∧
        ¬ limits.Forbids t storage ∧ n = storage.toNat := by
  rcases a.lookup?_cases scope name with h | ⟨t, p, storage, h⟩ | ⟨v, h, hv⟩
  · rw [sequenceLength_of_none h]
    simp [h]
  · rw [sequenceLength_of_integer h]
    split_ifs with hforbids
    · simp [h, hforbids]
    · simp [h, hforbids, eq_comm]
  · have hother : ∀ t p storage, v ≠ .integer t p storage := fun t p storage heq =>
      hv ⟨t, p, storage, heq⟩
    rw [sequenceLength_of_not_isInteger h hv]
    simp [h, hother]

/-- What can be wrong with a length, and when it is. -/
theorem sequenceLength_eq_error_iff :
    sequenceLength limits name scope path a = .error e ↔
      (a.lookup? scope name = none ∧ e = .unresolvedReference name path.text) ∨
      ((∃ v, a.lookup? scope name = some v ∧ ¬ v.IsInteger) ∧ e = .wrongKind name .integer) ∨
      ∃ t p storage, a.lookup? scope name = some (.integer t p storage) ∧
        limits.Forbids t storage ∧ e = .invalidLength name storage.toInt := by
  rcases a.lookup?_cases scope name with h | ⟨t, p, storage, h⟩ | ⟨v, h, hv⟩
  · rw [sequenceLength_of_none h]
    simp [h, eq_comm]
  · rw [sequenceLength_of_integer h]
    split_ifs with hforbids
    · simp [h, hforbids, Definition.IsInteger, eq_comm]
    · simp [h, hforbids, Definition.IsInteger]
  · have hother : ∀ t p storage, v ≠ .integer t p storage := fun t p storage heq =>
      hv ⟨t, p, storage, heq⟩
    rw [sequenceLength_of_not_isInteger h hv]
    simp [h, hv, hother, eq_comm]

/-! ### The elements -/

theorem decodeAt_array_apply :
    decodeAt limits (.array n element) scope path s =
      (Definition.array (.array n element) path <$>
        decodeElements limits element n scope path) s := by
  rw [decodeAt]
  rfl

theorem decodeAt_sequence_of_error (h : sequenceLength limits name scope path s.arena = .error e) :
    decodeAt limits (.sequence name element) scope path s = .error e s := by
  have hlength : DecodeM.ofArena (sequenceLength limits name scope path) s = .error e s := by
    simp only [DecodeM.ofArena, h]
  rw [decodeAt, bind_eq_error_iff]
  exact .inl hlength

theorem decodeAt_sequence_of_ok (h : sequenceLength limits name scope path s.arena = .ok n) :
    decodeAt limits (.sequence name element) scope path s =
      (Definition.array (.sequence name element) path <$>
        decodeElements limits element n scope path) s := by
  have hlength : DecodeM.ofArena (sequenceLength limits name scope path) s = .ok n s :=
    DecodeM.ofArena_eq_ok_iff.mpr ⟨h, rfl⟩
  rw [decodeAt]
  simp only [bind, EStateM.bind, hlength]
  rfl

/-- A sequence that has a length is the array of this length, under its own declaration. -/
theorem decodeAt_sequence_eq_map (h : sequenceLength limits name scope path s.arena = .ok n) :
    decodeAt limits (.sequence name element) scope path s =
      (Definition.redeclareArray (.sequence name element) <$>
        decodeAt limits (.array n element) scope path) s := by
  rw [map_apply_congr _ decodeAt_array_apply, Functor.map_map]
  exact decodeAt_sequence_of_ok h

theorem decodeAt_sequence_eq_ok_iff (h : sequenceLength limits name scope path s.arena = .ok n)
    {v : Definition} {t : DecodeState} :
    decodeAt limits (.sequence name element) scope path s = .ok v t ↔
      ∃ elements, v = .array (.sequence name element) path elements ∧
        decodeAt limits (.array n element) scope path s =
          .ok (.array (.array n element) path elements) t := by
  rw [decodeAt_sequence_of_ok h, map_eq_ok_iff]
  refine exists_congr fun elements => and_congr_right fun _ => ?_
  rw [decodeAt_array_apply, map_eq_ok_iff]
  simp

theorem decodeAt_sequence_eq_error_iff (h : sequenceLength limits name scope path s.arena = .ok n)
    {t : DecodeState} :
    decodeAt limits (.sequence name element) scope path s = .error e t ↔
      decodeAt limits (.array n element) scope path s = .error e t := by
  rw [decodeAt_sequence_eq_map h, map_eq_error_iff]

theorem exists_decodeElements_eq_ok (limits : Limits) (element : Declaration) (n : Nat)
    (scope : FrameId) (path : Path) (s : DecodeState) :
    ∃ vs t, decodeElements limits (.array 0 element) n scope path s = .ok vs t := by
  have hempty : ∀ i s', ∃ v t,
      decodeAt limits (.array 0 element) scope (path.element i) s' = .ok v t := by
    intro i s'
    rw [decodeAt]
    exact ⟨_, _, rfl⟩
  exact DecodeM.exists_forIndices_eq_ok hempty n 0 [] _

/-- A sequence is refused exactly if its length is an error: one that has a length can be decoded if
its elements are empty arrays. -/
theorem refused_iff :
    Refused limits name scope path s e ↔
      sequenceLength limits name scope path s.arena = .error e := by
  constructor
  · intro hrefused
    obtain ⟨t, ht⟩ := hrefused (.array 0 (.string .utf8))
    cases hlength : sequenceLength limits name scope path s.arena with
    | error e' =>
        rw [decodeAt_sequence_of_error hlength] at ht
        rw [(EStateM.Result.error.inj ht).1]
    | ok n =>
        obtain ⟨elements, t', helements⟩ :=
          exists_decodeElements_eq_ok limits (.string .utf8) n scope path s
        rw [decodeAt_sequence_of_ok hlength, map_eq_error_iff, helements] at ht
        cases ht
  · intro hlength element
    exact ⟨s, decodeAt_sequence_of_error hlength⟩

theorem decodeAt_sequence_apply :
    decodeAt limits (.sequence name element) scope path s =
      match sequenceLength limits name scope path s.arena with
      | .error e => .error e s
      | .ok n =>
          (Definition.redeclareArray (.sequence name element) <$>
            decodeAt limits (.array n element) scope path) s := by
  cases hlength : sequenceLength limits name scope path s.arena with
  | error e => exact decodeAt_sequence_of_error hlength
  | ok n => exact decodeAt_sequence_eq_map hlength

/-- What becomes of a sequence, by what its name is bound to; each refusal leaves the state as it
was. -/
theorem decodeAt_sequence_cases :
    decodeAt limits (.sequence name element) scope path s =
      match s.arena.lookup? scope name with
      | none => .error (.unresolvedReference name path.text) s
      | some (.integer t _ storage) =>
          if limits.Forbids t storage then .error (.invalidLength name storage.toInt) s
          else
            (Definition.redeclareArray (.sequence name element) <$>
              decodeAt limits (.array storage.toNat element) scope path) s
      | some _ => .error (.wrongKind name .integer) s := by
  rw [decodeAt_sequence_apply]
  rcases s.arena.lookup?_cases scope name with h | ⟨t, p, storage, h⟩ | ⟨v, h, hv⟩
  · rw [sequenceLength_of_none h, h]
  · rw [sequenceLength_of_integer h, h]
    dsimp only
    split_ifs <;> rfl
  · rw [sequenceLength_of_not_isInteger h hv, h]
    cases v with
    | integer t p storage => exact absurd ⟨t, p, storage, rfl⟩ hv
    | _ => rfl

/-- A sequence is refused for its length if its name is found nowhere, or names no integer, or one
that the limits forbid, and then neither the cursor nor the arena has changed.  Otherwise it
succeeds and fails as the array of so many elements: with the same elements at the same paths and
the same state, or with the same error in the same state. -/
theorem sequence_as_array (limits : Limits) (name : String) (scope : FrameId) (path : Path)
    (s : DecodeState) :
    (∀ reference within, Refused limits name scope path s (.unresolvedReference reference within) ↔
      s.arena.lookup? scope name = none ∧ reference = name ∧ within = path.text) ∧
    (∀ reference expected, Refused limits name scope path s (.wrongKind reference expected) ↔
      (∃ v, s.arena.lookup? scope name = some v ∧ ¬ v.IsInteger) ∧
        reference = name ∧ expected = .integer) ∧
    (∀ reference length, Refused limits name scope path s (.invalidLength reference length) ↔
      ∃ t p storage, s.arena.lookup? scope name = some (.integer t p storage) ∧
        limits.Forbids t storage ∧ reference = name ∧ length = storage.toInt) ∧
    (∀ e, Refused limits name scope path s e → ∀ element,
      decodeAt limits (.sequence name element) scope path s = .error e s) ∧
    ∀ t p storage, s.arena.lookup? scope name = some (.integer t p storage) →
      ¬ limits.Forbids t storage → ∀ element,
        (∀ v s', decodeAt limits (.sequence name element) scope path s = .ok v s' ↔
          ∃ elements, v = .array (.sequence name element) path elements ∧
            decodeAt limits (.array storage.toNat element) scope path s =
              .ok (.array (.array storage.toNat element) path elements) s') ∧
        ∀ e s', decodeAt limits (.sequence name element) scope path s = .error e s' ↔
          decodeAt limits (.array storage.toNat element) scope path s = .error e s' := by
  refine ⟨fun _ _ => ?_, fun _ _ => ?_, fun _ _ => ?_, fun e hrefused element => ?_,
    fun t p storage hfound hforbids element => ?_⟩
  · simp [refused_iff, sequenceLength_eq_error_iff]
  · simp [refused_iff, sequenceLength_eq_error_iff]
  · simp [refused_iff, sequenceLength_eq_error_iff]
  · exact decodeAt_sequence_of_error (refused_iff.mp hrefused)
  · have hlength : sequenceLength limits name scope path s.arena = .ok storage.toNat := by
      rw [sequenceLength_of_integer hfound, if_neg hforbids]
    exact ⟨fun _ _ => decodeAt_sequence_eq_ok_iff hlength,
      fun _ _ => decodeAt_sequence_eq_error_iff hlength⟩

/-- Two bytes behind a length that is bound to two. -/
theorem sequence_as_array_two :
    let byte : IntegerType := .plain 8 false .big (by decide)
    let length : Definition := .integer byte (.root "n") 2
    let a := Arena.empty.bind .root length
    let elements : List Definition := [.integer byte ((Path.root "b").element 0) 7,
      .integer byte ((Path.root "b").element 1) 9]
    a.lookup? .root "n" = some length ∧ ¬ Limits.standard.Forbids byte 2 ∧
      decodeAt .standard (.sequence "n" (.integer byte)) .root (.root "b") ⟨⟨#[2, 7, 9], 8⟩, a⟩ =
        .ok (.array (.sequence "n" (.integer byte)) (.root "b") elements)
          ⟨⟨#[2, 7, 9], 24⟩, a⟩ := by
  intro byte length a elements
  have hfound : a.lookup? .root "n" = some length := by cbv
  have hforbids : ¬ Limits.standard.Forbids byte 2 := by decide
  have harray : decodeAt .standard (.array 2 (.integer byte)) .root (.root "b")
      ⟨⟨#[2, 7, 9], 8⟩, a⟩ = .ok (.array (.array 2 (.integer byte)) (.root "b") elements)
        ⟨⟨#[2, 7, 9], 24⟩, a⟩ := by
    unfold elements
    cbv
  obtain ⟨-, -, -, -, hcounted⟩ :=
    sequence_as_array .standard "n" .root (.root "b") ⟨⟨#[2, 7, 9], 8⟩, a⟩
  obtain ⟨hok, -⟩ := hcounted byte (.root "n") 2 hfound hforbids (.integer byte)
  exact ⟨hfound, hforbids, (hok _ _).mpr ⟨elements, rfl, harray⟩⟩

end Declaration

end TraceFormat
