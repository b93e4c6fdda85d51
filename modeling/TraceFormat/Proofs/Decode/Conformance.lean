import Mathlib.Data.List.Forall2
import TraceFormat.Proofs.Cursor.Number
import TraceFormat.Proofs.Decode.Run

/-! # Decoded values conform to their declarations

`Definition.Conforms` says of one node of a decoded tree what its declaration promises: the bounds
of an integer, the fields of a structure in order, the number of elements and the place of each,
the member that a label selects.

Every node of a tree that was decoded has a derivation of its own (`Decodes.exists_of_node`), in the
arena in which it was decoded, so it is enough to look at the rules one by one
(`Decodes.conforms`).  `Declaration.decode_conforms` is what this says of the decoder. -/

namespace TraceFormat

namespace Definition

/-- The values that were decoded as parts of a value.  The siblings of a variant are not among them:
they have been there before it. -/
def parts : Definition → List Definition
  | .array _ _ elements => elements
  | .struct _ _ fields => fields
  | .variant _ _ _ current _ => [current]
  | _ => []

/-- The nodes of the tree of a value. -/
inductive Node (v : Definition) : Definition → Prop
  | root : Node v v
  | part {w x : Definition} : Node v w → x ∈ w.parts → Node v x

end Definition

/-- Whether storage holds a number within the bounds of an integer type. -/
def IntegerType.Holds (t : IntegerType) (storage : BitVec 64) : Prop :=
  t.minValue ≤ t.value storage ∧ t.value storage ≤ t.maxValue

/-- Whether values are the elements of an array at a path. -/
def Declaration.Elements (element : Declaration) (path : Path)
    (elements : List Definition) : Prop :=
  ∀ i (h : i < elements.length), elements[i].path = path.element i ∧
    elements[i].declaration = element

/-- Whether a value is the field of a structure at a path that a member declares. -/
def Declaration.Field (path : Path) (field : Definition) (member : String × Declaration) : Prop :=
  field.name = member.1 ∧ field.path = path.child member.1 ∧ field.declaration = member.2

/-- Whether a node of a tree is what its declaration promises, the nodes below it apart. -/
def Definition.Conforms (limits : Limits) : Definition → Prop
  | .integer t _ storage => t.Holds storage
  | .float _ _ _ => True
  | .string _ _ _ => True
  | .enum t _ storage => t.container.Holds storage
  | .array (.array n element) path elements =>
      elements.length = n ∧ element.Elements path elements
  | .array (.sequence _ element) path elements =>
      elements.length ≤ limits.maxSequenceLength ∧ element.Elements path elements
  | .array _ _ _ => False
  | .struct t path fields => List.Forall₂ (Declaration.Field path) fields t.members
  | .variant t path label current _ =>
      label ∈ t.members.names ∧ t.members.find? label = some current.declaration ∧
        current.path = path.child label

theorem IntegerType.holds_of_read (t : IntegerType) {data : Array UInt8} {s e : Nat}
    {storage : BitVec 64} (h : t.read ⟨data, s⟩ = .ok storage ⟨data, e⟩) : t.Holds storage := by
  obtain ⟨-, rfl, -⟩ := t.read_eq_ok_iff.mp h
  exact t.value_toStorage_mem (joinPieces_lt _ _ _ _)

theorem Members.mem_names_of_find? {members : Members} {name : String} {d : Declaration}
    (h : members.find? name = some d) : name ∈ members.names := by
  obtain ⟨m, hm, -⟩ := Option.map_eq_some_iff.mp h
  have hname := List.find?_some hm
  exact List.mem_map.mpr ⟨m, List.mem_of_find?_eq_some hm, by simpa using hname⟩

namespace Declaration

variable {limits : Limits} {data : Array UInt8} {d : Declaration} {a : Arena} {scope : FrameId}
  {path : Path} {s e : Nat} {v : Definition} {reads : List Read}

theorem sequenceLength_le {name : String} {n : Nat}
    (h : sequenceLength limits name scope path a = .ok n) : n ≤ limits.maxSequenceLength := by
  unfold sequenceLength at h
  split at h
  · cases h
  · split at h
    · cases h
    · split at h
      · cases h
        simpa [Limits.allowsSequence] using ‹limits.allowsSequence _ = true›
      · cases h
  · cases h

theorem Decodes.declaration_eq (h : Decodes limits data d a scope path s v reads e) :
    v.declaration = d := by
  cases h <;> rfl

theorem Decodes.path_eq (h : Decodes limits data d a scope path s v reads e) : v.path = path := by
  cases h <;> rfl

theorem elements_of_decodes {n : Nat} {pos : Nat → Nat} {v : Nat → Definition}
    {reads : Nat → List Read}
    (h : ∀ i < n, Decodes limits data d a scope (path.element i) (pos i) (v i) (reads i)
      (pos (i + 1))) :
    d.Elements path ((List.range n).map v) := by
  intro i hi
  rw [List.length_map, List.length_range] at hi
  simpa using ⟨(h i hi).path_eq, (h i hi).declaration_eq⟩

theorem fields_of_decodes {members : Members} {pos : Nat → Nat} {v : Nat → Definition}
    {reads : Nat → List Read} {frames : Nat → Arena}
    (h : ∀ i (h : i < members.length),
      Decodes limits data members[i].2 (frames i) scope (path.child members[i].1) (pos i) (v i)
        (reads i) (pos (i + 1))) :
    List.Forall₂ (Field path) ((List.range members.length).map v) members := by
  rw [List.forall₂_iff_get]
  refine ⟨by simp, fun i hi hi' => ?_⟩
  have hpath := (h i hi').path_eq
  simp only [List.get_eq_getElem, List.getElem_map, List.getElem_range]
  refine ⟨?_, hpath, (h i hi').declaration_eq⟩
  rw [Definition.name, hpath, Path.name_child]

theorem Decodes.conforms (h : Decodes limits data d a scope path s v reads e) :
    v.Conforms limits := by
  cases h with
  | integer h => exact IntegerType.holds_of_read _ h
  | float => trivial
  | string => trivial
  | enum h => exact IntegerType.holds_of_read _ h
  | array _ h => exact ⟨by simp, elements_of_decodes h⟩
  | sequence hn _ h => exact ⟨by simpa using sequenceLength_le hn, elements_of_decodes h⟩
  | struct _ h => exact fields_of_decodes h
  | variant _ hmember h =>
      refine ⟨Members.mem_names_of_find? hmember, ?_, h.path_eq⟩
      rw [h.declaration_eq]
      exact hmember

/-- The parts of a value have been decoded themselves. -/
theorem Decodes.exists_of_mem_parts {x : Definition}
    (h : Decodes limits data d a scope path s v reads e) (hx : x ∈ v.parts) :
    ∃ d a scope path s reads e, Decodes limits data d a scope path s x reads e := by
  cases h with
  | integer | float | string | enum => cases hx
  | array _ h | sequence _ _ h =>
      obtain ⟨i, hi, rfl⟩ := List.mem_map.mp hx
      exact ⟨_, _, _, _, _, _, _, h i (List.mem_range.mp hi)⟩
  | struct _ h =>
      obtain ⟨i, hi, rfl⟩ := List.mem_map.mp hx
      exact ⟨_, _, _, _, _, _, _, h i (List.mem_range.mp hi)⟩
  | variant _ _ h =>
      obtain rfl := List.mem_singleton.mp hx
      exact ⟨_, _, _, _, _, _, _, h⟩

/-- The nodes of a tree have been decoded, each in an arena of its own. -/
theorem Decodes.exists_of_node {x : Definition}
    (h : Decodes limits data d a scope path s v reads e) (hx : v.Node x) :
    ∃ d a scope path s reads e, Decodes limits data d a scope path s x reads e := by
  induction hx with
  | root => exact ⟨_, _, _, _, _, _, _, h⟩
  | part _ hmem ih =>
      obtain ⟨_, _, _, _, _, _, _, h⟩ := ih
      exact h.exists_of_mem_parts hmem

theorem Decodes.conforms_of_node {x : Definition}
    (h : Decodes limits data d a scope path s v reads e) (hx : v.Node x) : x.Conforms limits := by
  obtain ⟨_, _, _, _, _, _, _, hnode⟩ := h.exists_of_node hx
  exact hnode.conforms

/-- A value that was decoded has the declaration it was decoded by, and all nodes of its tree
conform. -/
theorem decode_conforms {c : Cursor} {name : String} {t : DecodeState} (live : a.Live scope)
    (h : decode limits d scope name ⟨c, a⟩ = .ok v t) :
    v.declaration = d ∧ v.path = a.fieldPath scope name ∧ ∀ x, v.Node x → x.Conforms limits := by
  rw [decode_apply, decodeAt_eq_ok_iff live] at h
  obtain ⟨reads, e, hdecodes, -⟩ := h
  refine ⟨hdecodes.declaration_eq, hdecodes.path_eq, fun x hx => ?_⟩
  obtain ⟨_, _, _, _, _, _, _, hnode⟩ := hdecodes.exists_of_node hx
  exact hnode.conforms

theorem decode_conforms_nibbles :
    ∃ nibble v, decode .standard (.array 2 (.integer nibble)) .root "a" ⟨⟨#[0x9F], 0⟩, .empty⟩ =
        .ok v ⟨⟨#[0x9F], 8⟩, .empty⟩ ∧
      v.declaration = .array 2 (.integer nibble) ∧ ∀ x, v.Node x → x.Conforms .standard := by
  have live : Arena.empty.Live .root := Nat.zero_lt_one
  let nibble : IntegerType := .plain 4 true .big (by decide)
  have hread : ∀ i < 2, nibble.read ⟨#[0x9F], 4 * i⟩ =
      .ok (if i = 0 then -7 else -1) ⟨#[0x9F], 4 * i + 4⟩ := by
    intro i hi
    rw [IntegerType.read_eq_ok_iff]
    obtain rfl | rfl : i = 0 ∨ i = 1 := by omega
    all_goals simp [nibble, IntegerType.plain, IntegerType.defaultAlignment, alignUp, toStorage,
      pieces, joinPieces, Piece.total, Piece.read, Piece.shift]
  have hdecodes := @Decodes.array .standard #[0x9F] 2 (.integer nibble) .empty .root (.root "a")
    (fun i => 4 * i) _ _ 0 (by simp [nibble, IntegerType.plain, IntegerType.defaultAlignment,
      alignUp]) fun i hi => .integer (hread i hi)
  have hdecode : decode .standard (.array 2 (.integer nibble)) .root "a"
      ⟨⟨#[0x9F], 0⟩, .empty⟩ = .ok _ ⟨⟨#[0x9F], 8⟩, .empty⟩ := hdecodes.decodeAt_eq live
  obtain ⟨hdeclaration, -, hnodes⟩ := decode_conforms live hdecode
  exact ⟨nibble, _, hdecode, hdeclaration, hnodes⟩

end Declaration

end TraceFormat
