import TraceFormat.Proofs.Cursor.Number
import TraceFormat.Proofs.Decode.InStep
import TraceFormat.Proofs.Decode.Run

/-! # Decodes behind a prefix

Positions count from the beginning of a region, but a decode takes no notice of where that is, as
long as what is put in front of the region is a multiple of all alignments in the declaration.
Aligning then goes the same way (`alignUp_add`), and each read finds what it found, so many bits
further on (`joinPieces_behind`, `inStep_decodeText_behind`). -/

namespace TraceFormat

/-- The same place in a region behind a prefix. -/
def Cursor.behind (pre : Array UInt8) (c : Cursor) : Cursor :=
  ⟨pre ++ c.data, c.position + pre.size * 8⟩

/-- The same place of a decode in a region behind a prefix. -/
def DecodeState.behind (pre : Array UInt8) (s : DecodeState) : DecodeState :=
  { s with cursor := s.cursor.behind pre }

/-- Whether the second cursor stands where the first one does, behind a prefix. -/
def Cursor.IsBehind (pre : Array UInt8) (c c' : Cursor) : Prop := c' = c.behind pre

open DecodeState (Beside)

theorem DecodeState.eq_behind {pre : Array UInt8} {s t : DecodeState}
    (h : Beside (Cursor.IsBehind pre) s t) : t = s.behind pre := by
  obtain ⟨c, a⟩ := s
  obtain ⟨c', a'⟩ := t
  obtain ⟨rfl, rfl⟩ := h
  rfl

/-! ### Positions -/

theorem alignUp_add {unit n : Nat} (h : 1 < unit → unit ∣ n) (position : Nat) :
    alignUp (position + n) unit = alignUp position unit + n := by
  rcases Nat.lt_or_ge 1 unit with hunit | hunit
  · obtain ⟨k, rfl⟩ := h hunit
    unfold alignUp
    rw [Nat.add_mul_mod_self_left]
    omega
  · rw [alignUp_of_le_one hunit, alignUp_of_le_one hunit]

/-! ### Bits and texts -/

theorem bitAt_behind (pre data : Array UInt8) (j k : Nat) :
    bitAt (pre ++ data) (j + pre.size) k = bitAt data j k := by
  have hget : (pre ++ data)[j + pre.size]? = data[j]? := by
    rw [Array.getElem?_append_right (Nat.le_add_left _ _), Nat.add_sub_cancel]
  simp only [bitAt, Array.getD_eq_getD_getElem?, hget]

theorem joinPieces_behind (pre data : Array UInt8) (order : ByteOrder) (p n : Nat) :
    joinPieces order (pre ++ data) (pieces (p + pre.size * 8) n) =
      joinPieces order data (pieces p n) := by
  refine joinPieces_congr order fun i _ => ?_
  have hdiv : (p + pre.size * 8 + i) / 8 = (p + i) / 8 + pre.size := by omega
  have hplace : order.place (p + pre.size * 8 + i) = order.place (p + i) := by
    cases order <;> simp only [ByteOrder.place] <;> omega
  rw [hdiv, hplace, bitAt_behind]

theorem inStep_readBits_behind (pre : Array UInt8) (n : Nat) (order : ByteOrder) :
    InStep (.strict ReadError) (Cursor.IsBehind pre) Eq (readBits n order) (readBits n order) := by
  rintro ⟨data, p⟩ _ rfl
  have hsize : (pre ++ data).size * 8 < p + pre.size * 8 + n ↔ data.size * 8 < p + n := by
    rw [Array.size_append]
    omega
  rw [Cursor.behind, readBits_apply, readBits_apply, joinPieces_behind]
  simp only [hsize]
  split_ifs
  · exact .error rfl rfl
  · exact .error rfl rfl
  · refine .ok rfl ?_
    rw [Cursor.IsBehind, Cursor.behind, Nat.add_right_comm]

theorem inStep_decodeText_behind (limits : Limits) (pre : Array UInt8) (encoding : Encoding)
    (path : Path) :
    InStep (.strict DecodeError) (Beside (Cursor.IsBehind pre)) Eq
      (Declaration.decodeText limits encoding path)
      (Declaration.decodeText limits encoding path) := by
  rintro ⟨⟨data, s⟩, a⟩ ⟨_, _⟩ ⟨rfl, rfl⟩
  obtain ⟨start, hstart⟩ := Declaration.exists_alignUp_eight s
  have hbehind : alignUp (s + pre.size * 8) 8 = (start + pre.size) * 8 := by
    rw [alignUp_add (fun _ => Nat.dvd_mul_left _ _), hstart, Nat.add_mul]
  have hsize : (pre ++ data).size ≤ start + pre.size ↔ data.size ≤ start := by
    rw [Array.size_append]
    omega
  have hdrop : (pre ++ data).toList.drop (start + pre.size) = data.toList.drop start := by
    rw [Array.toList_append, List.drop_append, Array.length_toList, Nat.add_sub_cancel]
    simp
  have hplace : ∀ n, (⟨pre ++ data, (start + pre.size + n) * 8⟩ : Cursor) =
      Cursor.behind pre ⟨data, (start + n) * 8⟩ := by
    intro n
    rw [Cursor.behind]
    congr 1
    dsimp only
    omega
  rw [Cursor.behind, Declaration.decodeText_apply limits encoding path data a hstart,
    Declaration.decodeText_apply limits encoding path (pre ++ data) a hbehind, hdrop]
  simp only [hsize]
  split_ifs
  · exact .error rfl ⟨hplace 0, rfl⟩
  · generalize TextSpan.ofBytes limits.maxStringLength (data.toList.drop start) = span
    obtain ⟨bytes, length, stop⟩ := span
    dsimp only
    split
    · exact .error rfl ⟨hplace length, rfl⟩
    · exact .ok rfl ⟨hplace length, rfl⟩

/-! ### Decodes -/

namespace Declaration

theorem stepsAlike_behind (limits : Limits) (pre : Array UInt8) :
    StepsAlike (.strict DecodeError) (Cursor.IsBehind pre)
      (fun unit => 1 < unit → unit ∣ pre.size * 8) limits limits where
  refl _ := rfl
  one := fun h => absurd h (Nat.lt_irrefl 1)
  align unit hunit := by
    rintro ⟨data, p⟩ _ rfl
    rw [Cursor.IsBehind, Cursor.behind, Cursor.alignTo, Cursor.behind, alignUp_add hunit]
    rfl
  bits := inStep_readBits_behind pre
  text := inStep_decodeText_behind limits pre
  length _ _ _ := DecodeM.inStep_ofArena (fun _ => rfl) _

/-- A decode behind a prefix whose bits are a multiple of all alignments in the declaration gives
the same value or the same error, as many bits further on. -/
theorem decode_behind (limits : Limits) (d : Declaration) {pre : Array UInt8}
    (h : ∀ unit ∈ d.alignments, 1 < unit → unit ∣ pre.size * 8) (scope : FrameId) (name : String)
    (s : DecodeState) :
    decode limits d scope name (s.behind pre) =
      match decode limits d scope name s with
      | .ok v t => .ok v (t.behind pre)
      | .error e t => .error e (t.behind pre) := by
  have hagree := (stepsAlike_behind limits pre).decode d h scope name s (s.behind pre) ⟨rfl, rfl⟩
  generalize decode limits d scope name s = r, decode limits d scope name (s.behind pre) = r'
    at hagree
  cases hagree with
  | ok hv hs => rw [hv, DecodeState.eq_behind hs]
  | error he hs => exact congrArg₂ _ he.symm (DecodeState.eq_behind hs)
  | alone he => exact he.elim

theorem decode_behind_three_bytes :
    let t : IntegerType := { IntegerType.uint8 with alignment := 24 }
    let members : Members := [("n", .integer t), ("m", .integer .uint8)]
    let s : DecodeState := ⟨⟨#[0, 0, 0, 5, 7], 1⟩, .empty⟩
    let v : Definition := .struct ⟨1, members⟩ (.root "s")
      [.integer t ⟨"s.", "n"⟩ 5, .integer .uint8 ⟨"s.", "m"⟩ 7]
    (∀ unit ∈ (Declaration.struct 1 members).alignments, 1 < unit →
        unit ∣ (#[1, 2, 3] : Array UInt8).size * 8) ∧
      decode .standard (.struct 1 members) .root "s" s =
        .ok v ⟨⟨#[0, 0, 0, 5, 7], 40⟩, .empty⟩ ∧
      decode .standard (.struct 1 members) .root "s" (s.behind #[1, 2, 3]) =
        .ok v ⟨⟨#[1, 2, 3, 0, 0, 0, 5, 7], 64⟩, .empty⟩ := by
  intro t members s v
  have hunits : ∀ unit ∈ (Declaration.struct 1 members).alignments, 1 < unit →
      unit ∣ (#[1, 2, 3] : Array UInt8).size * 8 := by decide
  have hdecode : decode .standard (.struct 1 members) .root "s" s =
      .ok v ⟨⟨#[0, 0, 0, 5, 7], 40⟩, .empty⟩ := by
    dsimp only [v, s, members, t]
    cbv
  refine ⟨hunits, hdecode, ?_⟩
  rw [decode_behind .standard _ hunits .root "s" s, hdecode]
  rfl

end Declaration

end TraceFormat
