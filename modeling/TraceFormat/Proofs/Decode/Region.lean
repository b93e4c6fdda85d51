import TraceFormat.Proofs.Decode.Consumed

/-! # Where a decode ends

A read ends in the region, so a decode that ends with a read ends there too.  Aligning knows no end:
an empty structure, or an array or a sequence without elements, has nothing to read behind its
alignment, and takes the position past the end of a region that is not a multiple of it.

`Definition.trailing` lists the alignments that were asked for since the last leaf of a value.  A
decode ends where these lead from a place in the region (`Declaration.decode_position`): within the
region where they divide it, in particular where there are none, and not always
(`Declaration.decode_ends_behind_region`). -/

namespace TraceFormat

/-! ### The last alignments -/

namespace Definition

mutual

/-- The alignments that have been asked for since the last leaf, in order, of which those in
`before` come from before the value. -/
def trailing : Definition → List Nat → List Nat
  | .integer _ _ _, _ => []
  | .float _ _ _, _ => []
  | .string _ _ _, _ => []
  | .enum _ _ _, _ => []
  | .array d _ elements, before => trailingAll elements (before ++ [d.alignment])
  | .struct t _ fields, before => trailingAll fields (before ++ [t.alignment])
  | .variant _ _ _ current _, before => current.trailing before

/-- The alignments that have been asked for since the last leaf of some values. -/
def trailingAll : List Definition → List Nat → List Nat
  | [], before => before
  | d :: ds, before => trailingAll ds (d.trailing before)

end

theorem trailingAll_concat (ds : List Definition) (d : Definition) (before : List Nat) :
    trailingAll (ds ++ [d]) before = d.trailing (trailingAll ds before) := by
  induction ds generalizing before with
  | nil => rfl
  | cons e ds ih => exact ih (e.trailing before)

end Definition

/-! ### Positions that alignment leads to -/

theorem alignUp_le {position unit high : Nat} (h : position ≤ high)
    (hdvd : 1 < unit → unit ∣ high) : alignUp position unit ≤ high := by
  rcases Nat.lt_or_ge 1 unit with hunit | hunit
  · obtain ⟨k, rfl⟩ := hdvd hunit
    unfold alignUp
    have hsplit := Nat.div_add_mod position unit
    rcases Nat.eq_zero_or_pos (position % unit) with hzero | hpos
    · simpa [hzero] using h
    · have hlt : unit * (position / unit) < unit * k := by omega
      have hnext := Nat.mul_le_mul_left unit (Nat.lt_of_mul_lt_mul_left hlt)
      rw [Nat.mul_succ] at hnext
      rw [Nat.mod_eq_of_lt (by omega)]
      omega
  · rwa [alignUp_of_le_one hunit]

/-- Whether aligning to some units in turn leads to a position from a place between two bounds. -/
def AlignedFrom (low high : Nat) (units : List Nat) (position : Nat) : Prop :=
  ∃ p, low ≤ p ∧ p ≤ high ∧ position = units.foldl alignUp p

namespace AlignedFrom

variable {low high position : Nat} {units : List Nat}

theorem of_le (hlow : low ≤ position) (hhigh : position ≤ high) :
    AlignedFrom low high [] position :=
  ⟨position, hlow, hhigh, rfl⟩

theorem align (h : AlignedFrom low high units position) (unit : Nat) :
    AlignedFrom low high (units ++ [unit]) (alignUp position unit) := by
  obtain ⟨p, hlow, hhigh, rfl⟩ := h
  exact ⟨p, hlow, hhigh, by simp⟩

theorem low_le (h : AlignedFrom low high units position) : low ≤ position := by
  obtain ⟨p, hlow, -, rfl⟩ := h
  induction units generalizing p with
  | nil => exact hlow
  | cons unit units ih => exact ih _ (hlow.trans (le_alignUp p unit))

theorem le_high (h : AlignedFrom low high units position)
    (hdvd : ∀ unit ∈ units, 1 < unit → unit ∣ high) : position ≤ high := by
  obtain ⟨p, -, hhigh, rfl⟩ := h
  induction units generalizing p with
  | nil => exact hhigh
  | cons unit units ih =>
      rw [List.forall_mem_cons] at hdvd
      exact ih hdvd.2 _ (alignUp_le hhigh hdvd.1)

end AlignedFrom

/-! ### Values of every kind -/

namespace Declaration

variable {limits : Limits} {data : Array UInt8} {d : Declaration} {a : Arena} {scope : FrameId}
  {path : Path} {low s e : Nat} {v : Definition} {reads : List Read} {before : List Nat}

theorem alignedFrom_all {high n : Nat} {pos : Nat → Nat} {v : Nat → Definition}
    (hpos : AlignedFrom low high before (pos 0))
    (h : ∀ i < n, ∀ before, AlignedFrom low high before (pos i) →
      AlignedFrom low high ((v i).trailing before) (pos (i + 1))) :
    AlignedFrom low high (Definition.trailingAll ((List.range n).map v) before) (pos n) := by
  induction n with
  | zero => exact hpos
  | succ n ih =>
      rw [List.range_succ, List.map_append, List.map_singleton, Definition.trailingAll_concat]
      exact h n (Nat.lt_succ_self n) _ (ih fun i hi => h i (by omega))

/-- A decode ends at the end of its last read or where its last alignments lead from there. -/
theorem Decodes.alignedFrom (h : Decodes limits data d a scope path s v reads e)
    (hs : AlignedFrom low (data.size * 8) before s) :
    AlignedFrom low (data.size * 8) (v.trailing before) e := by
  have hle := hs.low_le.trans h.le
  induction h generalizing before with
  | integer h =>
      obtain ⟨hfit, -, rfl⟩ := (IntegerType.read_eq_ok_iff _).mp h
      exact .of_le hle hfit
  | float h =>
      obtain ⟨hfit, -, rfl⟩ := (FloatType.read_eq_ok_iff _).mp h
      exact .of_le hle hfit
  | @string encoding a scope path s start span _ hstart hspan _ =>
      have hlength := TextSpan.length_le limits.maxStringLength (data.toList.drop start)
      rw [← hspan, List.length_drop, Array.length_toList] at hlength
      exact .of_le hle (by omega)
  | enum h =>
      obtain ⟨hfit, -, rfl⟩ := (IntegerType.read_eq_ok_iff _).mp h
      exact .of_le hle hfit
  | @array n element a scope path pos v reads s hpos h ih =>
      rw [Definition.trailing, alignment_array]
      refine alignedFrom_all (hpos ▸ hs.align _) fun i hi before' hi' => ?_
      exact ih i hi hi' (hi'.low_le.trans (h i hi).le)
  | @sequence name n element a scope path pos v reads s _ hpos h ih =>
      rw [Definition.trailing, alignment_sequence]
      refine alignedFrom_all (hpos ▸ hs.align _) fun i hi before' hi' => ?_
      exact ih i hi hi' (hi'.low_le.trans (h i hi).le)
  | @struct minAlignment members a scope path pos v reads s hpos h ih =>
      rw [Definition.trailing]
      refine alignedFrom_all (hpos ▸ hs.align _) fun i hi before' hi' => ?_
      exact ih i hi hi' (hi'.low_le.trans (h i hi).le)
  | variant _ _ _ ih =>
      rw [Definition.trailing]
      exact ih hs hle

/-- A decode that begins in the region does not go back, and ends where the alignments since its
last leaf lead from a place in the region.  Where these divide the region it ends in the region, so
that its end is a position to move to. -/
theorem decode_position {name : String} {t : DecodeState} (live : a.Live scope)
    (hs : s ≤ data.size * 8) (h : decode limits d scope name ⟨⟨data, s⟩, a⟩ = .ok v t) :
    s ≤ t.cursor.position ∧
    (∃ p, s ≤ p ∧ p ≤ data.size * 8 ∧ t.cursor.position = (v.trailing []).foldl alignUp p) ∧
    ((∀ unit ∈ v.trailing [], 1 < unit → unit ∣ data.size * 8) →
      t.cursor.position ≤ data.size * 8 ∧
      ∀ q, setPosition t.cursor.position ⟨data, q⟩ = .ok () ⟨data, t.cursor.position⟩) := by
  rw [decode_apply, decodeAt_eq_ok_iff live] at h
  obtain ⟨reads, e, hdecodes, rfl⟩ := h
  have hend : AlignedFrom s (data.size * 8) (v.trailing []) e :=
    hdecodes.alignedFrom (.of_le (Nat.le_refl s) hs)
  refine ⟨hend.low_le, hend, fun hdvd => ?_⟩
  have hle := hend.le_high hdvd
  refine ⟨hle, fun q => ?_⟩
  have hinside : ¬ (⟨data, q⟩ : Cursor).capacity < e := Nat.not_lt.mpr hle
  rw [setPosition, if_neg hinside]

theorem decode_position_mark :
    let members : Members := [("n", .integer .uint8), ("mark", .struct 8 [])]
    let s : DecodeState := ⟨⟨#[5], 0⟩, .empty⟩
    let v : Definition := .struct ⟨1, members⟩ (.root "s")
      [.integer .uint8 ⟨"s.", "n"⟩ 5, .struct ⟨8, []⟩ ⟨"s.", "mark"⟩ []]
    Arena.empty.Live .root ∧ 0 ≤ (#[5] : Array UInt8).size * 8 ∧
      decode .standard (.struct 1 members) .root "s" s = .ok v ⟨⟨#[5], 8⟩, .empty⟩ ∧
      v.trailing [] = [8] ∧ 8 ≤ (#[5] : Array UInt8).size * 8 ∧
      setPosition 8 ⟨#[5], 0⟩ = .ok () ⟨#[5], 8⟩ := by
  intro members s v
  have live : Arena.empty.Live .root := Nat.zero_lt_one
  have hs : 0 ≤ (#[5] : Array UInt8).size * 8 := Nat.zero_le _
  have hdecode : decode .standard (.struct 1 members) .root "s" s =
      .ok v ⟨⟨#[5], 8⟩, .empty⟩ := by
    dsimp only [s, v, members]
    cbv
  have htrailing : v.trailing [] = [8] := by
    simp [v, Definition.trailing, Definition.trailingAll, StructType.alignment,
      StructType.declaration, alignment_struct]
  obtain ⟨-, -, hinside⟩ := decode_position live hs hdecode
  have hdvd : ∀ unit ∈ v.trailing [], 1 < unit → unit ∣ (#[5] : Array UInt8).size * 8 := by
    simp [htrailing]
  obtain ⟨hle, hset⟩ := hinside hdvd
  exact ⟨live, hs, hdecode, htrailing, hle, hset 0⟩

/-- An empty structure of 16 bits alignment is decoded in a region of a byte, and ends behind it. -/
theorem decode_ends_behind_region :
    Arena.empty.Live .root ∧ 1 ≤ (⟨#[0], 1⟩ : Cursor).capacity ∧
      decode .standard (.struct 16 []) .root "s" ⟨⟨#[0], 1⟩, .empty⟩ =
        .ok (.struct ⟨16, []⟩ (.root "s") []) ⟨⟨#[0], 16⟩, .empty⟩ ∧
      ¬ 16 ≤ (⟨#[0], 16⟩ : Cursor).capacity ∧
      setPosition 16 ⟨#[0], 16⟩ = .error .outOfBounds ⟨#[0], 16⟩ := by
  refine ⟨Nat.zero_lt_one, by decide, ?_, by decide, rfl⟩
  cbv

end Declaration

end TraceFormat
