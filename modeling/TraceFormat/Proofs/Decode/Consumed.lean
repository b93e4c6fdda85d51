import TraceFormat.Proofs.Cursor.Number
import TraceFormat.Proofs.Cursor.Text
import TraceFormat.Proofs.Decode.Run

/-! # A decode depends only on what it has consumed

A decode never goes back (`Declaration.Decodes.le`), so a decode that ends within the first part of
a region has been within this part all the time, and what follows the part does not matter to it
(`Declaration.Decodes.of_append`).  Of a text this needs that its NUL has been found: a text that
goes on to the end of the region is within the first part only if nothing follows. -/

namespace TraceFormat

variable {region more : Array UInt8}

/-! ### Positions -/

theorem le_alignUp (position unit : Nat) : position ≤ alignUp position unit :=
  Nat.le_add_right _ _

theorem position_le {pos : Nat → Nat} {n i : Nat} (h : ∀ i < n, pos i ≤ pos (i + 1)) (hi : i ≤ n) :
    pos i ≤ pos n := by
  induction n with
  | zero =>
      obtain rfl : i = 0 := Nat.le_zero.mp hi
      exact Nat.le_refl _
  | succ n ih =>
      rcases Nat.lt_or_ge n i with hlt | hle
      · obtain rfl : i = n + 1 := by omega
        exact Nat.le_refl _
      · have hrest := ih (fun j hj => h j (by omega)) hle
        have hlast := h n (Nat.lt_succ_self n)
        omega

/-! ### Numbers and texts -/

theorem bitAt_append {j : Nat} (hj : j < region.size) (k : Nat) :
    bitAt (region ++ more) j k = bitAt region j k := by
  have hget : (region ++ more)[j]? = region[j]? := Array.getElem?_append_left hj
  simp only [bitAt, Array.getD_eq_getD_getElem?, hget]

theorem joinPieces_append (order : ByteOrder) {p n : Nat} (h : p + n ≤ region.size * 8) :
    joinPieces order (region ++ more) (pieces p n) = joinPieces order region (pieces p n) := by
  refine joinPieces_congr order fun i hi => bitAt_append ?_ _
  omega

theorem IntegerType.read_of_append (t : IntegerType) {s e : Nat} {storage : BitVec 64}
    (h : t.read ⟨region ++ more, s⟩ = .ok storage ⟨region ++ more, e⟩) (he : e ≤ region.size * 8) :
    t.read ⟨region, s⟩ = .ok storage ⟨region, e⟩ := by
  rw [read_eq_ok_iff] at h ⊢
  obtain ⟨-, hstorage, rfl⟩ := h
  rw [joinPieces_append t.byteOrder he] at hstorage
  exact ⟨he, hstorage, rfl⟩

theorem FloatType.read_of_append (t : FloatType) {s e : Nat} {value : FloatingPoint.Binary64}
    (h : t.read ⟨region ++ more, s⟩ = .ok value ⟨region ++ more, e⟩) (he : e ≤ region.size * 8) :
    t.read ⟨region, s⟩ = .ok value ⟨region, e⟩ := by
  rw [read_eq_ok_iff] at h ⊢
  obtain ⟨-, hvalue, rfl⟩ := h
  rw [joinPieces_append t.byteOrder he] at hvalue
  exact ⟨he, hvalue, rfl⟩

/-! ### Values of every kind -/

namespace Declaration

variable {limits : Limits} {d : Declaration} {a : Arena} {scope : FrameId} {path : Path}
  {s e : Nat} {v : Definition} {reads : List Read}

theorem read_position_le {data : Array UInt8} {t : IntegerType} {storage : BitVec 64}
    (h : t.read ⟨data, s⟩ = .ok storage ⟨data, e⟩) : s ≤ e := by
  obtain ⟨-, -, rfl⟩ := t.read_eq_ok_iff.mp h
  have halign := le_alignUp s t.alignment
  omega

theorem Decodes.le {data : Array UInt8} (h : Decodes limits data d a scope path s v reads e) :
    s ≤ e := by
  induction h with
  | integer h => exact read_position_le h
  | @float t a scope path s e value h =>
      obtain ⟨-, -, rfl⟩ := t.read_eq_ok_iff.mp h
      have halign := le_alignUp s t.alignment
      omega
  | @string encoding a scope path s start span hstart _ _ _ =>
      have halign := le_alignUp s 8
      omega
  | enum h => exact read_position_le h
  | @array n element a scope path pos v reads s hpos _ ih =>
      have halign := le_alignUp s element.alignment
      have helements := position_le ih (Nat.zero_le n)
      omega
  | @sequence name n element a scope path pos v reads s _ hpos _ ih =>
      have halign := le_alignUp s element.alignment
      have helements := position_le ih (Nat.zero_le n)
      omega
  | @struct minAlignment members a scope path pos v reads s hpos _ ih =>
      have halign := le_alignUp s (Declaration.struct minAlignment members).alignment
      have hfields := position_le ih (Nat.zero_le members.length)
      omega
  | variant _ _ _ ih => exact ih

/-- A decode that ends within the first part of a region is a decode of this part. -/
theorem Decodes.of_append (h : Decodes limits (region ++ more) d a scope path s v reads e)
    (he : e ≤ region.size * 8) : Decodes limits region d a scope path s v reads e := by
  induction h with
  | integer h => exact .integer (IntegerType.read_of_append _ h he)
  | float h => exact .float (FloatType.read_of_append _ h he)
  | @string encoding a scope path s start span hstart hsize hspan hstop =>
      have hdrop : (region ++ more).toList.drop start =
          region.toList.drop start ++ more.toList.drop (start - region.size) := by
        rw [Array.toList_append, List.drop_append, Array.length_toList]
      have hne : (region ++ more).toList.drop start ≠ [] := by
        simpa using hsize
      subst hspan
      have hpos := TextSpan.length_pos hstop hne
      have hlt : start < region.size := by omega
      rw [hdrop] at hstop he
      have hlength : (region.toList.drop start).length = region.size - start := by simp
      have hspan := TextSpan.ofBytes_of_append hstop (by omega)
      rw [← hspan] at hstop
      rw [hdrop, ← hspan]
      exact .string hstart hlt rfl hstop
  | enum h => exact .enum (IntegerType.read_of_append _ h he)
  | @array n element a scope path pos v reads s hpos h ih =>
      refine .array hpos fun i hi => ih i hi ?_
      have hrest := position_le (i := i + 1) (fun j hj => (h j hj).le) hi
      omega
  | @sequence name n element a scope path pos v reads s hn hpos h ih =>
      refine .sequence hn hpos fun i hi => ih i hi ?_
      have hrest := position_le (i := i + 1) (fun j hj => (h j hj).le) hi
      omega
  | @struct minAlignment members a scope path pos v reads s hpos h ih =>
      refine .struct hpos fun i hi => ih i hi ?_
      have hrest := position_le (i := i + 1) (fun j hj => (h j hj).le) hi
      omega
  | variant hlabel hd _ ih => exact .variant hlabel hd (ih he)

/-- A decode depends only on the bytes that it has consumed: where it ends within the first part of
a region, this part alone decodes to the same value and to the same position. -/
theorem decode_of_append {name : String} {t : DecodeState} (live : a.Live scope)
    (h : decode limits d scope name ⟨⟨region ++ more, s⟩, a⟩ = .ok v t)
    (ht : t.cursor.position ≤ region.size * 8) :
    decode limits d scope name ⟨⟨region, s⟩, a⟩ = .ok v ⟨⟨region, t.cursor.position⟩, a⟩ := by
  rw [decode_apply] at h ⊢
  obtain ⟨reads, e, hdecodes, rfl⟩ := (decodeAt_eq_ok_iff live).mp h
  exact (hdecodes.of_append ht).decodeAt_eq live

theorem decode_of_append_struct :
    let d := Declaration.struct 1 [("n", .integer .uint8), ("text", .string .ascii)]
    ∃ v, decode .standard d .root "s" ⟨⟨#[5, 97, 0] ++ #[98], 0⟩, .empty⟩ =
        .ok v ⟨⟨#[5, 97, 0] ++ #[98], 24⟩, .empty⟩ ∧
      decode .standard d .root "s" ⟨⟨#[5, 97, 0], 0⟩, .empty⟩ =
        .ok v ⟨⟨#[5, 97, 0], 24⟩, .empty⟩ := by
  intro d
  have live : Arena.empty.Live .root := Nat.zero_lt_one
  have hread : IntegerType.uint8.read ⟨#[5, 97, 0, 98], 0⟩ = .ok 5 ⟨#[5, 97, 0, 98], 8⟩ := by
    rw [IntegerType.read_eq_ok_iff]
    simp [IntegerType.uint8, IntegerType.plain, IntegerType.defaultAlignment, alignUp, toStorage,
      pieces, joinPieces, Piece.total, Piece.read, Piece.shift]
  have hdecodes := @Decodes.struct .standard #[5, 97, 0, 98] 1
    [("n", .integer .uint8), ("text", .string .ascii)] .empty .root (.root "s")
    (prepend 0 (prepend 8 fun _ => 24))
    (prepend (.integer .uint8 ((Path.root "s").child "n") 5)
      fun _ => .string .ascii ((Path.root "s").child "text") (Encoding.ascii.decode [97]))
    (prepend [.bits 0 8 .big] fun _ => [.text 1 .ascii ⟨[97], 2, .terminator⟩]) 0
    (by simp [prepend, alignment_struct, IntegerType.uint8, IntegerType.plain,
      IntegerType.defaultAlignment, alignUp])
    (by
      rintro (_ | _ | i) hi
      · exact .integer hread
      · exact @Decodes.string .standard #[5, 97, 0, 98] .ascii _ _ _ 8 1 ⟨[97], 2, .terminator⟩ rfl
          (by decide) rfl (by decide)
      · have hlt : i + 2 < 2 := hi
        omega)
  have hdecode : decode .standard d .root "s" ⟨⟨#[5, 97, 0] ++ #[98], 0⟩, .empty⟩ =
      .ok _ ⟨⟨#[5, 97, 0] ++ #[98], 24⟩, .empty⟩ := hdecodes.decodeAt_eq live
  have hend : 24 ≤ (#[5, 97, 0] : Array UInt8).size * 8 := by decide
  exact ⟨_, hdecode, decode_of_append live hdecode hend⟩

end Declaration

end TraceFormat
