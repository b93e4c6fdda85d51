import TraceFormat.Definition.Write
import TraceFormat.Proofs.Cursor.Number
import TraceFormat.Proofs.Cursor.Text
import TraceFormat.Proofs.Decode.Run

/-! # Writing what was decoded

A value that is written where it was decoded puts back the bits that it was read from.  Both run
over the same derivation (`Declaration.Decodes`): each of its reads covers some bits of the region
(`Read.Covers`), and writing brings just these bits into a target, whatever the target holds
(`Decodes.restores`).  A decode depends on no other bits (`Decodes.congr`), so the target decodes to
the same value (`Declaration.write_decode`).

A text has to be whole for this (`Read.Whole`): where no NUL ends it the one that is written has no
place, and bytes that are no text in the encoding have been replaced. -/

namespace TraceFormat

/-! ### Covered bits -/

/-- Whether a read takes bit `k` of byte `j`. -/
def Read.Covers : Read → (j k : Nat) → Prop
  | .bits position n order, j, k =>
      k < 8 ∧ position ≤ order.position j k ∧ order.position j k < position + n
  | .text start _ span, j, k => k < 8 ∧ start ≤ j ∧ j < start + span.length

/-- Whether what has been read can be written again: a text needs its NUL and the bytes of an
encoding. -/
def Read.Whole : Read → Prop
  | .bits _ _ _ => True
  | .text _ encoding span => span.stop = .terminator ∧ encoding.Accepts span.bytes

/-- Whether one of some reads takes bit `k` of byte `j`. -/
def Covered (reads : List Read) (j k : Nat) : Prop := ∃ r ∈ reads, r.Covers j k

theorem covered_append {reads reads' : List Read} {j k : Nat} :
    Covered (reads ++ reads') j k ↔ Covered reads j k ∨ Covered reads' j k := by
  simp only [Covered, List.mem_append, or_and_right, exists_or]

theorem covered_singleton {r : Read} {j k : Nat} : Covered [r] j k ↔ r.Covers j k := by
  simp only [Covered, List.mem_singleton, exists_eq_left]

theorem mem_flatMap_range {n i : Nat} {reads : Nat → List Read} {r : Read} (hi : i < n)
    (hr : r ∈ reads i) : r ∈ (List.range n).flatMap reads :=
  List.mem_flatMap.mpr ⟨i, List.mem_range.mpr hi, hr⟩

theorem Covered.flatMap {n i j k : Nat} {reads : Nat → List Read} (hi : i < n)
    (h : Covered (reads i) j k) : Covered ((List.range n).flatMap reads) j k := by
  obtain ⟨r, hr, hc⟩ := h
  exact ⟨r, mem_flatMap_range hi hr, hc⟩

/-- `result` has the covered bits from `source` and all others from `target`. -/
structure Patched (reads : List Read) (source target result : Array UInt8) : Prop where
  size : result.size = target.size
  covered : ∀ j k, Covered reads j k → bitAt result j k = bitAt source j k
  other : ∀ j k, ¬ Covered reads j k → bitAt result j k = bitAt target j k

theorem Patched.nil (source target : Array UInt8) : Patched [] source target target :=
  ⟨rfl, fun _ _ h => by simp [Covered] at h, fun _ _ _ => rfl⟩

theorem Patched.append {reads reads' : List Read} {source target middle result : Array UInt8}
    (h : Patched reads source target middle) (h' : Patched reads' source middle result) :
    Patched (reads ++ reads') source target result := by
  constructor
  · exact h'.size.trans h.size
  · -- what both cover is put back twice, from the same source
    intro j k hc
    by_cases hc' : Covered reads' j k
    · exact h'.covered j k hc'
    · rw [h'.other j k hc']
      exact h.covered j k ((covered_append.mp hc).resolve_right hc')
  · intro j k hc
    rw [covered_append, not_or] at hc
    rw [h'.other j k hc.2, h.other j k hc.1]

/-! ### Actions that put bits back -/

/-- Run from position `s`, an action brings the covered bits of a region into any target of its size
and ends at `e`. -/
def Restores (data : Array UInt8) (action : WriteM Unit) (s : Nat) (reads : List Read)
    (e : Nat) : Prop :=
  ∀ target : Array UInt8, target.size = data.size →
    ∃ result, action ⟨target, s⟩ = .ok () ⟨result, e⟩ ∧ Patched reads data target result

namespace Restores

variable {data : Array UInt8} {s e : Nat} {reads reads' : List Read}

theorem pure (data : Array UInt8) (s : Nat) : Restores data (pure ()) s [] s := fun target _ =>
  ⟨target, rfl, .nil data target⟩

theorem bind {x : WriteM Unit} {f : Unit → WriteM Unit} {m : Nat} (hx : Restores data x s reads m)
    (hf : Restores data (f ()) m reads' e) : Restores data (x >>= f) s (reads ++ reads') e := by
  intro target hsize
  obtain ⟨middle, hmiddle, hp⟩ := hx target hsize
  obtain ⟨result, hresult, hp'⟩ := hf middle (hp.size.trans hsize)
  exact ⟨result, bind_eq_ok_iff.mpr ⟨(), _, hmiddle, hresult⟩, hp.append hp'⟩

theorem align_bind {f : Unit → WriteM Unit} {unit : Nat}
    (hf : Restores data (f ()) (alignUp s unit) reads e) :
    Restores data (alignTo unit >>= f) s reads e := fun target hsize => by
  obtain ⟨result, hresult, hp⟩ := hf target hsize
  exact ⟨result, bind_eq_ok_iff.mpr ⟨(), ⟨target, alignUp s unit⟩, rfl, hresult⟩, hp⟩

theorem writeAll {n : Nat} {pos : Nat → Nat} {v : Nat → Definition} {reads : Nat → List Read}
    (h : ∀ i < n, Restores data (v i).write (pos i) (reads i) (pos (i + 1))) :
    Restores data (Definition.writeAll ((List.range n).map v)) (pos 0)
      ((List.range n).flatMap reads) (pos n) := by
  induction n generalizing pos v reads with
  | zero =>
      rw [List.range_zero, List.map_nil, List.flatMap_nil, Definition.writeAll]
      exact .pure data _
  | succ n ih =>
      rw [List.range_succ_eq_map, List.map_cons, List.flatMap_cons, Definition.writeAll,
        List.map_map, List.flatMap_map]
      refine .bind (h 0 (by omega)) ?_
      exact ih fun i hi => h (i + 1) (by omega)

end Restores

/-! ### Numbers and texts -/

theorem covers_bits {p n i : Nat} {order : ByteOrder} (hi : i < n) :
    (Read.bits p n order).Covers ((p + i) / 8) (order.place (p + i)) := by
  refine ⟨order.place_lt _, ?_⟩
  rw [order.position_place]
  omega

theorem IntegerType.read_congr (t : IntegerType) {data data' : Array UInt8} {s e : Nat}
    {storage : BitVec 64} (hsize : data'.size = data.size)
    (hbits : ∀ j k, (Read.bits (alignUp s t.alignment) t.length t.byteOrder).Covers j k →
      bitAt data' j k = bitAt data j k)
    (h : t.read ⟨data, s⟩ = .ok storage ⟨data, e⟩) :
    t.read ⟨data', s⟩ = .ok storage ⟨data', e⟩ := by
  rw [read_eq_ok_iff] at h ⊢
  rw [hsize, joinPieces_congr t.byteOrder fun i hi => hbits _ _ (covers_bits hi)]
  exact h

theorem FloatType.read_congr (t : FloatType) {data data' : Array UInt8} {s e : Nat}
    {value : FloatingPoint.Binary64} (hsize : data'.size = data.size)
    (hbits : ∀ j k, (Read.bits (alignUp s t.alignment) t.length t.byteOrder).Covers j k →
      bitAt data' j k = bitAt data j k)
    (h : t.read ⟨data, s⟩ = .ok value ⟨data, e⟩) :
    t.read ⟨data', s⟩ = .ok value ⟨data', e⟩ := by
  rw [read_eq_ok_iff] at h ⊢
  rw [hsize, joinPieces_congr t.byteOrder fun i hi => hbits _ _ (covers_bits hi)]
  exact h

theorem IntegerType.restores_write (t : IntegerType) {data : Array UInt8} {s e : Nat}
    {storage : BitVec 64} (h : t.read ⟨data, s⟩ = .ok storage ⟨data, e⟩) :
    Restores data (t.write storage) s
      [.bits (alignUp s t.alignment) t.length t.byteOrder] e := by
  obtain ⟨hfit, rfl, rfl⟩ := t.read_eq_ok_iff.mp h
  intro target hsize
  rw [← hsize] at hfit
  refine ⟨_, by rw [write_apply, if_neg (by omega)], size_splitPieces _ _ _ _, ?_, ?_⟩
  · rintro j k hc
    obtain ⟨hk, hlow, hhigh⟩ := covered_singleton.mp hc
    have hi : t.byteOrder.position j k - alignUp s t.alignment < t.length := by omega
    rw [bitAt_splitPieces _ _ hfit j hk, if_pos ⟨hlow, hhigh⟩,
      testBit_toStorage t.length_le _ _ (t.byteOrder.weight_lt hi), testBit_joinPieces _ _ _ _ hi,
      Nat.add_sub_cancel' hlow, t.byteOrder.position_div hk, t.byteOrder.place_position hk]
  · intro j k hc
    rw [covered_singleton] at hc
    rcases Nat.lt_or_ge k 8 with hk | hk
    · rw [bitAt_splitPieces _ _ hfit j hk, if_neg fun hin => hc ⟨hk, hin⟩]
    · rw [bitAt_of_le hk, bitAt_of_le hk]

theorem restores_writeText {data : Array UInt8} {start : Nat} {limit : Option Nat}
    {encoding : Encoding} {span : TextSpan}
    (hspan : span = TextSpan.ofBytes limit (data.toList.drop start))
    (hw : (Read.text start encoding span).Whole) :
    Restores data (writeText (encoding.decode span.bytes)) (start * 8)
      [.text start encoding span] ((start + span.length) * 8) := by
  obtain ⟨hstop, haccepts⟩ := hw
  obtain ⟨tail, hrest, hnul, hlength⟩ := TextSpan.exists_eq_append (hspan ▸ hstop)
  rw [← hspan] at hrest hnul hlength
  rw [List.append_cons] at hrest
  have hsize : start + (span.bytes ++ [0]).length ≤ data.size := by
    have := congrArg List.length hrest
    simp at this ⊢
    omega
  have hbytes : ∀ j, start ≤ j → j < start + span.length →
      (span.bytes ++ [0]).getD (j - start) 0 = data.getD j 0 := by
    intro j hlow hhigh
    have hin : j - start < (span.bytes ++ [0]).length := by
      rw [List.length_append, List.length_singleton]
      omega
    have hget : (data.toList.drop start)[j - start]? = data[j]? := by
      rw [List.getElem?_drop, Array.getElem?_toList, Nat.add_sub_cancel' hlow]
    rw [Array.getD_eq_getD_getElem?, List.getD_eq_getElem?_getD, ← hget, hrest,
      List.getElem?_append_left hin]
  intro target htarget
  rw [← htarget] at hsize
  -- the NUL that is written stands where the one that was read has stood
  have hlen : (span.bytes ++ [0]).length = span.length := by simp [hlength]
  refine ⟨overwrite target start (span.bytes ++ [0]), ?_, size_overwrite hsize, ?_, ?_⟩
  · rw [writeText_apply, encoding.encode_decode haccepts]
    simp only [List.contains_eq_mem, hnul, decide_false, Bool.false_eq_true, if_false]
    rw [if_neg (by rw [hlen] at hsize; omega), hlength, Nat.add_assoc]
  · intro j k hc
    obtain ⟨hk, hlow, hhigh⟩ := covered_singleton.mp hc
    rw [bitAt, getD_overwrite hsize, if_pos ⟨hlow, by rw [hlen]; exact hhigh⟩, hbytes j hlow hhigh,
      bitAt]
  · intro j k hc
    rw [covered_singleton] at hc
    rcases Nat.lt_or_ge k 8 with hk | hk
    · rw [bitAt, getD_overwrite hsize, hlen, if_neg fun hin => hc ⟨hk, hin⟩, bitAt]
    · rw [bitAt_of_le hk, bitAt_of_le hk]

/-- The text that the covered bits begin is found wherever they are. -/
theorem TextSpan.ofBytes_drop_congr {data data' : Array UInt8} {start : Nat} {limit : Option Nat}
    {encoding : Encoding} {span : TextSpan}
    (hspan : span = ofBytes limit (data.toList.drop start)) (hstop : span.stop ≠ .limit)
    (hsize : data'.size = data.size)
    (hbits : ∀ j k, (Read.text start encoding span).Covers j k → bitAt data' j k = bitAt data j k) :
    span = ofBytes limit (data'.toList.drop start) := by
  rw [hspan] at hstop
  refine hspan.trans (ofBytes_congr hstop (by simp [hsize]) ?_).symm
  rw [← hspan]
  apply List.ext_getElem?
  intro i
  rcases Nat.lt_or_ge i span.length with hi | hi
  · have hbyte := getD_eq_of_bitAt fun k hk =>
      hbits (start + i) k ⟨hk, Nat.le_add_right _ _, Nat.add_lt_add_left hi _⟩
    rw [List.getElem?_take_of_lt hi, List.getElem?_take_of_lt hi, List.getElem?_drop,
      List.getElem?_drop, Array.getElem?_toList, Array.getElem?_toList]
    rcases Nat.lt_or_ge (start + i) data.size with hin | hin
    · have hin' : start + i < data'.size := hsize ▸ hin
      rw [Array.getD_eq_getD_getElem?, Array.getD_eq_getD_getElem?, Array.getElem?_eq_getElem hin,
        Array.getElem?_eq_getElem hin'] at hbyte
      rw [Array.getElem?_eq_getElem hin, Array.getElem?_eq_getElem hin']
      exact congrArg some hbyte
    · rw [Array.getElem?_eq_none hin, Array.getElem?_eq_none (hsize ▸ hin)]
  · rw [List.getElem?_eq_none (Nat.le_trans (List.length_take_le _ _) hi),
      List.getElem?_eq_none (Nat.le_trans (List.length_take_le _ _) hi)]

/-! ### Values of every kind -/

namespace Declaration

/-- A declaration in which no floating-point number occurs. -/
inductive FloatFree : Declaration → Prop
  | integer (t : IntegerType) : FloatFree (.integer t)
  | string (encoding : Encoding) : FloatFree (.string encoding)
  | enum (t : EnumType) : FloatFree (.enum t)
  | array {n : Nat} {element : Declaration} : FloatFree element → FloatFree (.array n element)
  | sequence {name : String} {element : Declaration} :
      FloatFree element → FloatFree (.sequence name element)
  | struct {minAlignment : Nat} {members : Members} :
      (∀ m ∈ members, FloatFree m.2) → FloatFree (.struct minAlignment members)
  | variant {tag : Option String} {members : Members} :
      (∀ m ∈ members, FloatFree m.2) → FloatFree (.variant tag members)

variable {limits : Limits} {data : Array UInt8} {d : Declaration} {a : Arena} {scope : FrameId}
  {path : Path} {s e : Nat} {v : Definition} {reads : List Read}

/-- A decode depends only on the bits that it reads and on where the region ends. -/
theorem Decodes.congr {data' : Array UInt8} (h : Decodes limits data d a scope path s v reads e)
    (hsize : data'.size = data.size)
    (hbits : ∀ j k, Covered reads j k → bitAt data' j k = bitAt data j k) :
    Decodes limits data' d a scope path s v reads e := by
  induction h with
  | integer h =>
      exact .integer (IntegerType.read_congr _ hsize
        (fun j k hc => hbits j k (covered_singleton.mpr hc)) h)
  | float h =>
      exact .float (FloatType.read_congr _ hsize
        (fun j k hc => hbits j k (covered_singleton.mpr hc)) h)
  | string hstart hlt hspan hstop =>
      exact .string hstart (hsize ▸ hlt) (TextSpan.ofBytes_drop_congr hspan hstop hsize
        fun j k hc => hbits j k (covered_singleton.mpr hc)) hstop
  | enum h =>
      exact .enum (IntegerType.read_congr _ hsize
        (fun j k hc => hbits j k (covered_singleton.mpr hc)) h)
  | array hpos _ ih =>
      exact .array hpos fun i hi => ih i hi fun j k hc => hbits j k (hc.flatMap hi)
  | sequence hn hpos _ ih =>
      exact .sequence hn hpos fun i hi => ih i hi fun j k hc => hbits j k (hc.flatMap hi)
  | struct hpos _ ih =>
      exact .struct hpos fun i hi => ih i hi fun j k hc => hbits j k (hc.flatMap hi)
  | variant hlabel hd _ ih => exact .variant hlabel hd (ih hbits)

/-- Writing a value of a derivation puts back the bits that the derivation reads. -/
theorem Decodes.restores (h : Decodes limits data d a scope path s v reads e) (hd : d.FloatFree)
    (hw : ∀ r ∈ reads, r.Whole) : Restores data v.write s reads e := by
  -- the reads of a part are among those of the whole, so its texts are whole as well
  induction h with
  | integer h =>
      rw [Definition.write]
      exact IntegerType.restores_write _ h
  | float => cases hd
  | string hstart _ hspan _ =>
      rw [Definition.write, alignment_string]
      refine .align_bind ?_
      rw [hstart]
      exact restores_writeText hspan (hw _ List.mem_cons_self)
  | enum h =>
      rw [Definition.write]
      exact IntegerType.restores_write _ h
  | @array n element a scope path pos v reads s hpos _ ih =>
      cases hd with
      | array hd =>
          rw [Definition.write, alignment_array]
          refine .align_bind ?_
          rw [← hpos]
          apply Restores.writeAll
          intro i hi
          exact ih i hi hd fun r hr => hw r (mem_flatMap_range hi hr)
  | @sequence name n element a scope path pos v reads s _ hpos _ ih =>
      cases hd with
      | sequence hd =>
          rw [Definition.write, alignment_sequence]
          refine .align_bind ?_
          rw [← hpos]
          apply Restores.writeAll
          intro i hi
          exact ih i hi hd fun r hr => hw r (mem_flatMap_range hi hr)
  | @struct minAlignment members a scope path pos v reads s hpos _ ih =>
      cases hd with
      | struct hd =>
          rw [Definition.write]
          refine .align_bind ?_
          rw [StructType.alignment, StructType.declaration, ← hpos]
          apply Restores.writeAll
          intro i hi
          have hfree := hd _ (List.getElem_mem hi)
          exact ih i hi hfree fun r hr => hw r (mem_flatMap_range hi hr)
  | variant _ hmember _ ih =>
      cases hd with
      | variant hd =>
          rw [Definition.write]
          obtain ⟨m, hm, rfl⟩ := Members.exists_mem_of_find? hmember
          exact ih (hd m hm) hw

/-- A value that was decoded and is written in the same place of any region of the same size puts
back the bits that it was read from, and is decoded again from there. -/
theorem write_decode {name : String} {t : DecodeState} (hd : d.FloatFree) (live : a.Live scope)
    (h : decode limits d scope name ⟨⟨data, s⟩, a⟩ = .ok v t) :
    (∃ reads, Decodes limits data d a scope (a.fieldPath scope name) s v reads
      t.cursor.position) ∧
    ∀ reads, Decodes limits data d a scope (a.fieldPath scope name) s v reads t.cursor.position →
      (∀ r ∈ reads, r.Whole) →
      ∀ target : Array UInt8, target.size = data.size →
        ∃ result, v.write ⟨target, s⟩ = .ok () ⟨result, t.cursor.position⟩ ∧
          result.size = target.size ∧
          (∀ j k, Covered reads j k → bitAt result j k = bitAt data j k) ∧
          decode limits d scope name ⟨⟨result, s⟩, a⟩ =
            .ok v ⟨⟨result, t.cursor.position⟩, a⟩ := by
  rw [decode_apply, decodeAt_eq_ok_iff live] at h
  obtain ⟨reads, e, hdecodes, rfl⟩ := h
  refine ⟨⟨reads, hdecodes⟩, fun reads hdecodes hw target hsize => ?_⟩
  obtain ⟨result, hwrite, hpatched⟩ := hdecodes.restores hd hw target hsize
  have hresult : result.size = data.size := hpatched.size.trans hsize
  have hagain := hdecodes.congr hresult hpatched.covered
  refine ⟨result, hwrite, hpatched.size, hpatched.covered, ?_⟩
  rw [decode_apply]
  exact hagain.decodeAt_eq live

theorem write_decode_struct :
    ∃ v result,
      decode .standard (.struct 1 [("n", .integer .uint8), ("text", .string .ascii)]) .root "s"
        ⟨⟨#[5, 97, 0], 0⟩, .empty⟩ = .ok v ⟨⟨#[5, 97, 0], 24⟩, .empty⟩ ∧
      v.write ⟨#[1, 2, 3], 0⟩ = .ok () ⟨result, 24⟩ ∧
      decode .standard (.struct 1 [("n", .integer .uint8), ("text", .string .ascii)]) .root "s"
        ⟨⟨result, 0⟩, .empty⟩ = .ok v ⟨⟨result, 24⟩, .empty⟩ := by
  have live : Arena.empty.Live .root := Nat.zero_lt_one
  have hread : IntegerType.uint8.read ⟨#[5, 97, 0], 0⟩ = .ok 5 ⟨#[5, 97, 0], 8⟩ := by
    rw [IntegerType.read_eq_ok_iff]
    simp [IntegerType.uint8, IntegerType.plain, IntegerType.defaultAlignment, alignUp, toStorage,
      pieces, joinPieces, Piece.total, Piece.read, Piece.shift]
  have hdecodes := @Decodes.struct .standard #[5, 97, 0] 1
    [("n", .integer .uint8), ("text", .string .ascii)] .empty .root (.root "s")
    (prepend 0 (prepend 8 fun _ => 24))
    (prepend (.integer .uint8 ((Path.root "s").child "n") 5)
      fun _ => .string .ascii ((Path.root "s").child "text") (Encoding.ascii.decode [97]))
    (prepend [.bits 0 8 .big] fun _ => [.text 1 .ascii ⟨[97], 2, .terminator⟩]) 0
    (by simp [prepend, alignment_struct, IntegerType.uint8, IntegerType.plain,
      IntegerType.defaultAlignment, alignUp])
    (by
      rintro (_ | _ | i) hi
      · exact .integer hread
      · exact @Decodes.string .standard #[5, 97, 0] .ascii _ _ _ 8 1 ⟨[97], 2, .terminator⟩ rfl
          (by decide) rfl (by decide)
      · have hlt : i + 2 < 2 := hi
        omega)
  have hdecode := hdecodes.decodeAt_eq live
  obtain ⟨-, h⟩ := write_decode
    (.struct (by simp [FloatFree.integer, FloatFree.string])) live hdecode
  obtain ⟨result, hwrite, -, -, hagain⟩ := h _ hdecodes
    (by simp [prepend, List.range_succ, Read.Whole, Encoding.Accepts]) #[1, 2, 3] rfl
  exact ⟨_, result, hdecode, hwrite, hagain⟩

end Declaration

end TraceFormat
