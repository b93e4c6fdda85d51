import Mathlib.Data.List.TakeWhile
import TraceFormat.Cursor.Text
import TraceFormat.Proofs.Text.Utf8

/-! # Text at a cursor

A text that no limit cuts off is found by its own bytes alone (`TextSpan.ofBytes_congr`).  One that
a NUL ends consists of bytes other than NUL and then a NUL (`TextSpan.exists_eq_append`), which is
what writing a text puts into the region. -/

namespace TraceFormat

namespace TextSpan

variable {limit : Option Nat} {rest : List UInt8}

theorem ofBytes_eq_whole (h : (ofBytes limit rest).stop ≠ .limit) :
    ofBytes limit rest = whole (rest.takeWhile (· != 0)) rest := by
  unfold ofBytes at h ⊢
  cases limit with
  | none => rfl
  | some max =>
      dsimp only at h ⊢
      split_ifs at h ⊢ with hmax
      · exact absurd rfl h
      · rfl

theorem eq_takeWhile_append (h : (rest.takeWhile (· != 0)).length < rest.length) :
    ∃ tail, rest = rest.takeWhile (· != 0) ++ 0 :: tail := by
  have happ := List.takeWhile_append_dropWhile (p := (· != (0 : UInt8))) (l := rest)
  cases hd : rest.dropWhile (· != 0) with
  | nil =>
      rw [hd, List.append_nil] at happ
      rw [happ] at h
      omega
  | cons b tail =>
      have hb := List.head_dropWhile_not (p := (· != (0 : UInt8))) (l := rest) (by simp [hd])
      simp only [hd, List.head_cons] at hb
      obtain rfl : b = 0 := by simpa using hb
      exact ⟨tail, by rw [← hd, happ]⟩

theorem exists_eq_append (h : (ofBytes limit rest).stop = .terminator) :
    ∃ tail, rest = (ofBytes limit rest).bytes ++ 0 :: tail ∧ 0 ∉ (ofBytes limit rest).bytes ∧
      (ofBytes limit rest).length = (ofBytes limit rest).bytes.length + 1 := by
  have hwhole := ofBytes_eq_whole (by rw [h]; decide)
  rw [hwhole] at h ⊢
  unfold whole at h ⊢
  split_ifs at h ⊢ with hlt
  obtain ⟨tail, htail⟩ := eq_takeWhile_append hlt
  refine ⟨tail, htail, fun hmem => ?_, rfl⟩
  simpa using List.mem_takeWhile_imp hmem

theorem ofBytes_none_append {bytes tail : List UInt8} (h : 0 ∉ bytes) :
    ofBytes none (bytes ++ 0 :: tail) = ⟨bytes, bytes.length + 1, .terminator⟩ := by
  have hall : ∀ b ∈ bytes, (b != 0) = true := fun b hb => bne_iff_ne.mpr (ne_of_mem_of_not_mem hb h)
  have hbody : (bytes ++ 0 :: tail).takeWhile (· != 0) = bytes := by
    rw [List.takeWhile_append_of_pos hall, List.takeWhile_cons_of_neg (by decide), List.append_nil]
  simp [ofBytes, whole, hbody]

theorem length_pos (h : (ofBytes limit rest).stop ≠ .limit) (hrest : rest ≠ []) :
    0 < (ofBytes limit rest).length := by
  have hpos : 0 < rest.length := List.length_pos_iff.mpr hrest
  rw [ofBytes_eq_whole h]
  unfold whole
  split_ifs with hlt
  · exact Nat.succ_pos _
  · dsimp only
    omega

theorem length_le (limit : Option Nat) (rest : List UInt8) :
    (ofBytes limit rest).length ≤ rest.length := by
  have hbody := (List.takeWhile_prefix (l := rest) (· != 0)).length_le
  have hwhole : (whole (rest.takeWhile (· != 0)) rest).length ≤ rest.length := by
    unfold whole
    split_ifs with hlt
    · exact hlt
    · exact hbody
  unfold ofBytes
  cases limit with
  | none => exact hwhole
  | some max =>
      dsimp only
      split_ifs with hmax
      · dsimp only
        omega
      · exact hwhole

/-- A text that no limit cuts off is found in the first part of some bytes if it lies there. -/
theorem ofBytes_of_append {tail : List UInt8} (h : (ofBytes limit (rest ++ tail)).stop ≠ .limit)
    (hlength : (ofBytes limit (rest ++ tail)).length ≤ rest.length) :
    ofBytes limit rest = ofBytes limit (rest ++ tail) := by
  cases tail with
  | nil => rw [List.append_nil]
  | cons b tail =>
      rw [ofBytes_eq_whole h] at hlength
      by_cases hall : (rest.takeWhile (· != 0)).length = rest.length
      · -- without a NUL in the first part the text goes on behind it
        exfalso
        have hbody : (rest ++ b :: tail).takeWhile (· != 0) =
            rest ++ (b :: tail).takeWhile (· != 0) := by
          rw [List.takeWhile_append, if_pos hall]
        have hlong : rest.length < (whole ((rest ++ b :: tail).takeWhile (· != 0))
            (rest ++ b :: tail)).length := by
          rw [hbody]
          unfold whole
          split_ifs with hlt
          · simp only [List.length_append]
            omega
          · simp only [List.length_append, List.length_cons, not_lt] at hlt ⊢
            omega
        omega
      · have hbody : (rest ++ b :: tail).takeWhile (· != 0) = rest.takeWhile (· != 0) := by
          rw [List.takeWhile_append, if_neg hall]
        have hle := (List.takeWhile_prefix (l := rest) (· != 0)).length_le
        have hlt : (rest.takeWhile (· != 0)).length < rest.length := by omega
        have hlt' : (rest.takeWhile (· != 0)).length < (rest ++ b :: tail).length := by
          rw [List.length_append]
          omega
        simp only [ofBytes, hbody, whole, hlt, hlt', if_true]
        cases limit with
        | none => rfl
        | some max =>
            unfold ofBytes at h
            dsimp only at h ⊢
            rw [hbody] at h
            split_ifs at h ⊢ with hmax
            · exact absurd rfl h
            · rfl

/-- A text that no limit cuts off depends only on its own bytes. -/
theorem ofBytes_congr {rest' : List UInt8} (h : (ofBytes limit rest).stop ≠ .limit)
    (hlength : rest'.length = rest.length)
    (htake : rest'.take (ofBytes limit rest).length = rest.take (ofBytes limit rest).length) :
    ofBytes limit rest' = ofBytes limit rest := by
  have hbody : rest'.takeWhile (· != 0) = rest.takeWhile (· != 0) := by
    rw [ofBytes_eq_whole h] at htake
    unfold whole at htake
    split_ifs at htake with hlt
    · obtain ⟨tail, htail⟩ := eq_takeWhile_append hlt
      have hsplit := List.take_append_drop ((rest.takeWhile (· != 0)).length + 1) rest'
      generalize hbody : rest.takeWhile (· != 0) = body at *
      have hall : ∀ b ∈ body, (b != 0) = true := by
        rw [← hbody]
        exact fun b hb => List.mem_takeWhile_imp (p := (· != 0)) hb
      rw [htake, htail, List.take_length_add_append] at hsplit
      rw [← hsplit, List.append_assoc, List.takeWhile_append_of_pos hall]
      simp
    · have hle := (List.takeWhile_prefix (l := rest) (· != 0)).length_le
      have hlen : (rest.takeWhile (· != 0)).length = rest.length := by omega
      rw [hlen, List.take_length, ← hlength, List.take_length] at htake
      rw [htake]
  unfold ofBytes at h ⊢
  cases limit with
  | none => simp only [hbody, whole, hlength]
  | some max =>
      dsimp only at h ⊢
      split_ifs at h with hmax
      · exact absurd rfl h
      · rw [hbody, if_neg hmax, if_neg hmax]
        simp only [whole, hlength]

end TextSpan

/-! ### Bytes in a region -/

theorem size_overwrite {data : Array UInt8} {start : Nat} {bytes : List UInt8}
    (h : start + bytes.length ≤ data.size) : (overwrite data start bytes).size = data.size := by
  simp [overwrite]
  omega

theorem getD_overwrite {data : Array UInt8} {start : Nat} {bytes : List UInt8}
    (h : start + bytes.length ≤ data.size) (j : Nat) :
    (overwrite data start bytes).getD j 0 =
      if start ≤ j ∧ j < start + bytes.length then bytes.getD (j - start) 0 else data.getD j 0 := by
  have htake : (data.toList.take start).length = start := by simp; omega
  simp only [overwrite, Array.getD_eq_getD_getElem?, List.getElem?_toArray,
    List.getD_eq_getElem?_getD]
  rcases Nat.lt_or_ge j start with hj | hj
  · rw [if_neg (by omega), List.append_assoc, List.getElem?_append_left (by omega),
      List.getElem?_take_of_lt hj, Array.getElem?_toList]
  · rw [List.append_assoc, List.getElem?_append_right (by omega), htake]
    rcases Nat.lt_or_ge j (start + bytes.length) with hj' | hj'
    · rw [if_pos ⟨hj, hj'⟩, List.getElem?_append_left (by omega)]
    · rw [if_neg (by omega), List.getElem?_append_right (by omega), List.getElem?_drop,
        Array.getElem?_toList]
      congr 2
      omega

theorem drop_overwrite {data : Array UInt8} {start : Nat} (bytes : List UInt8)
    (h : start ≤ data.size) :
    (overwrite data start bytes).toList.drop start =
      bytes ++ data.toList.drop (start + bytes.length) := by
  have htake : (data.toList.take start).length = start := by
    rw [List.length_take, Array.length_toList, Nat.min_eq_left h]
  rw [overwrite, List.append_assoc, List.drop_left' htake]

theorem writeText_apply (text : String) (data : Array UInt8) (start : Nat) :
    writeText text ⟨data, start * 8⟩ =
      let bytes := Text.Utf8.encode text
      if bytes.contains 0 then .error .invalidValue ⟨data, start * 8⟩
      else if data.size < start + bytes.length + 1 then .error .outOfBounds ⟨data, start * 8⟩
      else .ok () ⟨overwrite data start (bytes ++ [0]), (start + bytes.length + 1) * 8⟩ := by
  unfold writeText
  simp

end TraceFormat
