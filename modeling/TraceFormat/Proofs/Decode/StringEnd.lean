import Mathlib
import TraceFormat.Proofs.Cursor.Text
import TraceFormat.Proofs.Decode.Run

/-! # Where a string ends

A string begins at the next byte and goes on to the first NUL, or to the end of the region if there
is none (`TextFrom`).  A limit counts its bytes without the NUL, so it is exceeded exactly if one
byte more than the limit allows is there and none of these is a NUL
(`TextSpan.stop_eq_limit_iff`): a NUL right behind the last byte allowed ends the string, and so
does the end of the region.

`Declaration.decode_string` says of every region, position and limit which of the three outcomes a
string has; where it succeeds, the cursor is behind the whole of it. -/

namespace TraceFormat

/-- `TextFrom data start body e`: the region holds `body` from the byte `start` on and then the
first NUL, behind which is the position `e`; or it holds `body` without a NUL up to its end `e`. -/
inductive TextFrom (data : Array UInt8) (start : Nat) : List UInt8 → Nat → Prop
  | terminated {body tail : List UInt8} :
      data.toList.drop start = body ++ 0 :: tail → 0 ∉ body →
      TextFrom data start body ((start + body.length + 1) * 8)
  | endOfRegion {body : List UInt8} :
      data.toList.drop start = body → 0 ∉ body → TextFrom data start body (data.size * 8)

namespace TextFrom

variable {data : Array UInt8} {start e e' : Nat} {body body' : List UInt8}

theorem takeWhile_eq (h : TextFrom data start body e) :
    (data.toList.drop start).takeWhile (· != 0) = body := by
  have hall : 0 ∉ body → ∀ b ∈ body, (b != 0) = true := fun hnul b hb =>
    bne_iff_ne.mpr (ne_of_mem_of_not_mem hb hnul)
  cases h with
  | terminated hrest hnul =>
      rw [hrest, List.takeWhile_append_of_pos (hall hnul), List.takeWhile_cons_of_neg (by decide),
        List.append_nil]
  | endOfRegion hrest hnul =>
      rw [hrest]
      exact List.takeWhile_eq_self_iff.mpr (hall hnul)

theorem unique (h : TextFrom data start body e) (h' : TextFrom data start body' e') :
    body = body' ∧ e = e' := by
  obtain rfl : body = body' := h.takeWhile_eq.symm.trans h'.takeWhile_eq
  refine ⟨rfl, ?_⟩
  cases h with
  | terminated hrest hnul =>
      cases h' with
      | terminated => rfl
      | endOfRegion hrest' => simp [hrest'] at hrest
  | endOfRegion hrest =>
      cases h' with
      | terminated hrest' => simp [hrest'] at hrest
      | endOfRegion => rfl

end TextFrom

/-- Whether the text that some bytes begin with is too long for a limit of `max` bytes: one byte
more is there, and no NUL up to it. -/
def TooLong (limit : Option Nat) (rest : List UInt8) (max : Nat) : Prop :=
  limit = some max ∧ max + 1 ≤ rest.length ∧ 0 ∉ rest.take (max + 1)

theorem lt_length_takeWhile_iff {α : Type} (p : α → Bool) (n : Nat) (l : List α) :
    n < (l.takeWhile p).length ↔ n + 1 ≤ l.length ∧ ∀ x ∈ l.take (n + 1), p x = true := by
  induction l generalizing n with
  | nil => simp
  | cons x l ih =>
      rw [List.takeWhile_cons]
      split_ifs with hx
      · cases n with
        | zero => simp [hx]
        | succ n => simpa [hx] using ih n
      · simp [hx]

namespace TextSpan

variable {limit : Option Nat} {rest : List UInt8}

theorem whole_stop_ne_limit (body rest : List UInt8) : (whole body rest).stop ≠ .limit := by
  unfold whole
  split_ifs <;> simp

/-- A text is cut off exactly if it is too long. -/
theorem stop_eq_limit_iff :
    (ofBytes limit rest).stop = .limit ↔ ∃ max, TooLong limit rest max := by
  cases limit with
  | none => simpa [ofBytes, TooLong] using whole_stop_ne_limit _ rest
  | some max =>
      have hbody := lt_length_takeWhile_iff (· != 0) max rest
      have hnul : (∀ b ∈ rest.take (max + 1), (b != 0) = true) ↔ 0 ∉ rest.take (max + 1) := by
        simp only [bne_iff_ne]
        exact ⟨fun h hmem => h 0 hmem rfl, fun h b hb hzero => h (hzero ▸ hb)⟩
      rw [hnul] at hbody
      simp only [TooLong, Option.some.injEq, exists_eq_left', ← hbody, ofBytes]
      split_ifs with hmax
      · simp [hmax]
      · simpa [hmax] using whole_stop_ne_limit _ rest

theorem ofBytes_of_stop_eq_limit {max : Nat} (h : (ofBytes (some max) rest).stop = .limit) :
    ofBytes (some max) rest = ⟨rest.take max, max, .limit⟩ := by
  unfold ofBytes at h ⊢
  dsimp only at h ⊢
  split_ifs at h ⊢ with hmax
  · rfl
  · exact absurd h (whole_stop_ne_limit _ _)

theorem length_bytes_le {max : Nat} (h : (ofBytes (some max) rest).stop ≠ .limit) :
    (ofBytes (some max) rest).bytes.length ≤ max := by
  unfold ofBytes at h ⊢
  dsimp only at h ⊢
  split_ifs at h ⊢ with hmax
  · exact absurd rfl h
  · unfold whole
    split_ifs <;> exact Nat.le_of_not_lt hmax

/-- A text that is not cut off goes on to the first NUL or to the end of the region. -/
theorem textFrom {data : Array UInt8} {start : Nat} (hstart : start ≤ data.size)
    (h : (ofBytes limit (data.toList.drop start)).stop ≠ .limit) :
    TextFrom data start (ofBytes limit (data.toList.drop start)).bytes
      ((start + (ofBytes limit (data.toList.drop start)).length) * 8) := by
  have hlength : (data.toList.drop start).length = data.size - start := by simp
  rw [ofBytes_eq_whole h]
  generalize hrest : data.toList.drop start = rest at *
  have hnul : 0 ∉ rest.takeWhile (· != 0) := fun hmem => by
    simpa using List.mem_takeWhile_imp hmem
  have hle := (List.takeWhile_prefix (l := rest) (· != 0)).length_le
  unfold whole
  split_ifs with hlt
  · obtain ⟨tail, htail⟩ := eq_takeWhile_append hlt
    exact .terminated (hrest.trans htail) hnul
  · have hall : rest.takeWhile (· != 0) = rest :=
      (List.takeWhile_prefix (· != 0)).eq_of_length (by omega)
    have hend : start + (rest.takeWhile (· != 0)).length = data.size := by omega
    dsimp only
    rw [hend]
    exact .endOfRegion (hrest.trans hall.symm) hnul

end TextSpan

theorem alignUp_eight (s : Nat) : alignUp s 8 = (s + 7) / 8 * 8 := by
  unfold alignUp
  omega

namespace Declaration

variable {limits : Limits} {encoding : Encoding} {scope : FrameId} {path : Path}
  {data : Array UInt8} {s start : Nat} {a : Arena}

theorem decodeAt_string_apply (st : DecodeState) :
    decodeAt limits (.string encoding) scope path st =
      (Definition.string encoding path <$> decodeText limits encoding path) st := by
  rw [decodeAt]
  rfl

theorem decodeAt_string_of_nil (hstart : alignUp s 8 = start * 8)
    (h : data.toList.drop start = []) :
    decodeAt limits (.string encoding) scope path ⟨⟨data, s⟩, a⟩ =
      .error (.read .outOfBounds) ⟨⟨data, start * 8⟩, a⟩ := by
  have hsize : data.size ≤ start := by simpa using h
  rw [decodeAt_string_apply, map_eq_error_iff, decodeText_apply _ _ _ _ _ hstart, if_pos hsize]

theorem decodeAt_string_of_tooLong (hstart : alignUp s 8 = start * 8) {max : Nat}
    (h : TooLong limits.maxStringLength (data.toList.drop start) max) :
    decodeAt limits (.string encoding) scope path ⟨⟨data, s⟩, a⟩ =
      .error (.stringTooLong path.text max) ⟨⟨data, (start + max) * 8⟩, a⟩ := by
  obtain ⟨hmax, hlength, hnul⟩ := h
  have hsize : ¬ data.size ≤ start := by
    rw [List.length_drop, Array.length_toList] at hlength
    omega
  have hstop := TextSpan.stop_eq_limit_iff.mpr ⟨max, rfl, hlength, hnul⟩
  rw [decodeAt_string_apply, map_eq_error_iff, decodeText_apply _ _ _ _ _ hstart, if_neg hsize,
    hmax, TextSpan.ofBytes_of_stop_eq_limit hstop]

theorem decodeAt_string_of_not_tooLong (hstart : alignUp s 8 = start * 8)
    (hne : data.toList.drop start ≠ [])
    (h : ∀ max, ¬ TooLong limits.maxStringLength (data.toList.drop start) max) :
    ∃ body e, TextFrom data start body e ∧
      decodeAt limits (.string encoding) scope path ⟨⟨data, s⟩, a⟩ =
        .ok (.string encoding path (encoding.decode body)) ⟨⟨data, e⟩, a⟩ ∧
      ∀ max, limits.maxStringLength = some max → body.length ≤ max := by
  have hsize : start < data.size := by simpa using hne
  have hstop :
      (TextSpan.ofBytes limits.maxStringLength (data.toList.drop start)).stop ≠ .limit := by
    intro hlimit
    obtain ⟨max, hmax⟩ := TextSpan.stop_eq_limit_iff.mp hlimit
    exact h max hmax
  refine ⟨_, _, TextSpan.textFrom hsize.le hstop, ?_, fun max hmax => ?_⟩
  · rw [decodeAt_string_apply, map_eq_ok_iff]
    exact ⟨_, rfl, decodeText_eq_ok_iff.mpr ⟨start, _, hstart, hsize, rfl, hstop, rfl, rfl⟩⟩
  · rw [hmax] at hstop ⊢
    exact TextSpan.length_bytes_le hstop

/-- A string begins at the next byte.  It fails to be read exactly if there is none, and is too long
exactly if there is a limit and the limit allows for fewer bytes than are there before a NUL.
Otherwise it has the text of all bytes before the first NUL, or up to the end of the region, and
ends behind the NUL or there. -/
theorem decode_string (limits : Limits) (encoding : Encoding) (scope : FrameId) (path : Path)
    (data : Array UInt8) (s : Nat) (a : Arena) :
    let start := (s + 7) / 8
    let rest := data.toList.drop start
    let outcome := decodeAt limits (.string encoding) scope path ⟨⟨data, s⟩, a⟩
    ((∃ t, outcome = .error (.read .outOfBounds) t) ↔ rest = []) ∧
    (∀ name max, (∃ t, outcome = .error (.stringTooLong name max) t) ↔
      name = path.text ∧ TooLong limits.maxStringLength rest max) ∧
    (rest ≠ [] → (∀ max, ¬ TooLong limits.maxStringLength rest max) →
      ∃ body e, TextFrom data start body e ∧
        outcome = .ok (.string encoding path (encoding.decode body)) ⟨⟨data, e⟩, a⟩ ∧
        ∀ max, limits.maxStringLength = some max → body.length ≤ max) := by
  intro start rest outcome
  have hstart : alignUp s 8 = start * 8 := alignUp_eight s
  by_cases hrest : rest = []
  · have houtcome : outcome = .error (.read .outOfBounds) ⟨⟨data, start * 8⟩, a⟩ :=
      decodeAt_string_of_nil hstart hrest
    simp [houtcome, hrest, TooLong]
  by_cases hlong : ∃ max, TooLong limits.maxStringLength rest max
  · obtain ⟨max, hmax⟩ := hlong
    have houtcome :
        outcome = .error (.stringTooLong path.text max) ⟨⟨data, (start + max) * 8⟩, a⟩ :=
      decodeAt_string_of_tooLong hstart hmax
    have hunique : ∀ other, TooLong limits.maxStringLength rest other ↔ max = other := by
      intro other
      constructor
      · rintro ⟨hother, -⟩
        exact Option.some_inj.mp (hmax.1.symm.trans hother)
      · rintro rfl
        exact hmax
    simp [houtcome, hrest, hunique, eq_comm]
  · rw [not_exists] at hlong
    have hwhole : ∃ body e, TextFrom data start body e ∧
        outcome = .ok (.string encoding path (encoding.decode body)) ⟨⟨data, e⟩, a⟩ ∧
        ∀ max, limits.maxStringLength = some max → body.length ≤ max :=
      decodeAt_string_of_not_tooLong hstart hrest hlong
    obtain ⟨body, e, htext, houtcome, hlength⟩ := hwhole
    refine ⟨?_, ?_, fun _ _ => ⟨body, e, htext, houtcome, hlength⟩⟩
    · simp [outcome, houtcome, hrest]
    · simp [outcome, houtcome, hlong]

/-- Inside the first byte, with a NUL right behind the three bytes that the limit allows. -/
theorem decode_string_at_limit :
    let data : Array UInt8 := #[0xFF, 97, 98, 99, 0, 100]
    let limits : Limits := ⟨0, some 3⟩
    data.toList.drop ((3 + 7) / 8) ≠ [] ∧
      (∀ max, ¬ TooLong limits.maxStringLength (data.toList.drop ((3 + 7) / 8)) max) ∧
      decodeAt limits (.string .ascii) .root (.root "t") ⟨⟨data, 3⟩, .empty⟩ =
        .ok (.string .ascii (.root "t") (Encoding.ascii.decode [97, 98, 99]))
          ⟨⟨data, 40⟩, .empty⟩ := by
  intro data limits
  have hne : data.toList.drop ((3 + 7) / 8) ≠ [] := by decide
  have hshort : ∀ max, ¬ TooLong limits.maxStringLength (data.toList.drop ((3 + 7) / 8)) max := by
    rintro max ⟨⟨rfl⟩, -, hnul⟩
    exact hnul (by decide)
  obtain ⟨-, -, hwhole⟩ := decode_string limits .ascii .root (.root "t") data 3 .empty
  obtain ⟨body, e, htext, houtcome, -⟩ := hwhole hne hshort
  have hrest : data.toList.drop ((3 + 7) / 8) = [97, 98, 99] ++ 0 :: [100] := rfl
  have hbytes : TextFrom data ((3 + 7) / 8) [97, 98, 99] 40 := .terminated hrest (by decide)
  obtain ⟨rfl, rfl⟩ := htext.unique hbytes
  exact ⟨hne, hshort, houtcome⟩

end Declaration

end TraceFormat
