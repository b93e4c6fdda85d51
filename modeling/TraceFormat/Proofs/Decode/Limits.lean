import TraceFormat.Proofs.Cursor.Text
import TraceFormat.Proofs.Decode.InStep
import TraceFormat.Proofs.Decode.Run

/-! # Limits only reject

Of two limits the tighter one (`Limits.Within`) turns some values down that the other lets pass, and
does nothing else: a decode under the tighter one ends as the other does, or with an error of the
tighter one (`Limits.Rejects`).  A text that a limit leaves whole is the same under every greater
one (`TextSpan.ofBytes_eq_of_le`), so neither values nor positions depend on how near a limit
was. -/

namespace TraceFormat

namespace Limits

/-- Whether all that `limits` lets pass passes under `limits'` too. -/
structure Within (limits limits' : Limits) : Prop where
  sequence : limits.maxSequenceLength ≤ limits'.maxSequenceLength
  string : ∀ max', limits'.maxStringLength = some max' →
    ∃ max, limits.maxStringLength = some max ∧ max ≤ max'

/-- The errors with which limits turn a value down: a sequence with more elements than they allow,
whose length is shown with a sign, and a string that goes on behind the last byte they allow. -/
def Rejects (limits : Limits) : DecodeError → Prop
  | .invalidLength _ length => limits.maxSequenceLength < (BitVec.ofInt 64 length).toNat
  | .stringTooLong _ max => limits.maxStringLength = some max
  | _ => False

/-- The first run may stop where its limits reject; else both do the same. -/
def tolerance (limits : Limits) : Tolerance DecodeError := ⟨Eq, limits.Rejects⟩

end Limits

open DecodeState (Beside)

theorem DecodeState.eq_of_beside {s t : DecodeState} (h : Beside Eq s t) : s = t := by
  obtain ⟨c, a⟩ := s
  obtain ⟨c', a'⟩ := t
  obtain ⟨rfl, rfl⟩ := h
  rfl

variable {limits limits' : Limits}

/-! ### Strings -/

theorem TextSpan.ofBytes_eq_of_le {limit limit' : Option Nat} {rest : List UInt8}
    (h : ∀ max', limit' = some max' → ∃ max, limit = some max ∧ max ≤ max')
    (hstop : (ofBytes limit rest).stop ≠ .limit) : ofBytes limit' rest = ofBytes limit rest := by
  rw [ofBytes_eq_whole hstop]
  cases limit' with
  | none => rfl
  | some max' =>
      obtain ⟨max, rfl, hle⟩ := h max' rfl
      have hmax : ¬ max < (rest.takeWhile (· != 0)).length := fun hlt =>
        hstop (by simp [ofBytes, hlt])
      have hmax' : ¬ max' < (rest.takeWhile (· != 0)).length := by omega
      simp only [ofBytes, hmax', if_false]

theorem inStep_decodeText_limits (h : limits.Within limits') (encoding : Encoding) (path : Path) :
    InStep limits.tolerance (Beside Eq) Eq (Declaration.decodeText limits encoding path)
      (Declaration.decodeText limits' encoding path) := by
  rintro ⟨⟨data, s⟩, a⟩ ⟨_, _⟩ ⟨rfl, rfl⟩
  obtain ⟨start, hstart⟩ := Declaration.exists_alignUp_eight s
  rw [Declaration.decodeText_apply limits encoding path data a hstart,
    Declaration.decodeText_apply limits' encoding path data a hstart]
  split_ifs with hsize
  · exact .error rfl ⟨rfl, rfl⟩
  · by_cases hstop :
      (TextSpan.ofBytes limits.maxStringLength (data.toList.drop start)).stop = .limit
    · obtain ⟨max, hmax⟩ := Declaration.exists_limit_of_stop hstop
      simp only [hmax] at hstop ⊢
      simp only [hstop]
      exact .alone hmax
    · have hspan := TextSpan.ofBytes_eq_of_le h.string hstop
      rw [hspan]
      generalize TextSpan.ofBytes limits.maxStringLength (data.toList.drop start) = span at hstop
      obtain ⟨bytes, length, stop⟩ := span
      cases stop with
      | limit => exact absurd rfl hstop
      | terminator | endOfRegion => exact .ok rfl ⟨rfl, rfl⟩

/-! ### Sequences -/

/-- The length of a sequence is the same under both limits, unless the first ones turn it down. -/
theorem sequenceLength_limits (h : limits.Within limits') (name : String) (scope : FrameId)
    (path : Path) (a : Arena) :
    Declaration.sequenceLength limits name scope path a =
        Declaration.sequenceLength limits' name scope path a ∨
      ∃ e, Declaration.sequenceLength limits name scope path a = .error e ∧ limits.Rejects e := by
  unfold Declaration.sequenceLength
  cases a.lookup? scope name with
  | none => exact .inl rfl
  | some d =>
      cases d with
      | integer t p storage =>
          dsimp only
          cases hcount : t.count? storage with
          | none => exact .inl rfl
          | some n =>
              have hn : n = storage.toNat := by
                unfold IntegerType.count? at hcount
                split_ifs at hcount
                exact (Option.some_inj.mp hcount).symm
              by_cases hlimit : n ≤ limits.maxSequenceLength
              · have hlimit' : n ≤ limits'.maxSequenceLength := hlimit.trans h.sequence
                left
                simp [Limits.allowsSequence, hlimit, hlimit']
              · right
                refine ⟨.invalidLength name storage.toInt, ?_, ?_⟩
                · simp [Limits.allowsSequence, hlimit]
                · simp only [Limits.Rejects, BitVec.ofInt_toInt]
                  omega
      | _ => exact .inl rfl

theorem inStep_sequenceLength_limits (h : limits.Within limits') (name : String) (scope : FrameId)
    (path : Path) :
    InStep limits.tolerance (Beside Eq) Eq
      (DecodeM.ofArena (Declaration.sequenceLength limits name scope path))
      (DecodeM.ofArena (Declaration.sequenceLength limits' name scope path)) := by
  rintro ⟨c, a⟩ ⟨_, _⟩ ⟨rfl, rfl⟩
  unfold DecodeM.ofArena
  dsimp only
  rcases sequenceLength_limits h name scope path a with heq | ⟨e, herror, hrejects⟩
  · rw [heq]
    cases Declaration.sequenceLength limits' name scope path a with
    | ok n => exact .ok rfl ⟨rfl, rfl⟩
    | error e => exact .error rfl ⟨rfl, rfl⟩
  · rw [herror]
    exact .alone hrejects

/-! ### Decodes -/

namespace Declaration

theorem stepsAlike_limits (h : limits.Within limits') :
    StepsAlike limits.tolerance Eq (fun _ => True) limits limits' where
  refl _ := rfl
  one := trivial
  align _ _ _ _ hc := congrArg _ hc
  bits n order := inStep_self (readBits n order)
  text := inStep_decodeText_limits h
  length := inStep_sequenceLength_limits h

/-- Tighter limits change no outcome of a decode: it ends as under the wider ones, with the same
value or error in the same place, or with an error in which the tighter limits turn a value down. -/
theorem decode_tighter_limits (h : limits.Within limits') (d : Declaration) (scope : FrameId)
    (name : String) (s : DecodeState) :
    decode limits d scope name s = decode limits' d scope name s ∨
      ∃ e t, decode limits d scope name s = .error e t ∧ limits.Rejects e := by
  have hagree := (stepsAlike_limits h).decode d (fun _ _ => trivial) scope name s s ⟨rfl, rfl⟩
  generalize decode limits d scope name s = r, decode limits' d scope name s = r' at hagree
  cases hagree with
  | ok hv hs => exact .inl (by rw [hv, DecodeState.eq_of_beside hs])
  | error he hs => exact .inl (congrArg₂ _ he (DecodeState.eq_of_beside hs))
  | alone he => exact .inr ⟨_, _, rfl, he⟩

theorem decode_tighter_limits_string :
    let tight : Limits := ⟨4, some 2⟩
    let wide : Limits := ⟨4, none⟩
    let start : DecodeState := ⟨⟨#[97, 98, 99, 0], 0⟩, .empty⟩
    tight.Within wide ∧
      decode wide (.string .ascii) .root "s" start =
        .ok (.string .ascii (.root "s") "abc") ⟨⟨#[97, 98, 99, 0], 32⟩, .empty⟩ ∧
      ∃ e t, decode tight (.string .ascii) .root "s" start = .error e t ∧ tight.Rejects e := by
  intro tight wide start
  have hwithin : tight.Within wide := ⟨Nat.le_refl _, fun _ h => nomatch h⟩
  have hstart : alignUp 0 8 = 0 * 8 := rfl
  have hwide : decode wide (.string .ascii) .root "s" start =
      .ok (.string .ascii (.root "s") "abc") ⟨⟨#[97, 98, 99, 0], 32⟩, .empty⟩ := by
    rw [decode_apply, decodeAt, bind_eq_ok_iff]
    refine ⟨"abc", _, decodeText_eq_ok_iff.mpr ?_, rfl⟩
    exact ⟨0, ⟨[97, 98, 99], 4, .terminator⟩, hstart, by decide, by decide, by decide, by decide,
      rfl⟩
  have htight : decode tight (.string .ascii) .root "s" start =
      .error (.stringTooLong "s" 2) ⟨⟨#[97, 98, 99, 0], 16⟩, .empty⟩ := by
    rw [decode_apply, decodeAt, bind_eq_error_iff]
    exact .inl (decodeText_apply tight .ascii (.root "s") #[97, 98, 99, 0] .empty hstart)
  refine ⟨hwithin, hwide, ?_⟩
  rcases decode_tighter_limits hwithin (.string .ascii) .root "s" start with heq | hrejected
  · rw [hwide, htight] at heq
    cases heq
  · exact hrejected

end Declaration

end TraceFormat
