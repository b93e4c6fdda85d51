import TraceFormat.Proofs.Decode.Arena

/-! # What a successful decode does

`Declaration.Decodes` describes the decodes that succeed, by a rule for each kind of declaration:
which value comes out, which parts of the region it has been read from (`Read`) and where the decode
ends.  In the rules the arena is an argument and never a result; a field of a structure is decoded
in an arena whose last frame has collected the fields before it.

`Declaration.decodeAt_eq_ok_iff` says that the decoder succeeds exactly by these rules.  What all
decoded values have in common then follows by induction on a derivation. -/

namespace TraceFormat

/-- A part of a region that is read for one value. -/
inductive Read where
  /-- `n` bits from a position on. -/
  | bits (position n : Nat) (order : ByteOrder)
  /-- A text from a byte on. -/
  | text (start : Nat) (encoding : Encoding) (span : TextSpan)
deriving DecidableEq, Repr

namespace Declaration

variable (limits : Limits) (data : Array UInt8)

/-- `Decodes d a scope path s v reads e`: in the frame `scope` of the arena `a`, the declaration `d`
decodes from position `s` to the value `v` at `path`; this reads `reads` and ends at `e`. -/
inductive Decodes : Declaration → Arena → FrameId → Path → Nat → Definition → List Read → Nat → Prop
  | integer {t : IntegerType} {a : Arena} {scope : FrameId} {path : Path} {s e : Nat}
      {storage : BitVec 64} :
      t.read ⟨data, s⟩ = .ok storage ⟨data, e⟩ →
      Decodes (.integer t) a scope path s (.integer t path storage)
        [.bits (alignUp s t.alignment) t.length t.byteOrder] e
  | float {t : FloatType} {a : Arena} {scope : FrameId} {path : Path} {s e : Nat}
      {value : FloatingPoint.Binary64} :
      t.read ⟨data, s⟩ = .ok value ⟨data, e⟩ →
      Decodes (.float t) a scope path s (.float t path value)
        [.bits (alignUp s t.alignment) t.length t.byteOrder] e
  | string {encoding : Encoding} {a : Arena} {scope : FrameId} {path : Path} {s start : Nat}
      {span : TextSpan} :
      alignUp s 8 = start * 8 → start < data.size →
      span = TextSpan.ofBytes limits.maxStringLength (data.toList.drop start) →
      span.stop ≠ .limit →
      Decodes (.string encoding) a scope path s (.string encoding path (encoding.decode span.bytes))
        [.text start encoding span] ((start + span.length) * 8)
  | enum {t : EnumType} {a : Arena} {scope : FrameId} {path : Path} {s e : Nat}
      {storage : BitVec 64} :
      t.container.read ⟨data, s⟩ = .ok storage ⟨data, e⟩ →
      Decodes (.enum t) a scope path s (.enum t path storage)
        [.bits (alignUp s t.container.alignment) t.container.length t.container.byteOrder] e
  | array {n : Nat} {element : Declaration} {a : Arena} {scope : FrameId} {path : Path}
      {pos : Nat → Nat} {v : Nat → Definition} {reads : Nat → List Read} {s : Nat} :
      pos 0 = alignUp s element.alignment →
      (∀ i < n, Decodes element a scope (path.element i) (pos i) (v i) (reads i) (pos (i + 1))) →
      Decodes (.array n element) a scope path s
        (.array (.array n element) path ((List.range n).map v))
        ((List.range n).flatMap reads) (pos n)
  | sequence {name : String} {n : Nat} {element : Declaration} {a : Arena} {scope : FrameId}
      {path : Path} {pos : Nat → Nat} {v : Nat → Definition} {reads : Nat → List Read} {s : Nat} :
      sequenceLength limits name scope path a = .ok n →
      pos 0 = alignUp s element.alignment →
      (∀ i < n, Decodes element a scope (path.element i) (pos i) (v i) (reads i) (pos (i + 1))) →
      Decodes (.sequence name element) a scope path s
        (.array (.sequence name element) path ((List.range n).map v))
        ((List.range n).flatMap reads) (pos n)
  | struct {minAlignment : Nat} {members : Members} {a : Arena} {scope : FrameId} {path : Path}
      {pos : Nat → Nat} {v : Nat → Definition} {reads : Nat → List Read} {s : Nat} :
      pos 0 = alignUp s (Declaration.struct minAlignment members).alignment →
      (∀ i (h : i < members.length),
        Decodes members[i].2 (a.collecting scope path ((List.range i).map v)) a.next
          (path.child members[i].1) (pos i) (v i) (reads i) (pos (i + 1))) →
      Decodes (.struct minAlignment members) a scope path s
        (.struct ⟨minAlignment, members⟩ path ((List.range members.length).map v))
        ((List.range members.length).flatMap reads) (pos members.length)
  | variant {tag : Option String} {members : Members} {label : String} {d : Declaration}
      {a : Arena} {scope : FrameId} {path : Path} {s e : Nat} {v : Definition}
      {reads : List Read} :
      selectedLabel tag scope path a = .ok label →
      members.find? label = some d →
      Decodes d a scope (path.child label) s v reads e →
      Decodes (.variant tag members) a scope path s
        (.variant ⟨tag, members⟩ path label v (a.bindings scope)) reads e

end Declaration

/-- The sequence that begins with `x` and goes on with `f`. -/
def prepend {α : Type} (x : α) (f : Nat → α) : Nat → α
  | 0 => x
  | i + 1 => f i

/-! ### Successful actions -/

theorem bind_eq_ok_iff {ε σ α β : Type} {x : EStateM ε σ α} {f : α → EStateM ε σ β} {s t : σ}
    {b : β} : (x >>= f) s = .ok b t ↔ ∃ a s', x s = .ok a s' ∧ f a s' = .ok b t := by
  simp only [bind, EStateM.bind]
  cases x s <;> simp

theorem bind_eq_error_iff {ε σ α β : Type} {x : EStateM ε σ α} {f : α → EStateM ε σ β} {s t : σ}
    {e : ε} :
    (x >>= f) s = .error e t ↔ x s = .error e t ∨ ∃ a s', x s = .ok a s' ∧ f a s' = .error e t := by
  simp only [bind, EStateM.bind]
  cases x s <;> simp

theorem map_eq_ok_iff {ε σ α β : Type} {x : EStateM ε σ α} {f : α → β} {s t : σ} {b : β} :
    (f <$> x) s = .ok b t ↔ ∃ a, b = f a ∧ x s = .ok a t := by
  simp only [Functor.map, EStateM.map]
  cases x s <;> simp [eq_comm]

theorem map_eq_error_iff {ε σ α β : Type} {x : EStateM ε σ α} {f : α → β} {s t : σ} {e : ε} :
    (f <$> x) s = .error e t ↔ x s = .error e t := by
  simp only [Functor.map, EStateM.map]
  cases x s <;> simp

theorem map_apply_congr {ε σ α β : Type} {x y : EStateM ε σ α} {s : σ} (f : α → β)
    (h : x s = y s) : (f <$> x) s = (f <$> y) s := by
  simp only [Functor.map, EStateM.map, h]

theorem pure_eq_ok_iff {ε σ α : Type} {a b : α} {s t : σ} :
    (pure a : EStateM ε σ α) s = .ok b t ↔ a = b ∧ s = t := by
  simp [pure, EStateM.pure]

theorem throw_ne_ok {ε σ α : Type} {e : ε} {b : α} {s t : σ} :
    (throw e : EStateM ε σ α) s ≠ .ok b t := by
  intro h
  cases h

namespace DecodeM

variable {α : Type} {c : Cursor} {a : Arena} {t : DecodeState}

theorem ofRead_eq_ok_iff {action : ReadM α} {v : α} :
    ofRead action ⟨c, a⟩ = .ok v t ↔ ∃ c', action c = .ok v c' ∧ t = ⟨c', a⟩ := by
  unfold ofRead
  cases action c with
  | ok w c' =>
      simp only [EStateM.Result.ok.injEq]
      constructor
      · rintro ⟨rfl, rfl⟩
        exact ⟨c', ⟨rfl, rfl⟩, rfl⟩
      · rintro ⟨_, ⟨rfl, rfl⟩, rfl⟩
        exact ⟨rfl, rfl⟩
  | error e c' => simp

theorem ofRead_bind_pure_eq_ok_iff {β : Type} {action : ReadM α} (h : action.KeepsData)
    {f : α → β} {w : β} :
    (ofRead action >>= fun v => pure (f v)) ⟨c, a⟩ = .ok w t ↔
      ∃ v e, action c = .ok v ⟨c.data, e⟩ ∧ w = f v ∧ t = ⟨⟨c.data, e⟩, a⟩ := by
  rw [bind_eq_ok_iff]
  constructor
  · rintro ⟨v, s, hread, hv⟩
    obtain ⟨rfl, rfl⟩ := pure_eq_ok_iff.mp hv
    obtain ⟨⟨data, e⟩, hc, rfl⟩ := ofRead_eq_ok_iff.mp hread
    have hdata := h c
    rw [hc] at hdata
    obtain rfl : data = c.data := hdata
    exact ⟨v, e, hc, rfl, rfl⟩
  · rintro ⟨v, e, hc, rfl, rfl⟩
    exact ⟨v, _, ofRead_eq_ok_iff.mpr ⟨_, hc, rfl⟩, rfl⟩

theorem align_bind_apply {data : Array UInt8} {s : Nat} (unit : Nat) (f : Unit → DecodeM α) :
    (align unit >>= f) ⟨⟨data, s⟩, a⟩ = f () ⟨⟨data, alignUp s unit⟩, a⟩ := rfl

theorem ofArena_eq_ok_iff {f : Arena → Except DecodeError α} {v : α} {s : DecodeState} :
    ofArena f s = .ok v t ↔ f s.arena = .ok v ∧ s = t := by
  unfold ofArena
  cases f s.arena <;> simp

theorem Keeps.exists_position {data : Array UInt8} {action : DecodeM α}
    (h : Keeps (DecodeState.At data a) action) {s : Nat} {v : α}
    (hr : action ⟨⟨data, s⟩, a⟩ = .ok v t) : ∃ e, t = ⟨⟨data, e⟩, a⟩ := by
  have h' := h ⟨⟨data, s⟩, a⟩ ⟨rfl, rfl⟩
  unfold after at h'
  rw [hr] at h'
  obtain ⟨⟨_, e⟩, _⟩ := t
  obtain ⟨rfl, rfl⟩ := h'
  exact ⟨e, rfl⟩

/-- The actions for some indices succeed if there are positions between which each of them does. -/
theorem forIndices_eq_ok_iff [Inhabited α] {data : Array UInt8} {action : Nat → DecodeM α}
    (h : ∀ i, Keeps (DecodeState.At data a) (action i)) {n index s : Nat} {done vs : List α} :
    forIndices action n index done ⟨⟨data, s⟩, a⟩ = .ok vs t ↔
      ∃ (pos : Nat → Nat) (v : Nat → α), pos 0 = s ∧
        (∀ i < n, action (index + i) ⟨⟨data, pos i⟩, a⟩ = .ok (v i) ⟨⟨data, pos (i + 1)⟩, a⟩) ∧
        vs = done.reverse ++ (List.range n).map v ∧ t = ⟨⟨data, pos n⟩, a⟩ := by
  induction n generalizing index s done with
  | zero =>
      rw [forIndices, pure_eq_ok_iff]
      constructor
      · rintro ⟨rfl, rfl⟩
        exact ⟨fun _ => s, fun _ => default, rfl, by simp, by simp, rfl⟩
      · rintro ⟨pos, v, rfl, -, rfl, rfl⟩
        exact ⟨by simp, rfl⟩
  | succ n ih =>
      rw [forIndices, bind_eq_ok_iff]
      constructor
      · rintro ⟨v₀, s₁, h₀, h₁⟩
        obtain ⟨e, rfl⟩ := (h index).exists_position h₀
        obtain ⟨pos, v, hpos, hv, rfl, rfl⟩ := ih.mp h₁
        refine ⟨prepend s pos, prepend v₀ v, rfl, ?_, ?_, rfl⟩
        · rintro (_ | i) hi
          · simpa [prepend, hpos] using h₀
          · simpa [prepend, Nat.add_assoc, Nat.add_comm 1] using hv i (by omega)
        · simp [prepend, List.range_succ_eq_map, Function.comp_def]
      · rintro ⟨pos, v, rfl, hv, rfl, rfl⟩
        refine ⟨v 0, _, hv 0 (by omega), ih.mpr ⟨fun i => pos (i + 1), fun i => v (i + 1), rfl, ?_,
          ?_, rfl⟩⟩
        · intro i hi
          simpa [Nat.add_assoc, Nat.add_comm 1] using hv (i + 1) (by omega)
        · simp [List.range_succ_eq_map, Function.comp_def]

end DecodeM

theorem Members.exists_mem_of_find? {members : Members} {name : String} {d : Declaration}
    (h : members.find? name = some d) : ∃ m ∈ members, m.2 = d := by
  obtain ⟨m, hm, rfl⟩ := Option.map_eq_some_iff.mp h
  exact ⟨m, List.mem_of_find?_eq_some hm, rfl⟩

namespace Declaration

variable {limits : Limits} {data : Array UInt8} {a : Arena} {s : Nat} {t : DecodeState}

/-- The fields of a structure succeed if there are positions between which each of them does, in a
frame that has collected those before it. -/
theorem decodeFields_eq_ok_iff {parent : FrameId} {path : Path} {members : Members}
    {done : List Definition} :
    decodeFields limits members a.next ⟨⟨data, s⟩, a.collecting parent path done⟩ = .ok () t ↔
      ∃ (pos : Nat → Nat) (v : Nat → Definition), pos 0 = s ∧
        (∀ i (h : i < members.length),
          decodeAt limits members[i].2 a.next (path.child members[i].1)
            ⟨⟨data, pos i⟩, a.collecting parent path (done ++ (List.range i).map v)⟩ =
          .ok (v i) ⟨⟨data, pos (i + 1)⟩,
            a.collecting parent path (done ++ (List.range i).map v)⟩) ∧
        t = ⟨⟨data, pos members.length⟩,
          a.collecting parent path (done ++ (List.range members.length).map v)⟩ := by
  induction members generalizing s done with
  | nil =>
      rw [decodeFields, pure_eq_ok_iff]
      constructor
      · rintro ⟨-, rfl⟩
        exact ⟨fun _ => s, fun _ => default, rfl, by simp, by simp⟩
      · rintro ⟨pos, v, rfl, -, rfl⟩
        exact ⟨rfl, by simp⟩
  | cons m members ih =>
      obtain ⟨name, d⟩ := m
      have live := a.live_next_collecting parent path done
      rw [decodeFields, bind_eq_ok_iff]
      constructor
      · rintro ⟨p, s', hp, h⟩
        rw [DecodeM.ofArena_eq_ok_iff, a.fieldPath_collecting] at hp
        obtain ⟨⟨rfl⟩, rfl⟩ := hp
        rw [bind_eq_ok_iff] at h
        obtain ⟨v₀, s₁, h₀, h₁⟩ := h
        -- the first field leaves its frame as it was; the others find it bound there
        obtain ⟨e, rfl⟩ := (keeps_decodeAt d _ a.next _ live).exists_position h₀
        rw [bind_eq_ok_iff] at h₁
        obtain ⟨_, s₂, hb, h₂⟩ := h₁
        have hs₂ : (⟨⟨data, e⟩, a.collecting parent path (done ++ [v₀])⟩ : DecodeState) = s₂ := by
          rw [← a.bind_collecting]
          exact (EStateM.Result.ok.inj hb).2
        subst hs₂
        obtain ⟨pos, v, hpos, hv, rfl⟩ := ih.mp h₂
        refine ⟨prepend s pos, prepend v₀ v, rfl, ?_, ?_⟩
        · rintro (_ | i) hi
          · simpa [prepend, hpos] using h₀
          · have hi' : i < members.length := Nat.lt_of_succ_lt_succ hi
            simpa [prepend, List.range_succ_eq_map, Function.comp_def] using hv i hi'
        · simp [prepend, List.range_succ_eq_map, Function.comp_def]
      · rintro ⟨pos, v, rfl, hv, rfl⟩
        refine ⟨path.child name, ⟨⟨data, pos 0⟩, a.collecting parent path done⟩, ?_, ?_⟩
        · rw [DecodeM.ofArena_eq_ok_iff, a.fieldPath_collecting]
          exact ⟨rfl, rfl⟩
        · rw [bind_eq_ok_iff]
          have h₀ := hv 0 (by simp)
          simp only [List.range_zero, List.map_nil, List.append_nil] at h₀
          refine ⟨v 0, _, h₀, ?_⟩
          rw [bind_eq_ok_iff]
          refine ⟨(), ⟨⟨data, pos 1⟩, a.collecting parent path (done ++ [v 0])⟩, ?_, ?_⟩
          · rw [← a.bind_collecting]
            rfl
          · refine ih.mpr ⟨fun i => pos (i + 1), fun i => v (i + 1), rfl, ?_, ?_⟩
            · intro i hi
              have h₁ := hv (i + 1) (by simpa using hi)
              simp only [List.range_succ_eq_map, List.map_cons, List.map_map, List.append_assoc,
                List.cons_append, List.nil_append] at h₁ ⊢
              exact h₁
            · simp [List.range_succ_eq_map, Function.comp_def]

theorem decodeMember_eq_ok_iff {members : Members} {label : String} {scope : FrameId} {path : Path}
    {st : DecodeState} {v : Definition} :
    decodeMember limits members label scope path st = .ok v t ↔
      ∃ d, members.find? label = some d ∧
        decodeAt limits d scope (path.child label) st = .ok v t := by
  induction members with
  | nil =>
      rw [decodeMember]
      refine iff_of_false throw_ne_ok ?_
      rintro ⟨d, hd, -⟩
      cases hd
  | cons m members ih =>
      obtain ⟨name, d⟩ := m
      rw [decodeMember]
      split_ifs with h
      · simp [Members.find?, h]
      · simpa [Members.find?, h] using ih

theorem collectIn_eq_ok_iff {c : Cursor} {parent : FrameId} {path : Path}
    {body : FrameId → DecodeM Unit} {vs : List Definition} :
    DecodeM.collectIn parent path body ⟨c, a⟩ = .ok vs t ↔
      ∃ t', body a.next ⟨c, a.collecting parent path []⟩ = .ok () t' ∧
        vs = t'.arena.collected a.next ∧ t = { t' with arena := t'.arena.close a.next } := by
  unfold DecodeM.collectIn
  simp only [Arena.enter_eq_collecting]
  cases body a.next ⟨c, a.collecting parent path []⟩ with
  | ok _ t' => simp [eq_comm]
  | error _ t' => simp

theorem exists_alignUp_eight (s : Nat) : ∃ start, alignUp s 8 = start * 8 := by
  refine ⟨alignUp s 8 / 8, ?_⟩
  unfold alignUp
  omega

theorem readTextUntil_apply (limit : Option Nat) (encoding : Encoding) (data : Array UInt8)
    (start : Nat) :
    readTextUntil limit encoding ⟨data, start * 8⟩ =
      if data.size ≤ start then .error .outOfBounds ⟨data, start * 8⟩
      else
        let span := TextSpan.ofBytes limit (data.toList.drop start)
        .ok (encoding.decode span.bytes, span.stop) ⟨data, (start + span.length) * 8⟩ := by
  unfold readTextUntil
  simp [Nat.add_mul]

theorem exists_limit_of_stop {limit : Option Nat} {rest : List UInt8}
    (h : (TextSpan.ofBytes limit rest).stop = .limit) : ∃ max, limit = some max := by
  cases limit with
  | some max => exact ⟨max, rfl⟩
  | none =>
      unfold TextSpan.ofBytes TextSpan.whole at h
      dsimp only at h
      split at h <;> cases h

theorem decodeText_apply (limits : Limits) (encoding : Encoding) (path : Path) (data : Array UInt8)
    (a : Arena) {s start : Nat} (hstart : alignUp s 8 = start * 8) :
    decodeText limits encoding path ⟨⟨data, s⟩, a⟩ =
      if data.size ≤ start then .error (.read .outOfBounds) ⟨⟨data, start * 8⟩, a⟩
      else
        let span := TextSpan.ofBytes limits.maxStringLength (data.toList.drop start)
        match span.stop, limits.maxStringLength with
        | .limit, some max =>
          .error (.stringTooLong path.text max) ⟨⟨data, (start + span.length) * 8⟩, a⟩
        | _, _ => .ok (encoding.decode span.bytes) ⟨⟨data, (start + span.length) * 8⟩, a⟩ := by
  have hread := readTextUntil_apply limits.maxStringLength encoding data start
  unfold decodeText
  rw [DecodeM.align_bind_apply, alignment_string, hstart]
  simp only [Bind.bind, EStateM.bind, DecodeM.ofRead, hread]
  split_ifs
  · rfl
  · generalize TextSpan.ofBytes limits.maxStringLength (data.toList.drop start) = span
    obtain ⟨bytes, length, stop⟩ := span
    cases stop with
    | limit => cases limits.maxStringLength <;> rfl
    | terminator | endOfRegion => rfl

/-- A string succeeds where there is a byte to begin with and no limit cuts it off. -/
theorem decodeText_eq_ok_iff {encoding : Encoding} {path : Path} {text : String} :
    decodeText limits encoding path ⟨⟨data, s⟩, a⟩ = .ok text t ↔
      ∃ start span, alignUp s 8 = start * 8 ∧ start < data.size ∧
        span = TextSpan.ofBytes limits.maxStringLength (data.toList.drop start) ∧
        span.stop ≠ .limit ∧ text = encoding.decode span.bytes ∧
        t = ⟨⟨data, (start + span.length) * 8⟩, a⟩ := by
  obtain ⟨start, hstart⟩ := exists_alignUp_eight s
  rw [decodeText_apply limits encoding path data a hstart]
  constructor
  · intro h
    split_ifs at h with hsize
    refine ⟨start, _, hstart, by omega, rfl, ?_⟩
    generalize hspan : TextSpan.ofBytes limits.maxStringLength (data.toList.drop start) = span at h
    obtain ⟨bytes, length, stop⟩ := span
    cases stop with
    | limit =>
        obtain ⟨max, hmax⟩ := exists_limit_of_stop (by rw [hspan])
        rw [hmax] at h
        cases h
    | terminator | endOfRegion =>
        obtain ⟨rfl, rfl⟩ := EStateM.Result.ok.inj h
        exact ⟨by simp, rfl, rfl⟩
  · rintro ⟨start', span, hstart', hsize, hspan, hstop, rfl, rfl⟩
    obtain rfl : start = start' := by omega
    rw [if_neg (by omega), ← hspan]
    obtain ⟨bytes, length, stop⟩ := span
    cases stop with
    | limit => exact absurd rfl hstop
    | terminator | endOfRegion => rfl

/-! ### The rules and the decoder agree -/

theorem exists_elements {element : Declaration} {scope : FrameId} {path : Path} {n : Nat}
    {vs : List Definition} (root : a.next ≠ .root)
    (ih : ∀ {p s v t}, decodeAt limits element scope p ⟨⟨data, s⟩, a⟩ = .ok v t →
      ∃ reads e, Decodes limits data element a scope p s v reads e ∧ t = ⟨⟨data, e⟩, a⟩)
    (h : DecodeM.forIndices (fun i => decodeAt limits element scope (path.element i)) n 0 []
      ⟨⟨data, s⟩, a⟩ = .ok vs t) :
    ∃ (pos : Nat → Nat) (v : Nat → Definition) (reads : Nat → List Read), pos 0 = s ∧
      (∀ i < n, Decodes limits data element a scope (path.element i) (pos i) (v i) (reads i)
        (pos (i + 1))) ∧
      vs = (List.range n).map v ∧ t = ⟨⟨data, pos n⟩, a⟩ := by
  obtain ⟨pos, v, hpos, hv, rfl, rfl⟩ :=
    (DecodeM.forIndices_eq_ok_iff fun i => keeps_decodeAt_of_root element a scope _ root).mp h
  have hreads : ∀ i, ∃ reads, i < n →
      Decodes limits data element a scope (path.element i) (pos i) (v i) reads (pos (i + 1)) := by
    intro i
    by_cases hi : i < n
    · obtain ⟨reads, e, hd, he⟩ := ih (by simpa using hv i hi)
      obtain rfl : pos (i + 1) = e := by simpa using he
      exact ⟨reads, fun _ => hd⟩
    · exact ⟨[], fun hi' => absurd hi' hi⟩
  choose reads hreads using hreads
  exact ⟨pos, v, reads, hpos, hreads, rfl, rfl⟩

theorem exists_fields {members : Members} {parent : FrameId} {path : Path}
    (ih : ∀ m ∈ members, ∀ {b : Arena} {scope p s v t}, b.next ≠ .root →
      decodeAt limits m.2 scope p ⟨⟨data, s⟩, b⟩ = .ok v t →
      ∃ reads e, Decodes limits data m.2 b scope p s v reads e ∧ t = ⟨⟨data, e⟩, b⟩)
    (h : decodeFields limits members a.next ⟨⟨data, s⟩, a.collecting parent path []⟩ = .ok () t) :
    ∃ (pos : Nat → Nat) (v : Nat → Definition) (reads : Nat → List Read), pos 0 = s ∧
      (∀ i (h : i < members.length),
        Decodes limits data members[i].2 (a.collecting parent path ((List.range i).map v)) a.next
          (path.child members[i].1) (pos i) (v i) (reads i) (pos (i + 1))) ∧
      t = ⟨⟨data, pos members.length⟩,
        a.collecting parent path ((List.range members.length).map v)⟩ := by
  obtain ⟨pos, v, hpos, hv, rfl⟩ := decodeFields_eq_ok_iff.mp h
  simp only [List.nil_append] at hv
  have hreads : ∀ i, ∃ reads, ∀ h : i < members.length,
      Decodes limits data members[i].2 (a.collecting parent path ((List.range i).map v)) a.next
        (path.child members[i].1) (pos i) (v i) reads (pos (i + 1)) := by
    intro i
    by_cases hi : i < members.length
    · obtain ⟨reads, e, hd, he⟩ := ih _ (List.getElem_mem hi)
        (a.live_next_collecting parent path _).next_ne_root (hv i hi)
      obtain rfl : pos (i + 1) = e := by simpa using he
      exact ⟨reads, fun _ => hd⟩
    · exact ⟨[], fun hi' => absurd hi' hi⟩
  choose reads hreads using hreads
  exact ⟨pos, v, reads, hpos, hreads, rfl⟩

/-- Where the decoder succeeds the rules derive its result, in a closed frame too. -/
theorem decodes_of_decodeAt {d : Declaration} {scope : FrameId} {path : Path} {v : Definition}
    (root : a.next ≠ .root) (h : decodeAt limits d scope path ⟨⟨data, s⟩, a⟩ = .ok v t) :
    ∃ reads e, Decodes limits data d a scope path s v reads e ∧ t = ⟨⟨data, e⟩, a⟩ := by
  -- for all arenas at once: the members of a structure are decoded in a frame of their own
  induction d using Declaration.induction generalizing a scope path s v t with
  | integer type =>
      rw [decodeAt, DecodeM.ofRead_bind_pure_eq_ok_iff type.keepsData_read] at h
      obtain ⟨storage, e, hread, rfl, rfl⟩ := h
      exact ⟨_, e, .integer hread, rfl⟩
  | float type =>
      rw [decodeAt, DecodeM.ofRead_bind_pure_eq_ok_iff type.keepsData_read] at h
      obtain ⟨value, e, hread, rfl, rfl⟩ := h
      exact ⟨_, e, .float hread, rfl⟩
  | string encoding =>
      rw [decodeAt, bind_eq_ok_iff] at h
      obtain ⟨text, t', htext, hv⟩ := h
      obtain ⟨rfl, rfl⟩ := pure_eq_ok_iff.mp hv
      obtain ⟨start, span, hstart, hsize, hspan, hstop, rfl, rfl⟩ := decodeText_eq_ok_iff.mp htext
      exact ⟨_, _, .string hstart hsize hspan hstop, rfl⟩
  | enum type =>
      rw [decodeAt, DecodeM.ofRead_bind_pure_eq_ok_iff type.container.keepsData_read] at h
      obtain ⟨storage, e, hread, rfl, rfl⟩ := h
      exact ⟨_, e, .enum hread, rfl⟩
  | array n element ih =>
      rw [decodeAt, DecodeM.align_bind_apply, bind_eq_ok_iff] at h
      obtain ⟨vs, t', hes, hv⟩ := h
      obtain ⟨rfl, rfl⟩ := pure_eq_ok_iff.mp hv
      obtain ⟨pos, w, reads, hpos, hw, rfl, rfl⟩ := exists_elements root (ih root) hes
      exact ⟨_, _, .array hpos hw, rfl⟩
  | sequence name element ih =>
      rw [decodeAt, bind_eq_ok_iff] at h
      obtain ⟨n, s₁, hlength, h⟩ := h
      obtain ⟨hn, rfl⟩ := DecodeM.ofArena_eq_ok_iff.mp hlength
      rw [DecodeM.align_bind_apply, bind_eq_ok_iff] at h
      obtain ⟨vs, t', hes, hv⟩ := h
      obtain ⟨rfl, rfl⟩ := pure_eq_ok_iff.mp hv
      obtain ⟨pos, w, reads, hpos, hw, rfl, rfl⟩ := exists_elements root (ih root) hes
      exact ⟨_, _, .sequence hn hpos hw, rfl⟩
  | struct minAlignment members ih =>
      rw [decodeAt, DecodeM.align_bind_apply, bind_eq_ok_iff] at h
      obtain ⟨vs, t', hfs, hv⟩ := h
      obtain ⟨rfl, rfl⟩ := pure_eq_ok_iff.mp hv
      obtain ⟨t₁, hbody, rfl, rfl⟩ := collectIn_eq_ok_iff.mp hfs
      obtain ⟨pos, w, reads, hpos, hw, rfl⟩ := exists_fields (fun m hm => ih m hm) hbody
      simp only [Arena.collected_collecting _ _ _ root, Arena.close_collecting _ _ _ root]
      exact ⟨_, _, .struct hpos hw, rfl⟩
  | variant tag members ih =>
      rw [decodeAt, bind_eq_ok_iff] at h
      obtain ⟨label, s₁, hselect, h⟩ := h
      obtain ⟨hlabel, rfl⟩ := DecodeM.ofArena_eq_ok_iff.mp hselect
      obtain ⟨siblings, s₂, hsiblings, hmember⟩ := bind_eq_ok_iff.mp h
      obtain ⟨⟨rfl⟩, rfl⟩ := DecodeM.ofArena_eq_ok_iff.mp hsiblings
      obtain ⟨current, t', hcurrent, hv⟩ := bind_eq_ok_iff.mp hmember
      obtain ⟨rfl, rfl⟩ := pure_eq_ok_iff.mp hv
      obtain ⟨d, hd, hc⟩ := decodeMember_eq_ok_iff.mp hcurrent
      obtain ⟨m, hm, rfl⟩ := Members.exists_mem_of_find? hd
      obtain ⟨reads, e, hr, rfl⟩ := ih m hm root hc
      exact ⟨_, _, .variant hlabel hd hr, rfl⟩

theorem forIndices_decodeAt {element : Declaration} {scope : FrameId} {path : Path} {n : Nat}
    {pos : Nat → Nat} {v : Nat → Definition} (root : a.next ≠ .root) (hpos : pos 0 = s)
    (h : ∀ i < n, decodeAt limits element scope (path.element i) ⟨⟨data, pos i⟩, a⟩ =
      .ok (v i) ⟨⟨data, pos (i + 1)⟩, a⟩) :
    DecodeM.forIndices (fun i => decodeAt limits element scope (path.element i)) n 0 []
      ⟨⟨data, s⟩, a⟩ = .ok ((List.range n).map v) ⟨⟨data, pos n⟩, a⟩ := by
  rw [DecodeM.forIndices_eq_ok_iff fun i => keeps_decodeAt_of_root element a scope _ root]
  refine ⟨pos, v, hpos, fun i hi => ?_, rfl, rfl⟩
  rw [Nat.zero_add]
  exact h i hi

/-- What the rules derive the decoder computes, in a closed frame too. -/
theorem Decodes.decodeAt_eq_of_root {d : Declaration} {scope : FrameId} {path : Path}
    {v : Definition} {reads : List Read} {e : Nat}
    (h : Decodes limits data d a scope path s v reads e)
    (root : a.next ≠ .root) :
    decodeAt limits d scope path ⟨⟨data, s⟩, a⟩ = .ok v ⟨⟨data, e⟩, a⟩ := by
  induction h with
  | integer h | float h | enum h =>
      rw [decodeAt, bind_eq_ok_iff]
      exact ⟨_, _, DecodeM.ofRead_eq_ok_iff.mpr ⟨_, h, rfl⟩, rfl⟩
  | string hstart hsize hspan hstop =>
      rw [decodeAt, bind_eq_ok_iff]
      exact ⟨_, _, decodeText_eq_ok_iff.mpr ⟨_, _, hstart, hsize, hspan, hstop, rfl, rfl⟩, rfl⟩
  | @array n element a scope path pos v reads s hpos _ ih =>
      rw [decodeAt, DecodeM.align_bind_apply, bind_eq_ok_iff]
      exact ⟨_, _, forIndices_decodeAt root hpos fun i hi => ih i hi root, rfl⟩
  | @sequence name n element a scope path pos v reads s hn hpos _ ih =>
      rw [decodeAt, bind_eq_ok_iff]
      refine ⟨n, _, DecodeM.ofArena_eq_ok_iff.mpr ⟨hn, rfl⟩, ?_⟩
      rw [DecodeM.align_bind_apply, bind_eq_ok_iff]
      exact ⟨_, _, forIndices_decodeAt root hpos fun i hi => ih i hi root, rfl⟩
  | @struct minAlignment members a scope path pos v reads s hpos _ ih =>
      have hfields : decodeFields limits members a.next
          ⟨⟨data, pos 0⟩, a.collecting scope path []⟩ = .ok () ⟨⟨data, pos members.length⟩,
            a.collecting scope path ((List.range members.length).map v)⟩ := by
        rw [decodeFields_eq_ok_iff]
        refine ⟨pos, v, rfl, fun i hi => ?_, rfl⟩
        exact ih i hi (a.live_next_collecting scope path _).next_ne_root
      rw [decodeAt, DecodeM.align_bind_apply, ← hpos, bind_eq_ok_iff]
      refine ⟨_, _, collectIn_eq_ok_iff.mpr ⟨_, hfields, rfl, rfl⟩, ?_⟩
      rw [a.collected_collecting _ _ _ root, a.close_collecting _ _ _ root]
      rfl
  | @variant tag members label d a scope path s e v reads hlabel hd _ ih =>
      rw [decodeAt, bind_eq_ok_iff]
      refine ⟨label, _, DecodeM.ofArena_eq_ok_iff.mpr ⟨hlabel, rfl⟩, ?_⟩
      rw [bind_eq_ok_iff]
      refine ⟨_, _, DecodeM.ofArena_eq_ok_iff.mpr ⟨rfl, rfl⟩, ?_⟩
      rw [bind_eq_ok_iff]
      exact ⟨v, _, decodeMember_eq_ok_iff.mpr ⟨d, hd, ih root⟩, rfl⟩

theorem Decodes.decodeAt_eq {d : Declaration} {scope : FrameId} {path : Path} {v : Definition}
    {reads : List Read} {e : Nat} (h : Decodes limits data d a scope path s v reads e)
    (live : a.Live scope) :
    decodeAt limits d scope path ⟨⟨data, s⟩, a⟩ = .ok v ⟨⟨data, e⟩, a⟩ :=
  h.decodeAt_eq_of_root live.next_ne_root

/-- The decoder succeeds exactly by the rules. -/
theorem decodeAt_eq_ok_iff {d : Declaration} {scope : FrameId} {path : Path} {v : Definition}
    (live : a.Live scope) :
    decodeAt limits d scope path ⟨⟨data, s⟩, a⟩ = .ok v t ↔
      ∃ reads e, Decodes limits data d a scope path s v reads e ∧ t = ⟨⟨data, e⟩, a⟩ := by
  constructor
  · exact decodes_of_decodeAt live.next_ne_root
  · rintro ⟨reads, e, h, rfl⟩
    exact h.decodeAt_eq live

theorem decode_apply {d : Declaration} {scope : FrameId} {name : String} :
    decode limits d scope name ⟨⟨data, s⟩, a⟩ =
      decodeAt limits d scope (a.fieldPath scope name) ⟨⟨data, s⟩, a⟩ := rfl

end Declaration

end TraceFormat
