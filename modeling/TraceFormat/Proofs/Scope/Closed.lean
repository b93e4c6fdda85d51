import TraceFormat.Proofs.Scope.Order

/-! # Closed frames

A closed frame is inert: nothing is found through its index, nothing is bound there and there is
nothing left to close (`Arena.Inert`).  A frame is inert exactly while it is not live
(`Arena.inert_iff`), and a change makes an index live again only by giving it out to a new frame
(`Arena.live_apply_iff`).

Indices are given out again: the next frame that is opened has the index of the oldest one that was
closed.  So an index that is kept after its frame was closed is inert from then on exactly if no
frame is opened under it (`Arena.inert_after_close_iff`), and otherwise stands for a frame that has
nothing to do with the first one (`Arena.closed_frame_returns`). -/

namespace TraceFormat.Arena

/-- Whether all that is done with an index shows that its frame is closed. -/
structure Inert (a : Arena) (id : FrameId) : Prop where
  lookup? : ∀ name, a.lookup? id name = none
  path? : a.path? id = none
  parent? : a.parent? id = none
  bindings : a.bindings id = []
  bind : ∀ d, a.bind id d = a
  close : a.close id = a
  collected : a.collected id = []

/-- Whether a run opens a frame under an index. -/
def Opens (id : FrameId) : Arena → List ScopeOp → Prop
  | _, [] => False
  | a, op :: ops => id ∈ a.issued op ∨ Opens id (a.apply op) ops

variable {a : Arena} {id : FrameId}

/-! ### Frames that are not live -/

theorem bind_eq_self (h : ¬ a.Live id) (d : Definition) : a.bind id d = a := by
  have hlen : a.frames.length ≤ id.index := Nat.le_of_not_lt h
  have hmodify := List.modify_eq_self hlen (f := Frame.bind d)
  simp [bind, hmodify]

theorem close_eq_self (h : ¬ a.Live id) : a.close id = a := by
  have hlen : a.frames.length ≤ id.index := Nat.le_of_not_lt h
  unfold close
  split_ifs
  · rfl
  · simp [List.take_of_length_le hlen]

theorem collected_eq_nil (h : ¬ a.Live id) : a.collected id = [] := by
  have hframe := frame?_eq_none_iff.mpr h
  simp [collected, hframe]

theorem inert_iff : a.Inert id ↔ ¬ a.Live id := by
  constructor
  · intro h hlive
    have hpath : (a.frame? id).map Frame.path = none := h.path?
    exact frame?_eq_none_iff.mp (Option.map_eq_none_iff.mp hpath) hlive
  · intro h
    have hframe := frame?_eq_none_iff.mpr h
    refine ⟨?_, ?_, ?_, ?_, bind_eq_self h, close_eq_self h, collected_eq_nil h⟩
    · intro name
      simp [lookup?, chain_eq_nil h]
    · simp [path?, hframe]
    · simp [parent?, hframe]
    · simp [bindings, hframe]

/-! ### The index of a closed frame in a run -/

theorem live_apply_iff (h : ¬ a.Live id) (op : ScopeOp) :
    (a.apply op).Live id ↔ id ∈ a.issued op := by
  cases op with
  | enter parent path => simp [apply, enter, live_add, h, issued, ScopeOp.parent?]
  | attach parent struct => simp [apply, attach, live_add, h, issued, ScopeOp.parent?]
  | bind i d => simp [apply, live_bind, h, issued, ScopeOp.parent?]
  | close i => simp [apply, live_close, h, issued, ScopeOp.parent?]

/-- An index that stands for no frame does so throughout a run exactly if the run does not give it
out. -/
theorem run_not_live_iff (ops : List ScopeOp) (h : ¬ a.Live id) :
    (∀ pre, pre <+: ops → ¬ (a.run pre).Live id) ↔ ¬ a.Opens id ops := by
  induction ops generalizing a with
  | nil => simpa [Opens, run] using h
  | cons op ops ih =>
      rw [forall_prefix_cons (P := fun b => ¬ b.Live id), Opens, not_or, ← live_apply_iff h op]
      constructor
      · rintro ⟨-, hrest⟩
        have hop : ¬ (a.apply op).Live id := hrest [] List.nil_prefix
        exact ⟨hop, (ih hop).mp hrest⟩
      · rintro ⟨hop, hrest⟩
        exact ⟨h, (ih hop).mpr hrest⟩

/-- After a frame was closed an index is inert for the rest of a run exactly if it was inert before
or was closed with that frame, and no frame is opened under it again. -/
theorem inert_after_close_iff (a : Arena) (closed id : FrameId) (ops : List ScopeOp) :
    (∀ pre, pre <+: ops → ((a.close closed).run pre).Inert id) ↔
      (a.Inert id ∨ closed ≠ .root ∧ closed.index ≤ id.index) ∧
        ¬ (a.close closed).Opens id ops := by
  have hclosed : ¬ (a.close closed).Live id ↔
      ¬ a.Live id ∨ closed ≠ .root ∧ closed.index ≤ id.index := by
    rw [live_close]
    by_cases hroot : closed = .root
    · simp [hroot]
    · simp [hroot, imp_iff_not_or]
  simp only [inert_iff]
  rw [← hclosed]
  constructor
  · intro h
    have hstart : ¬ (a.close closed).Live id := h [] List.nil_prefix
    exact ⟨hstart, (run_not_live_iff ops hstart).mp h⟩
  · rintro ⟨hstart, hrest⟩
    exact (run_not_live_iff ops hstart).mpr hrest

/-- The index of a frame that was closed stands for the next one that is opened. -/
theorem closed_frame_returns :
    ∃ (before after : List ScopeOp) (id : FrameId), id ≠ .root ∧
      Legal [.root] empty (before ++ [.close id] ++ after) ∧ (empty.run before).Live id ∧
      ((empty.run before).close id).Inert id ∧
      ¬ (((empty.run before).close id).run after).Inert id ∧
      (((empty.run before).close id).run after).path? id = some (.root "b") := by
  refine ⟨[.enter .root (.root "a")], [.enter .root (.root "b")], ⟨1⟩, ?_, ?_, ?_, ?_, ?_, rfl⟩
  · decide
  · refine ⟨?_, ?_, ?_, trivial⟩ <;> decide
  · exact Nat.lt_succ_self 1
  · rw [inert_iff]
    exact Nat.lt_irrefl 1
  · rw [inert_iff, not_not]
    exact Nat.lt_succ_self 1

end TraceFormat.Arena
