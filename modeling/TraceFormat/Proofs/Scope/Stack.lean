import Mathlib.Data.List.Induction
import TraceFormat.Proofs.Scope.Closed

/-! # A stack of lexical frames

An arena in which all frames were opened in live ones is at the same time a stack, of which closing
a frame takes off the top (`Arena.frame?_close`), and a tree, in which lookups go from a frame to
the root (`Arena.Lineage`).  The two go together because a frame lies in an older one, so that no
frame that stays lies in one that is taken off.

`Arena.lookup?_eq_findSome?` says that a lookup takes the first hit on the way to the root, and
`Arena.lookup?_congr` that nothing else matters to it.  What is in a frame is what its opening has
put there and what has been bound in it since (`Arena.exists_standing`).  `Arena.run_isStack` puts
this together for all runs. -/

namespace TraceFormat

namespace ScopeOp

/-- The value that a change binds in a frame, if it does. -/
def bound? (id : FrameId) : ScopeOp → Option Definition
  | bind i d => if i = id then some d else none
  | _ => none

/-- The values that some changes bind in a frame, in order. -/
def boundTo (id : FrameId) (ops : List ScopeOp) : List Definition := ops.filterMap (bound? id)

/-- The frame that a change opens, once some values were bound in it. -/
def frame? (bound : List Definition) : ScopeOp → Option Frame
  | enter parent path => some ⟨path, some parent, .collecting bound⟩
  | attach parent struct => some ⟨struct.path, some parent, .complete struct⟩
  | _ => none

/-- What closing the frame that a change has opened gives back of the values bound in it: all of
them, unless it was opened for a structure that was decoded before. -/
def collects (bound : List Definition) : ScopeOp → List Definition
  | enter _ _ => bound
  | _ => []

end ScopeOp

namespace Arena

/-- `Lineage a id ids`: the frames `ids` lead from `id` to the root, each of them to its parent. -/
inductive Lineage (a : Arena) : FrameId → List FrameId → Prop
  | root : a.Live .root → a.parent? .root = none → Lineage a .root [.root]
  | inner {id p : FrameId} {ids : List FrameId} :
      a.parent? id = some p → Lineage a p ids → Lineage a id (id :: ids)

/-- What a frame itself has under a name. -/
def resolveAt (a : Arena) (name : String) (id : FrameId) : Option Definition :=
  (a.frame? id).bind (·.resolve name)

/-- `Standing ops id op since`: in a run of `ops`, the change `op` has opened the frame `id`, which
has been live throughout the changes `since`, all that follow. -/
def Standing (ops : List ScopeOp) (id : FrameId) (op : ScopeOp) (since : List ScopeOp) : Prop :=
  ∃ before, ops = before ++ op :: since ∧ id ∈ (empty.run before).issued op ∧
    ∀ pre, pre <+: since → (empty.run (before ++ op :: pre)).Live id

variable {a b : Arena} {id : FrameId} {ids : List FrameId} {name : String}

/-! ### Lookups on the way to the root -/

theorem exists_lineage (hg : a.Grounded) (ho : a.OlderParents) (live : a.Live id) :
    ∃ ids, a.Lineage id ids := by
  obtain ⟨index⟩ := id
  induction index using Nat.strongRecOn with
  | ind index ih =>
      by_cases hroot : (⟨index⟩ : FrameId) = .root
      · have hnone : a.parent? .root = none := by
          cases hp : a.parent? .root with
          | none => rfl
          | some p => exact absurd (ho _ _ hp) (Nat.not_lt_zero _)
        rw [hroot]
        exact ⟨_, .root hg.1 hnone⟩
      · obtain ⟨p, hp⟩ := hg.2 _ live hroot
        have hlt : p.index < index := ho _ p hp
        obtain ⟨ids, hids⟩ := ih p.index hlt (Nat.lt_trans hlt live)
        exact ⟨_, .inner hp hids⟩

theorem Lineage.length_le (h : a.Lineage id ids) (ho : a.OlderParents) :
    ids.length ≤ id.index + 1 := by
  induction h with
  | root => exact Nat.le_refl _
  | @inner id p ids hp _ ih =>
      have hlt := ho _ _ hp
      rw [List.length_cons]
      omega

theorem Lineage.live (h : a.Lineage id ids) : a.Live id := by
  cases h with
  | root hlive => exact hlive
  | inner hp => exact live_of_parent? hp

theorem Lineage.congr (h : a.Lineage id ids) (hb : ∀ i ∈ ids, b.frame? i = a.frame? i) :
    b.Lineage id ids := by
  induction h with
  | root hlive hnone =>
      have hroot : b.frame? .root = a.frame? .root := hb _ List.mem_cons_self
      refine .root ?_ ?_
      · by_contra hdead
        rw [frame?_eq_none_iff.mpr hdead] at hroot
        exact frame?_eq_none_iff.mp hroot.symm hlive
      · rw [parent?, hroot]
        exact hnone
  | @inner id p ids hp _ ih =>
      have hid : b.frame? id = a.frame? id := hb _ List.mem_cons_self
      refine .inner ?_ (ih fun i hi => hb i (List.mem_cons_of_mem _ hi))
      rw [parent?, hid]
      exact hp

theorem outward_none (n : Nat) : a.outward n none = [] := by
  cases n <;> rfl

/-- As many steps as a lineage has frames are enough for a search. -/
theorem Lineage.findSome?_outward (h : a.Lineage id ids) (name : String) {n : Nat}
    (hn : ids.length ≤ n) :
    (a.outward n (some id)).findSome? (·.resolve name) = ids.findSome? (a.resolveAt name) := by
  induction h generalizing n with
  | root hlive hnone =>
      obtain ⟨n, rfl⟩ : ∃ m, n = m + 1 := ⟨n - 1, by simp at hn; omega⟩
      cases hf : a.frame? .root with
      | none => exact absurd hlive (frame?_eq_none_iff.mp hf)
      | some f =>
          have hparent : f.parent = none := by simpa [parent?, hf] using hnone
          simp [outward, outward_none, resolveAt, hf, hparent]
  | @inner id p ids hp _ ih =>
      obtain ⟨n, rfl⟩ : ∃ m, n = m + 1 := ⟨n - 1, by simp at hn; omega⟩
      obtain ⟨f, hf, hparent⟩ := Option.bind_eq_some_iff.mp hp
      have hrest := ih (n := n) (by simpa using hn)
      cases hr : f.resolve name with
      | some d => simp [outward, resolveAt, hf, hr]
      | none => simp [outward, resolveAt, hf, hr, hparent, hrest]

theorem Lineage.lookup?_eq_findSome? (h : a.Lineage id ids) (hlen : ids.length ≤ a.frames.length)
    (name : String) : a.lookup? id name = ids.findSome? (a.resolveAt name) :=
  h.findSome?_outward name hlen

theorem lookup?_eq_findSome? (ho : a.OlderParents) (h : a.Lineage id ids) (name : String) :
    a.lookup? id name = ids.findSome? (a.resolveAt name) := by
  have hlen := h.length_le ho
  have hlive : id.index < a.frames.length := h.live
  exact h.lookup?_eq_findSome? (by omega) name

theorem lookup?_congr (ho : a.OlderParents) (h : a.Lineage id ids)
    (hb : ∀ i ∈ ids, b.frame? i = a.frame? i) (name : String) :
    b.lookup? id name = a.lookup? id name := by
  have hlen := h.length_le ho
  have hlive : id.index < b.frames.length := (h.congr hb).live
  rw [(h.congr hb).lookup?_eq_findSome? (by omega), lookup?_eq_findSome? ho h]
  have hframes : ids.map b.frame? = ids.map a.frame? := List.map_congr_left hb
  have hresolve : ∀ c : Arena, ids.findSome? (c.resolveAt name) =
      (ids.map c.frame?).findSome? (·.bind (·.resolve name)) := by
    intro c
    rw [List.findSome?_map]
    rfl
  rw [hresolve b, hresolve a, hframes]

/-! ### What a change leaves of a frame -/

theorem frame?_close (hroot : id ≠ .root) (i : FrameId) :
    (a.close id).frame? i = if i.index < id.index then a.frame? i else none := by
  simp [close, hroot, frame?, List.getElem?_take]

theorem frame?_add {f : Frame} (live : a.Live id) : (a.add f).frame? id = a.frame? id := by
  rw [frame?, frame?, add, List.getElem?_append_left live]

theorem frame?_bind (i : FrameId) (d : Definition) :
    (a.bind i d).frame? id = if i = id then (a.frame? id).map (Frame.bind d) else a.frame? id := by
  have hindex : i.index = id.index ↔ i = id := by
    cases i
    cases id
    simp
  by_cases h : i = id
  · simp [frame?, bind, h]
  · simp [frame?, bind, hindex, h]

/-- A frame that was opened for a structure that was decoded before takes no values. -/
theorem map_bind_frame? (op : ScopeOp) (bound : List Definition) (d : Definition) :
    (op.frame? bound).map (Frame.bind d) = op.frame? (bound ++ [d]) := by
  cases op <;> rfl

theorem collected_eq {op : ScopeOp} {bound : List Definition} (hroot : id ≠ .root)
    (h : a.frame? id = op.frame? bound) : a.collected id = op.collects bound := by
  simp only [collected, hroot, if_false, h]
  cases op <;> rfl

theorem live_of_live_apply {op : ScopeOp} (h : (a.apply op).Live id) (hop : id ∉ a.issued op) :
    a.Live id := by
  by_contra hdead
  exact hop ((live_apply_iff hdead op).mp h)

theorem frame?_apply_of_issued {op : ScopeOp} (h : id ∈ a.issued op) :
    (a.apply op).frame? id = op.frame? [] := by
  cases op with
  | enter parent path =>
      obtain rfl : id = a.next := by simpa [issued, ScopeOp.parent?] using h
      simp [apply, enter, frame?, add, next, ScopeOp.frame?]
  | attach parent struct =>
      obtain rfl : id = a.next := by simpa [issued, ScopeOp.parent?] using h
      simp [apply, attach, frame?, add, next, ScopeOp.frame?]
  | bind i d => simp [issued, ScopeOp.parent?] at h
  | close i => simp [issued, ScopeOp.parent?] at h

/-- A frame that stays live under a change takes the value that the change binds in it, if there is
one, and is otherwise as it was. -/
theorem frame?_apply {op opening : ScopeOp} {bound : List Definition}
    (h : a.frame? id = opening.frame? bound) (live : a.Live id) (hlive : (a.apply op).Live id) :
    (a.apply op).frame? id = opening.frame? (bound ++ (op.bound? id).toList) := by
  cases op with
  | enter parent path => simp [apply, enter, frame?_add live, h, ScopeOp.bound?]
  | attach parent struct => simp [apply, attach, frame?_add live, h, ScopeOp.bound?]
  | bind i d =>
      rw [apply, frame?_bind, h]
      by_cases hi : i = id
      · simp [hi, ScopeOp.bound?, map_bind_frame?]
      · simp [hi, ScopeOp.bound?]
  | close i =>
      have hlt := (live_close.mp hlive).2
      by_cases hroot : i = .root
      · simp [apply, close, hroot, h, ScopeOp.bound?]
      · rw [apply, frame?_close hroot, if_pos (hlt hroot), h]
        simp [ScopeOp.bound?]

/-! ### What a run has put into a frame -/

theorem run_concat (ops : List ScopeOp) (op : ScopeOp) :
    a.run (ops ++ [op]) = (a.run ops).apply op := by
  simp [run]

theorem Standing.concat {ops since : List ScopeOp} {opening op : ScopeOp}
    (h : Standing ops id opening since) (hlive : (empty.run (ops ++ [op])).Live id) :
    Standing (ops ++ [op]) id opening (since ++ [op]) := by
  obtain ⟨before, rfl, hissued, hsince⟩ := h
  refine ⟨before, by simp, hissued, fun pre hpre => ?_⟩
  rcases List.prefix_concat_iff.mp hpre with rfl | hpre'
  · simpa using hlive
  · exact hsince pre hpre'

/-- Every frame but the root has been opened in the run, and holds what its opening has put there
and what has been bound in it since. -/
theorem exists_standing (ops : List ScopeOp) (live : (empty.run ops).Live id) (hroot : id ≠ .root) :
    ∃ op since, Standing ops id op since ∧
      (empty.run ops).frame? id = op.frame? (ScopeOp.boundTo id since) := by
  induction ops using List.reverseRecOn with
  | nil => exact absurd (congrArg FrameId.mk (Nat.lt_one_iff.mp live)) hroot
  | append_singleton ops op ih =>
      have hlive := live
      rw [run_concat] at live
      by_cases hop : id ∈ (empty.run ops).issued op
      · -- the last change has opened the frame
        refine ⟨op, [], ⟨ops, rfl, hop, fun pre hpre => ?_⟩, ?_⟩
        · rw [List.prefix_nil.mp hpre]
          exact hlive
        · rw [run_concat]
          exact frame?_apply_of_issued hop
      · have hbefore := live_of_live_apply live hop
        obtain ⟨opening, since, hstanding, hframe⟩ := ih hbefore
        refine ⟨opening, since ++ [op], hstanding.concat hlive, ?_⟩
        rw [run_concat, frame?_apply hframe hbefore live]
        cases hb : op.bound? id <;> simp [ScopeOp.boundTo, hb]

/-! ### The stack -/

/-- What makes the arena after a run a stack of lexical frames. -/
structure IsStack (ops : List ScopeOp) (a : Arena) : Prop where
  /-- Every frame but the root lies in a live one that is older. -/
  parents : ∀ id, a.Live id → id ≠ .root →
    ∃ p, a.parent? id = some p ∧ a.Live p ∧ p.index < id.index
  /-- A search ends with the first hit on the way to the root, and what is in any other frame does
  not matter to it. -/
  lookups : ∀ id, a.Live id → ∃ ids, a.Lineage id ids ∧ ∀ name,
    a.Finds name (some id) (a.lookup? id name) ∧
    a.lookup? id name = ids.findSome? (a.resolveAt name) ∧
    ∀ b : Arena, (∀ i ∈ ids, b.frame? i = a.frame? i) → b.lookup? id name = a.lookup? id name
  /-- Closing takes a frame and those after it off the stack, leaves the others as they are, and
  gives back what was bound in the frame since it was opened. -/
  closing : ∀ id, a.Live id → id ≠ .root →
    (∀ i, (a.close id).frame? i = if i.index < id.index then a.frame? i else none) ∧
    ∃ op since, Standing ops id op since ∧
      a.collected id = op.collects (ScopeOp.boundTo id since)
  /-- Nothing is bound in a structure that was decoded before, nor in a closed frame. -/
  binding : ∀ id, (¬ a.Live id ∨ ∃ f s, a.frame? id = some f ∧ f.contents = .complete s) →
    ∀ d, a.bind id d = a
  /-- The root is never closed, and no frame is closed twice. -/
  closed : ∀ id, id = .root ∨ ¬ a.Live id → a.close id = a ∧ a.collected id = []

theorem bind_eq_self_of_complete {f : Frame} {s : StructDefinition} (hf : a.frame? id = some f)
    (hs : f.contents = .complete s) (d : Definition) : a.bind id d = a := by
  have hbind : f.bind d = f := by simp [Frame.bind, hs]
  have hframes : a.frames.modify id.index (Frame.bind d) = a.frames := by
    apply List.ext_getElem?
    intro i
    have hget : a.frames[id.index]? = some f := hf
    by_cases hi : id.index = i
    · subst hi
      simp [hget, hbind]
    · simp [hi]
  rw [bind, hframes]

/-- After a run that opens frames only in live ones the arena is a stack of lexical frames. -/
theorem run_isStack (ops : List ScopeOp) (h : empty.OpensLive ops) :
    (empty.run ops).IsStack ops := by
  have ho := (run_olderParents_iff ops olderParents_empty).mpr h ops List.prefix_rfl
  have hg := grounded_run ops grounded_empty
  constructor
  · intro id live hroot
    obtain ⟨p, hp⟩ := hg.2 id live hroot
    have hlt := ho id p hp
    exact ⟨p, hp, Nat.lt_trans hlt live, hlt⟩
  · intro id live
    obtain ⟨ids, hids⟩ := exists_lineage hg ho live
    refine ⟨ids, hids, fun name => ⟨finds_lookup? ho id name, ?_, fun b hb => ?_⟩⟩
    · exact lookup?_eq_findSome? ho hids name
    · exact lookup?_congr ho hids hb name
  · intro id live hroot
    obtain ⟨op, since, hstanding, hframe⟩ := exists_standing ops live hroot
    exact ⟨frame?_close hroot, op, since, hstanding, collected_eq hroot hframe⟩
  · rintro id (hdead | ⟨f, s, hf, hs⟩) d
    · exact bind_eq_self hdead d
    · exact bind_eq_self_of_complete hf hs d
  · rintro id (rfl | hdead)
    · exact ⟨rfl, rfl⟩
    · exact ⟨close_eq_self hdead, collected_eq_nil hdead⟩

theorem run_isStack_siblings :
    ∃ (packet : StructDefinition) (v w : Definition),
      let ops : List ScopeOp := [.attach .root packet, .enter ⟨1⟩ (.root "fields"), .bind ⟨2⟩ v,
        .enter ⟨1⟩ (.root "other"), .bind ⟨3⟩ w, .bind ⟨2⟩ w, .close ⟨3⟩,
        .enter ⟨2⟩ (.root "inner")]
      empty.OpensLive ops ∧ (empty.run ops).IsStack ops := by
  refine ⟨default, default, default, ?_, run_isStack _ ?_⟩ <;>
    simp [OpensLive, ScopeOp.parent?, Live, apply, attach, enter, bind, close, add, empty,
      FrameId.root]

end Arena

end TraceFormat
