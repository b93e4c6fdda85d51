import TraceFormat.Proofs.Decode.Arena
import TraceFormat.Proofs.Decode.Surroundings
import TraceFormat.Proofs.Scope.Stack

/-! # Frames are surroundings

An arena shows from a frame the structures that the frames hold on the way to the root
(`Arena.Shows`), and a new frame shows one more (`Arena.Shows.add`).  So a structure that is decoded
in a frame of its own sees what `Declaration.decodeFieldsWithin` gives to its fields.

`DecodeM.Follows` compares an action in an arena with one that has none: both end at the same place
of the region, with the same error or with results that are related.  It passes through sequencing
(`DecodeM.Follows.bind`), and `Declaration.lexical` is the comparison for all declarations. -/

namespace TraceFormat

/-- What can be seen in a frame. -/
def Frame.level (f : Frame) : Level := ⟨f.path, f.fields⟩

/-! ### What a frame shows -/

namespace Arena

/-- `a.Shows scope around`: references from the frame `scope` find what they find in `around`. -/
structure Shows (a : Arena) (scope : FrameId) (around : Surroundings) : Prop where
  ordered : a.OlderParents
  live : a.Live scope
  lookup?_eq : ∀ name, a.lookup? scope name = around.lookup? name
  bindings_eq : a.bindings scope = around.innermost

variable {a : Arena} {scope : FrameId} {around : Surroundings}

theorem outward_add (ho : a.OlderParents) (f : Frame) (n : Nat) {id : FrameId} (live : a.Live id) :
    (a.add f).outward n (some id) = a.outward n (some id) := by
  induction n generalizing id with
  | zero => rfl
  | succ n ih =>
      simp only [outward, Option.bind_some, frame?_add live]
      cases hf : a.frame? id with
      | none => rfl
      | some g =>
          cases hp : g.parent with
          | none => simp only [hp, outward_none]
          | some p =>
              have hparent : a.parent? id = some p := Option.bind_eq_some_iff.mpr ⟨g, hf, hp⟩
              have hlt := ho id p hparent
              simp only [hp, ih (Nat.lt_trans hlt live)]

/-- A new frame is the innermost of what it shows. -/
theorem Shows.add (h : a.Shows scope around) {f : Frame} (hf : f.parent = some scope) :
    (a.add f).Shows a.next (f.level :: around) := by
  have hnext : (a.add f).frame? a.next = some f := a.frame?_next_add f
  refine ⟨?_, live_add.mpr (.inr rfl), fun name => ?_, ?_⟩
  · rw [olderParents_add_iff h.ordered]
    intro p hp
    obtain rfl : scope = p := Option.some_inj.mp (hf.symm.trans hp)
    exact h.live
  · have hlength : (a.add f).frames.length = a.frames.length + 1 := List.length_append
    have hchain : (a.add f).chain a.next = f :: a.chain scope := by
      rw [chain, hlength, outward, Option.bind_some, hnext]
      simp only [hf, outward_add h.ordered f a.frames.length h.live, chain]
    have hrest : (a.chain scope).findSome? (·.resolve name) = around.lookup? name :=
      h.lookup?_eq name
    rw [lookup?, hchain, List.findSome?_cons, hrest]
    rfl
  · simp [bindings, hnext, Surroundings.innermost, Frame.level]

theorem Shows.collecting (h : a.Shows scope around) (path : Path) (fields : List Definition) :
    (a.collecting scope path fields).Shows a.next (⟨path, fields⟩ :: around) :=
  h.add rfl

theorem Shows.attach (h : a.Shows scope around) (s : StructDefinition) :
    (a.attach scope s).Shows a.next (s.level :: around) :=
  h.add rfl

theorem shows_empty : empty.Shows .root [] := by
  refine ⟨olderParents_empty, Nat.zero_lt_one, fun name => ?_, rfl⟩
  have hnone : ∀ parts head, Definition.resolveParts [] head parts = none := by
    rintro (_ | _) head <;> rfl
  have hresolve : Definition.resolve [] name = none := hnone _ _
  simp [lookup?, chain, outward, empty, frame?, FrameId.root, Frame.resolve, Frame.fields,
    Path.relative?, Path.isEmpty, Path.empty, hresolve, Surroundings.lookup?]

end Arena

/-! ### Actions with and without an arena -/

namespace DecodeM

variable {α β γ δ : Type}

/-- `Follows a x y R`: from the arena `a` and any cursor, `x` does what `y` does without an arena.
Where `y` fails `x` fails likewise, and where `y` succeeds so does `x`, with a result and an arena
that stand in the relation `R` to the result of `y`. -/
def Follows (a : Arena) (x : DecodeM α) (y : EStateM DecodeError Cursor β)
    (R : α → β → Arena → Prop) : Prop := ∀ c,
  match y c with
  | .ok w c' => ∃ v a', x ⟨c, a⟩ = .ok v ⟨c', a'⟩ ∧ R v w a'
  | .error e c' => ∃ a', x ⟨c, a⟩ = .error e ⟨c', a'⟩

/-- The same result, and the arena as it was. -/
def Same (a : Arena) (v w : α) (b : Arena) : Prop := v = w ∧ b = a

variable {a : Arena} {R : α → β → Arena → Prop} {x : DecodeM α} {y : EStateM DecodeError Cursor β}

theorem follows_pure {v : α} {w : β} (h : R v w a) : Follows a (pure v) (pure w) R :=
  fun _ => ⟨v, a, rfl, h⟩

theorem follows_throw (e : DecodeError) : Follows a (throw e) (throw e) R :=
  fun _ => ⟨a, rfl⟩

theorem Follows.bind {f : α → DecodeM γ} {g : β → EStateM DecodeError Cursor δ}
    {Q : γ → δ → Arena → Prop} (hx : Follows a x y R)
    (hf : ∀ v w a', R v w a' → Follows a' (f v) (g w) Q) : Follows a (x >>= f) (y >>= g) Q := by
  intro c
  have h := hx c
  simp only [Bind.bind, EStateM.bind]
  cases hy : y c with
  | ok w c' =>
      rw [hy] at h
      obtain ⟨v, a', hv, hR⟩ := h
      simp only [hv]
      exact hf v w a' hR c'
  | error e c' =>
      rw [hy] at h
      obtain ⟨a', he⟩ := h
      simp only [he]
      exact ⟨a', rfl⟩

theorem Follows.bind_same {x : DecodeM α} {y : EStateM DecodeError Cursor α} {f : α → DecodeM γ}
    {g : α → EStateM DecodeError Cursor δ} {Q : γ → δ → Arena → Prop}
    (hx : Follows a x y (Same a)) (hf : ∀ v, Follows a (f v) (g v) Q) :
    Follows a (x >>= f) (y >>= g) Q := by
  refine hx.bind fun v w a' h => ?_
  obtain ⟨rfl, rfl⟩ := h
  exact hf v

theorem Follows.bind_pure_same {x : DecodeM α} {y : EStateM DecodeError Cursor α} (f : α → γ)
    (hx : Follows a x y (Same a)) :
    Follows a (x >>= fun v => pure (f v)) (y >>= fun v => pure (f v)) (Same a) :=
  hx.bind_same fun _ => follows_pure ⟨rfl, rfl⟩

theorem follows_align (unit : Nat) : Follows a (align unit) (alignTo unit) (Same a) :=
  fun _ => ⟨(), a, rfl, rfl, rfl⟩

theorem follows_ofRead (action : ReadM α) :
    Follows a (ofRead action) (ofRead action).onCursor (Same a) := by
  intro c
  simp only [onCursor, ofRead]
  cases action c with
  | ok v c' => exact ⟨v, a, rfl, rfl, rfl⟩
  | error e c' => exact ⟨a, rfl⟩

theorem follows_ofArena {f : Arena → Except DecodeError α} {r : Except DecodeError α}
    (h : f a = r) : Follows a (ofArena f) (MonadExcept.ofExcept r) (Same a) := by
  intro c
  subst h
  simp only [ofArena]
  cases f a with
  | ok v => exact ⟨v, a, rfl, rfl, rfl⟩
  | error e => exact ⟨a, rfl⟩

/-- An action that does no more than change the arena needs no counterpart. -/
theorem Follows.arena_bind {b : Arena} {z : DecodeM γ} {g : γ → DecodeM α} {v : γ}
    (hz : ∀ c, z ⟨c, a⟩ = .ok v ⟨c, b⟩) (hg : Follows b (g v) y R) : Follows a (z >>= g) y R := by
  have hstep : ∀ c, (z >>= g) ⟨c, a⟩ = g v ⟨c, b⟩ := by
    intro c
    simp only [Bind.bind, EStateM.bind, hz]
  intro c
  rw [hstep]
  exact hg c

theorem ofArena_apply {f : Arena → Except DecodeError γ} {v : γ} (h : f a = .ok v) (c : Cursor) :
    ofArena f ⟨c, a⟩ = .ok v ⟨c, a⟩ := by
  simp only [ofArena, h]

theorem bindIn_apply (id : FrameId) (d : Definition) (c : Cursor) :
    bindIn id d ⟨c, a⟩ = .ok () ⟨c, a.bind id d⟩ := rfl

theorem attachUnder_apply (parent : FrameId) (s : StructDefinition) (c : Cursor) :
    attachUnder parent s ⟨c, a⟩ = .ok a.next ⟨c, a.attach parent s⟩ := rfl

theorem follows_forIndices {f : Nat → DecodeM α} {g : Nat → EStateM DecodeError Cursor α}
    (h : ∀ i, Follows a (f i) (g i) (Same a)) (n index : Nat) (done : List α) :
    Follows a (forIndices f n index done)
      (do return done.reverse ++ (← (List.range' index n).mapM g)) (Same a) := by
  induction n generalizing index done with
  | zero =>
      simp only [forIndices, List.range'_zero, List.mapM_nil, pure_bind, List.append_nil]
      exact follows_pure ⟨rfl, rfl⟩
  | succ n ih =>
      simp only [forIndices, List.range'_succ, List.mapM_cons, bind_assoc, pure_bind]
      refine (h index).bind_same fun v => ?_
      simpa using ih (index + 1) (v :: done)

/-- A frame in which fields are bound one by one gives back these fields. -/
theorem follows_collectIn {parent : FrameId} {path : Path} {body : FrameId → DecodeM Unit}
    {y : EStateM DecodeError Cursor (List Definition)} (root : a.next ≠ .root)
    (h : Follows (a.collecting parent path []) (body a.next) y
      fun _ fields b => b = a.collecting parent path fields) :
    Follows a (collectIn parent path body) y (Same a) := by
  intro c
  have hbody := h c
  simp only [collectIn, Arena.enter_eq_collecting]
  cases hy : y c with
  | ok fields c' =>
      rw [hy] at hbody
      obtain ⟨v, b, hv, rfl⟩ := hbody
      simp only [hv]
      have hcollected := a.collected_collecting parent path fields root
      have hclose := a.close_collecting parent path fields root
      exact ⟨_, _, rfl, hcollected, hclose⟩
  | error e c' =>
      rw [hy] at hbody
      obtain ⟨b, he⟩ := hbody
      simp only [he]
      exact ⟨_, rfl⟩

end DecodeM

/-! ### Decoding -/

namespace Declaration

open DecodeM (Follows Same follows_pure follows_throw follows_align follows_ofRead follows_ofArena
  follows_forIndices follows_collectIn)

/-- Whether a value is decoded in every frame as in what the frame shows. -/
def Lexical (limits : Limits) (d : Declaration) : Prop :=
  ∀ {a : Arena} {scope : FrameId} {around : Surroundings}, a.Shows scope around → ∀ path,
    Follows a (decodeAt limits d scope path) (decodeWithin limits d around path) (Same a)

variable {limits : Limits} {a : Arena} {scope : FrameId} {around : Surroundings}

theorem sequenceLength_eq_lengthOf (hshows : a.Shows scope around) (limits : Limits) (name : String)
    (path : Path) :
    sequenceLength limits name scope path a = lengthOf limits name path (around.lookup? name) := by
  rw [sequenceLength, hshows.lookup?_eq]
  rfl

theorem selectedLabel_eq_labelWithin (hshows : a.Shows scope around) (tag : Option String)
    (path : Path) : selectedLabel tag scope path a = labelWithin tag path around := by
  cases tag with
  | none => rfl
  | some name =>
      rw [selectedLabel, labelWithin, hshows.lookup?_eq]
      rfl

theorem follows_decodeText (limits : Limits) (encoding : Encoding) (path : Path) :
    Follows a (decodeText limits encoding path) (decodeText limits encoding path).onCursor
      (Same a) := by
  intro c
  simp only [DecodeM.onCursor, decodeText, DecodeM.align, DecodeM.ofRead, Bind.bind, EStateM.bind,
    alignTo]
  cases readTextUntil limits.maxStringLength encoding
      (c.alignTo (Declaration.string encoding).alignment) with
  | error e c' => exact ⟨a, rfl⟩
  | ok v c' =>
      obtain ⟨text, stop⟩ := v
      -- whether the text ends within the limit is decided without the arena
      cases stop with
      | limit =>
          cases limits.maxStringLength with
          | none => exact ⟨text, a, rfl, rfl, rfl⟩
          | some max => exact ⟨a, rfl⟩
      | _ => exact ⟨text, a, rfl, rfl, rfl⟩

theorem follows_elements {element : Declaration} (h : element.Lexical limits)
    (hshows : a.Shows scope around) (n : Nat) (path : Path) :
    Follows a (DecodeM.forIndices (fun i => decodeAt limits element scope (path.element i)) n 0 [])
      ((List.range n).mapM fun i => decodeWithin limits element around (path.element i))
      (Same a) := by
  have helements := follows_forIndices (fun i => h hshows (path.element i)) n 0 []
  simpa [List.range_eq_range'] using helements

theorem follows_decodeFields {members : Members} (h : ∀ m ∈ members, m.2.Lexical limits)
    (hshows : a.Shows scope around) (path : Path) (done : List Definition) :
    Follows (a.collecting scope path done) (decodeFields limits members a.next)
      (decodeFieldsWithin limits members around path done)
      fun _ fields b => b = a.collecting scope path fields := by
  induction members generalizing done with
  | nil =>
      rw [decodeFields, decodeFieldsWithin]
      exact follows_pure rfl
  | cons m members ih =>
      obtain ⟨name, d⟩ := m
      rw [List.forall_mem_cons] at h
      rw [decodeFields, decodeFieldsWithin]
      have hpath := a.fieldPath_collecting scope path done name
      have hvalue := h.1 (hshows.collecting path done) (path.child name)
      refine .arena_bind (DecodeM.ofArena_apply (congrArg Except.ok hpath)) ?_
      refine hvalue.bind_same fun value => .arena_bind (DecodeM.bindIn_apply a.next value) ?_
      -- with the value bound, the frame is the one in which the next field is decoded
      rw [a.bind_collecting scope path done value]
      exact ih h.2 (done ++ [value])

theorem follows_collectFields {members : Members} (h : ∀ m ∈ members, m.2.Lexical limits)
    (hshows : a.Shows scope around) (path : Path) :
    Follows a (DecodeM.collectIn scope path fun id => decodeFields limits members id)
      (decodeFieldsWithin limits members around path []) (Same a) :=
  follows_collectIn hshows.live.next_ne_root (follows_decodeFields h hshows path [])

theorem follows_decodeMember {members : Members} (h : ∀ m ∈ members, m.2.Lexical limits)
    (hshows : a.Shows scope around) (label : String) (path : Path) :
    Follows a (decodeMember limits members label scope path)
      (decodeMemberWithin limits members label around path) (Same a) := by
  induction members with
  | nil =>
      rw [decodeMember, decodeMemberWithin]
      exact follows_throw _
  | cons m members ih =>
      obtain ⟨name, d⟩ := m
      rw [List.forall_mem_cons] at h
      rw [decodeMember, decodeMemberWithin]
      split_ifs
      · exact h.1 hshows (path.child label)
      · exact ih h.2

/-- In a frame a value is decoded as in what the frame shows. -/
theorem lexical (limits : Limits) (d : Declaration) : d.Lexical limits := by
  induction d using Declaration.induction with
  | integer t =>
      intro a scope around _ path
      rw [decodeAt, decodeWithin]
      exact (follows_ofRead t.read).bind_pure_same _
  | float t =>
      intro a scope around _ path
      rw [decodeAt, decodeWithin]
      exact (follows_ofRead t.read).bind_pure_same _
  | string encoding =>
      intro a scope around _ path
      rw [decodeAt, decodeWithin]
      exact (follows_decodeText limits encoding path).bind_pure_same _
  | enum t =>
      intro a scope around _ path
      rw [decodeAt, decodeWithin]
      exact (follows_ofRead t.container.read).bind_pure_same _
  | array n element ih =>
      intro a scope around hshows path
      rw [decodeAt, decodeWithin]
      have helements := follows_elements ih hshows n path
      exact (follows_align _).bind_same fun _ => helements.bind_pure_same _
  | sequence name element ih =>
      intro a scope around hshows path
      rw [decodeAt, decodeWithin]
      have hlength := sequenceLength_eq_lengthOf hshows limits name path
      refine (follows_ofArena hlength).bind_same fun n => (follows_align _).bind_same fun _ => ?_
      have helements := follows_elements ih hshows n path
      exact helements.bind_pure_same _
  | struct minAlignment members ih =>
      intro a scope around hshows path
      rw [decodeAt, decodeWithin]
      have hfields := follows_collectFields ih hshows path
      exact (follows_align _).bind_same fun _ => hfields.bind_pure_same _
  | variant tag members ih =>
      intro a scope around hshows path
      rw [decodeAt, decodeWithin]
      have hlabel := selectedLabel_eq_labelWithin hshows tag path
      refine (follows_ofArena hlabel).bind_same fun label => ?_
      refine .arena_bind (DecodeM.ofArena_apply (congrArg Except.ok hshows.bindings_eq)) ?_
      have hmember := follows_decodeMember ih hshows label path
      exact hmember.bind_pure_same _

end Declaration

theorem StructType.follows_decodeAt (limits : Limits) (t : StructType) {a : Arena} {scope : FrameId}
    {around : Surroundings} (hshows : a.Shows scope around) (path : Path) :
    DecodeM.Follows a (t.decodeAt limits scope path) (t.decodeWithin limits around path)
      (DecodeM.Same a) := by
  have hmembers : ∀ m ∈ t.members, m.2.Lexical limits := fun m _ => m.2.lexical limits
  have hfields := Declaration.follows_collectFields hmembers hshows path
  exact (DecodeM.follows_align _).bind_same fun _ => hfields.bind_pure_same _

end TraceFormat
