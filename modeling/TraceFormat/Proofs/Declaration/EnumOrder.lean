import TraceFormat.Proofs.Descriptor.WellFormed

/-! # Ranges added in any order

Whether a table takes a range depends on what it has already, so on the calls before.  Yet a list of
ranges is taken whole exactly if no range is empty and any two are the same or apart
(`EnumType.acceptsAll_iff`), in which the order of the ranges has no part.  What has been added to a
table in order is in order again, and such a table is the only one with its ranges; so no order of
the calls leads to a table of its own (`EnumType.addAll_eq_of_mem_iff`).

Where some calls are refused, the table is that of the others (`EnumType.accepted`) without them, and
these may be made in any order too (`EnumType.insertion_order`). -/

namespace TraceFormat.EnumType

/-- Whether a table takes ranges one after the other. -/
def AcceptsAll (t : EnumType) : List EnumRange → Prop
  | [] => True
  | r :: calls => t.Accepts r ∧ (t.add r).AcceptsAll calls

instance (t : EnumType) (r : EnumRange) : Decidable (t.Accepts r) :=
  match h : t.insert r.low r.high r.label with
  | .ok t' => .isTrue ⟨t', h⟩
  | .error _ => .isFalse fun ⟨_, h'⟩ => nomatch h.symm.trans h'

/-- The calls that a table accepts, of some that are made one after the other. -/
def accepted (t : EnumType) : List EnumRange → List EnumRange
  | [] => []
  | r :: calls => (if t.Accepts r then [r] else []) ++ (t.add r).accepted calls

variable {t : EnumType} {container : IntegerType} {calls kept ranges : List EnumRange}
  {r : EnumRange}

/-! ### What is taken -/

theorem Ordered.accepts_iff (h : Ordered t.ranges) :
    t.Accepts r ↔ r.low ≤ r.high ∧ ∀ s ∈ t.ranges, s = r ∨ ¬ s.Shares r := by
  rw [← not_iff_not, not_accepts_iff, h.insert_eq_error_iff]
  unfold EnumRange.Shares
  constructor
  · rintro (hempty | ⟨s, hs, hne, hshared⟩) ⟨hr, hall⟩
    · omega
    · exact (hall s hs).elim hne fun hapart => hapart hshared
  · intro hnot
    by_contra! hall
    exact hnot ⟨hall.1, fun s hs => or_iff_not_imp_left.mpr fun hne ⟨v, hv⟩ =>
      hall.2 s hs hne v hv.1 hv.2⟩

theorem container_add (t : EnumType) (r : EnumRange) : (t.add r).container = t.container := by
  by_cases h : t.Accepts r ∧ r ∉ t.ranges
  · exact (perm_add h.1 h.2).1
  · rw [add_eq_self (by tauto)]

theorem container_addAll (t : EnumType) (calls : List EnumRange) :
    (t.addAll calls).container = t.container := by
  induction calls generalizing t with
  | nil => rfl
  | cons r calls ih => exact (ih (t.add r)).trans (container_add t r)

theorem mem_addAll_iff_mem_accepted :
    r ∈ (t.addAll calls).ranges ↔ r ∈ t.ranges ∨ r ∈ t.accepted calls := by
  induction calls generalizing t with
  | nil => simp [addAll, accepted]
  | cons s calls ih =>
      have hstep : t.addAll (s :: calls) = (t.add s).addAll calls := rfl
      rw [hstep, ih, mem_add_iff, accepted, List.mem_append, or_assoc]
      split_ifs with haccepts <;> simp [haccepts]

theorem accepted_of_acceptsAll (h : t.AcceptsAll calls) : t.accepted calls = calls := by
  induction calls generalizing t with
  | nil => rfl
  | cons r calls ih => rw [accepted, if_pos h.1, ih h.2, List.singleton_append]

/-! ### In any order -/

theorem Ordered.rangesWellFormed (h : Ordered ranges) (hkept : ∀ r ∈ kept, r ∈ ranges) :
    RangesWellFormed kept := by
  refine ⟨fun r hr => h.nonempty r (hkept r hr), List.pairwise_of_forall_mem_list ?_⟩
  intro r hr s hs
  refine or_iff_not_imp_left.mpr fun hne => ?_
  rintro ⟨v, hrv, hsv⟩
  exact hne (h.eq_of_contains (hkept r hr) (hkept s hs) hrv hsv)

theorem acceptsAll_of_rangesWellFormed (h : Ordered t.ranges)
    (hown : ∀ s ∈ t.ranges, ∀ r ∈ calls, s = r ∨ ¬ s.Shares r) (hcalls : RangesWellFormed calls) :
    t.AcceptsAll calls := by
  induction calls generalizing t with
  | nil => trivial
  | cons r calls ih =>
      obtain ⟨hne, hapart⟩ := hcalls
      rw [List.forall_mem_cons] at hne
      rw [List.pairwise_cons] at hapart
      have haccepts : t.Accepts r :=
        h.accepts_iff.mpr ⟨hne.1, fun s hs => hown s hs r List.mem_cons_self⟩
      refine ⟨haccepts, ih (ordered_add h r) (fun s hs u hu => ?_) ⟨hne.2, hapart.2⟩⟩
      rcases mem_add_iff.mp hs with hs | ⟨rfl, -⟩
      · exact hown s hs u (List.mem_cons_of_mem r hu)
      · exact hapart.1 u hu

/-- Calls are all accepted exactly if no range is empty and any two are the same or apart. -/
theorem acceptsAll_iff : (empty container).AcceptsAll calls ↔ RangesWellFormed calls := by
  constructor
  · intro h
    refine (ordered_addAll container calls).rangesWellFormed fun r hr => ?_
    rw [mem_addAll_iff_mem_accepted, accepted_of_acceptsAll h]
    exact .inr hr
  · exact acceptsAll_of_rangesWellFormed ⟨by simp [empty], .nil⟩ (by simp [empty])

theorem addAll_eq_of_mem_iff (h : (empty container).AcceptsAll kept)
    (hmem : ∀ r, r ∈ kept ↔ r ∈ ((empty container).addAll calls).ranges) :
    (empty container).addAll kept = (empty container).addAll calls := by
  have hranges : ((empty container).addAll kept).ranges =
      ((empty container).addAll calls).ranges := by
    refine (ordered_addAll container kept).eq_of_mem_iff (ordered_addAll container calls) ?_
    intro r
    rw [mem_addAll_iff_mem_accepted, accepted_of_acceptsAll h, ← hmem]
    simp [empty]
  rw [EnumType.mk.injEq]
  exact ⟨(container_addAll _ kept).trans (container_addAll _ calls).symm, hranges⟩

/-- Calls that are all accepted are so in any other order, and lead to the same table.  Of calls
that are not, those accepted have the ranges of the table, and just these ranges, once or repeatedly
and in any order, are all accepted and lead to it again. -/
theorem insertion_order (container : IntegerType) (calls : List EnumRange) :
    ((empty container).AcceptsAll calls → ∀ calls', calls'.Perm calls →
      (empty container).AcceptsAll calls' ∧
      (empty container).addAll calls' = (empty container).addAll calls) ∧
    (∀ r, r ∈ ((empty container).addAll calls).ranges ↔
      r ∈ (empty container).accepted calls) ∧
    ∀ kept, (∀ r, r ∈ kept ↔ r ∈ (empty container).accepted calls) →
      (empty container).AcceptsAll kept ∧
      (empty container).addAll kept = (empty container).addAll calls := by
  have hmem : ∀ r, r ∈ ((empty container).addAll calls).ranges ↔
      r ∈ (empty container).accepted calls := by
    intro r
    rw [mem_addAll_iff_mem_accepted]
    simp [empty]
  have hkept : ∀ kept, (∀ r, r ∈ kept ↔ r ∈ (empty container).accepted calls) →
      (empty container).AcceptsAll kept ∧
      (empty container).addAll kept = (empty container).addAll calls := by
    intro kept hkept
    simp only [← hmem] at hkept
    have haccepts : (empty container).AcceptsAll kept := by
      rw [acceptsAll_iff]
      exact (ordered_addAll container calls).rangesWellFormed fun r => (hkept r).mp
    exact ⟨haccepts, addAll_eq_of_mem_iff haccepts hkept⟩
  refine ⟨fun haccepts calls' hperm => hkept calls' fun r => ?_, hmem, hkept⟩
  rw [accepted_of_acceptsAll haccepts, hperm.mem_iff]

/-- A repeated range that moves forward, and a refused one between two others that change places. -/
theorem insertion_order_swapped :
    let table := empty .uint8
    let a : EnumRange := ⟨0, 4, "a"⟩
    let b : EnumRange := ⟨5, 9, "b"⟩
    let c : EnumRange := ⟨3, 6, "c"⟩
    table.AcceptsAll [b, a, b] ∧ table.addAll [a, b, b] = table.addAll [b, a, b] ∧
      table.accepted [a, c, b] = [a, b] ∧ table.addAll [b, a] = table.addAll [a, c, b] := by
  intro table a b c
  have hall : table.AcceptsAll [b, a, b] := ⟨by decide, by decide, by decide, trivial⟩
  have hperm : [a, b, b].Perm [b, a, b] := .swap b a [b]
  have haccepted : table.accepted [a, c, b] = [a, b] := by decide
  have hmem : ∀ r, r ∈ [b, a] ↔ r ∈ table.accepted [a, c, b] := by
    intro r
    rw [haccepted, (List.Perm.swap a b []).mem_iff]
  exact ⟨hall, ((insertion_order .uint8 [b, a, b]).1 hall _ hperm).2, haccepted,
    ((insertion_order .uint8 [a, c, b]).2.2 _ hmem).2⟩

end TraceFormat.EnumType
