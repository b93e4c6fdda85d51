import Mathlib.Data.List.Induction
import Mathlib.Data.List.Pairwise
import Mathlib.Data.List.Sort
import Mathlib.Data.List.TakeWhile
import Mathlib.Order.Bounds.Basic
import TraceFormat.Declaration.Enum

/-! # The table of an enumeration

A table is built by adding ranges, in any order and with any bounds.  What is accepted keeps it in
order (`EnumType.Ordered`): no range is empty and each ends before the next one begins.  The order
is what both searches in a table rest upon.  A new range goes where the low bounds reach its own, a
value is looked up where the high bounds reach it, and in a table in order either place is a
partition point (`IsPartitionPoint`), which a bisection finds.

So a value has the label of the one range around it (`EnumType.Ordered.label?_eq_some_iff`) and a
label stands for its least value (`EnumType.Ordered.valueOf?_eq_some_iff`).
`EnumType.addAll_isTable` puts this together for all sequences of additions. -/

namespace TraceFormat

/-! ### Partition points -/

section

variable {α : Type} {p : α → Bool} {l : List α} {i : Nat}

/-- The place in a list before which `p` holds of everything, and of nothing from there on. -/
structure IsPartitionPoint (p : α → Bool) (l : List α) (i : Nat) : Prop where
  before : ∀ a ∈ l.take i, p a = true
  behind : ∀ a ∈ l.drop i, p a = false

/-- There is such a place if `p` holds of everything before an element of which it holds. -/
theorem exists_isPartitionPoint (h : l.Pairwise fun a b => p b = true → p a = true) :
    ∃ i, IsPartitionPoint p l i := by
  induction l with
  | nil => exact ⟨0, by simp, by simp⟩
  | cons a l ih =>
      rw [List.pairwise_cons] at h
      obtain ⟨i, hi⟩ := ih h.2
      cases ha : p a with
      | true => exact ⟨i + 1, by simpa [ha] using hi.before, hi.behind⟩
      | false =>
          have hl : ∀ b ∈ l, p b = false := fun b hb =>
            Bool.eq_false_iff.mpr fun hpb => by simp [h.1 b hb hpb] at ha
          exact ⟨0, by simp, by simpa [ha] using hl⟩

theorem IsPartitionPoint.takeWhile_eq (h : IsPartitionPoint p l i) :
    l.takeWhile p = l.take i := by
  have hnil : (l.drop i).takeWhile p = [] := by
    rw [List.takeWhile_eq_nil_iff]
    intro hl
    simpa using h.behind _ (List.get_mem _ ⟨0, hl⟩)
  rw [← List.take_append_drop i l, List.takeWhile_append_of_pos h.before, hnil, List.append_nil,
    List.take_append_drop]

theorem IsPartitionPoint.dropWhile_eq (h : IsPartitionPoint p l i) :
    l.dropWhile p = l.drop i := by
  have hself : (l.drop i).dropWhile p = l.drop i := by
    rw [List.dropWhile_eq_self_iff]
    intro hl
    simpa using h.behind _ (List.getElem_mem hl)
  rw [← List.take_append_drop i l, List.dropWhile_append_of_pos h.before, hself,
    List.take_append_drop]

end

/-! ### Ranges -/

namespace EnumRange

variable {r s : EnumRange} {v : Int}

theorem contains_iff : r.contains v = true ↔ r.low ≤ v ∧ v ≤ r.high := by
  simp [contains]

theorem overlaps_iff : r.overlaps s = true ↔ r.low ≤ s.high ∧ s.low ≤ r.high := by
  simp [overlaps]

theorem overlaps_iff_exists (hr : r.low ≤ r.high) (hs : s.low ≤ s.high) :
    r.overlaps s = true ↔ ∃ v, r.contains v = true ∧ s.contains v = true := by
  simp only [overlaps_iff, contains_iff]
  constructor
  · intro h
    exact ⟨max r.low s.low, by omega⟩
  · rintro ⟨v, hrv, hsv⟩
    omega

end EnumRange

namespace EnumType

/-- Ranges none of which is empty and each of which ends before the next one begins. -/
structure Ordered (ranges : List EnumRange) : Prop where
  nonempty : ∀ r ∈ ranges, r.low ≤ r.high
  apart : ranges.Pairwise fun r s => r.high < s.low

namespace Ordered

variable {ranges : List EnumRange} {r s : EnumRange} {v : Int}

theorem bounds (h : Ordered ranges) :
    ranges.Pairwise fun r s => r.low ≤ r.high ∧ r.high < s.low ∧ s.low ≤ s.high :=
  h.apart.imp_of_mem fun hr hs hlt => ⟨h.nonempty _ hr, hlt, h.nonempty _ hs⟩

theorem exists_low_point (h : Ordered ranges) (low : Int) :
    ∃ i, IsPartitionPoint (fun r : EnumRange => r.low < low) ranges i := by
  refine exists_isPartitionPoint (h.bounds.imp fun hbounds => ?_)
  simp only [decide_eq_true_eq]
  omega

theorem exists_high_point (h : Ordered ranges) (v : Int) :
    ∃ i, IsPartitionPoint (fun r : EnumRange => r.high < v) ranges i := by
  refine exists_isPartitionPoint (h.bounds.imp fun hbounds => ?_)
  simp only [decide_eq_true_eq]
  omega

theorem eq_of_contains (h : Ordered ranges) (hr : r ∈ ranges) (hs : s ∈ ranges)
    (hrv : r.contains v = true) (hsv : s.contains v = true) : r = s := by
  by_contra hne
  have hsymm : Std.Symm fun r s : EnumRange => r.high < s.low ∨ s.high < r.low :=
    ⟨fun _ _ => Or.symm⟩
  have hapart := (h.apart.imp (S := fun r s => r.high < s.low ∨ s.high < r.low) .inl).forall
    hr hs hne
  rw [EnumRange.contains_iff] at hrv hsv
  omega

/-- Tables in order with the same ranges are the same. -/
theorem eq_of_mem_iff {ranges' : List EnumRange} (h : Ordered ranges) (h' : Ordered ranges')
    (hmem : ∀ r, r ∈ ranges ↔ r ∈ ranges') : ranges = ranges' := by
  have hirrefl : Std.Irrefl fun r s : EnumRange => r.low < s.low := ⟨fun r => lt_irrefl r.low⟩
  have hantisymm : Std.Antisymm fun r s : EnumRange => r.low < s.low :=
    ⟨fun r s hrs hsr => absurd hrs (lt_asymm hsr)⟩
  have hlows := h.bounds.imp (S := fun r s => r.low < s.low) fun hbounds => by omega
  have hlows' := h'.bounds.imp (S := fun r s => r.low < s.low) fun hbounds => by omega
  exact hlows.eq_of_mem_iff hlows' hmem

end Ordered

/-! ### Adding a range -/

variable {t : EnumType} {ranges : List EnumRange} {r s : EnumRange} {v : Int} {i : Nat}

theorem insertRange_eq (h : IsPartitionPoint (fun s : EnumRange => s.low < r.low) ranges i) :
    insertRange r ranges = ranges.take i ++ r :: ranges.drop i := by
  rw [insertRange, h.takeWhile_eq, h.dropWhile_eq]

theorem perm_insertRange (r : EnumRange) (ranges : List EnumRange) :
    (insertRange r ranges).Perm (r :: ranges) := by
  have h : (insertRange r ranges).Perm
      (r :: (ranges.takeWhile (·.low < r.low) ++ ranges.dropWhile (·.low < r.low))) :=
    List.perm_middle
  rwa [List.takeWhile_append_dropWhile] at h

/-- A range that shares no value with the others may be put in the place that its low bound
gives it. -/
theorem Ordered.insertRange (h : Ordered ranges) (hr : r.low ≤ r.high)
    (hfree : ∀ s ∈ ranges, ¬ s.overlaps r = true) : Ordered (insertRange r ranges) := by
  simp only [EnumRange.overlaps_iff] at hfree
  obtain ⟨i, hi⟩ := h.exists_low_point r.low
  have hbefore := hi.before
  have hbehind := hi.behind
  simp only [decide_eq_true_eq, decide_eq_false_iff_not] at hbefore hbehind
  -- of a range without an overlap the low bound alone tells on which side of the new one it lies
  have hlower : ∀ s ∈ ranges.take i, s.high < r.low := by
    intro s hs
    have hlow := hbefore s hs
    have hnot := hfree s (List.mem_of_mem_take hs)
    omega
  have hupper : ∀ s ∈ ranges.drop i, r.high < s.low := by
    intro s hs
    have hlow := hbehind s hs
    have hnot := hfree s (List.mem_of_mem_drop hs)
    have hne := h.nonempty s (List.mem_of_mem_drop hs)
    omega
  constructor
  · intro s hs
    rcases List.mem_cons.mp ((perm_insertRange r ranges).mem_iff.mp hs) with rfl | hs
    · exact hr
    · exact h.nonempty s hs
  · rw [insertRange_eq hi, List.pairwise_append, List.pairwise_cons]
    refine ⟨h.apart.sublist (List.take_sublist i ranges),
      ⟨hupper, h.apart.sublist (List.drop_sublist i ranges)⟩, fun s hs u hu => ?_⟩
    rcases List.mem_cons.mp hu with rfl | hu
    · exact hlower s hs
    · have hlow := hlower s hs
      have hhigh := hupper u hu
      omega

/-- A range is there already, or is refused as empty or for an overlap, or takes its place. -/
theorem insert_cases (t : EnumType) (r : EnumRange) :
    (r ∈ t.ranges ∧ t.insert r.low r.high r.label = .ok t) ∨
    (r ∉ t.ranges ∧ (r.high < r.low ∨ ∃ s ∈ t.ranges, s.overlaps r = true) ∧
      t.insert r.low r.high r.label = .error (.overlappingRange r.low r.high r.label)) ∨
    (r ∉ t.ranges ∧ r.low ≤ r.high ∧ (∀ s ∈ t.ranges, ¬ s.overlaps r = true) ∧
      t.insert r.low r.high r.label = .ok { t with ranges := insertRange r t.ranges }) := by
  unfold insert
  by_cases hmem : r ∈ t.ranges
  · exact .inl ⟨hmem, if_pos (List.contains_iff_mem.mpr hmem)⟩
  · have hcontains : ¬ t.ranges.contains r = true := fun h => hmem (List.contains_iff_mem.mp h)
    by_cases hrefused : r.high < r.low ∨ ∃ s ∈ t.ranges, s.overlaps r = true
    · refine .inr (.inl ⟨hmem, hrefused, ?_⟩)
      rw [← List.any_eq_true] at hrefused
      exact (if_neg hcontains).trans (if_pos hrefused)
    · have hfree := not_or.mp hrefused
      refine .inr (.inr ⟨hmem, Int.not_lt.mp hfree.1, fun s hs ho => hfree.2 ⟨s, hs, ho⟩, ?_⟩)
      rw [← List.any_eq_true] at hrefused
      exact (if_neg hcontains).trans (if_neg hrefused)

/-- Adds a range to a table, which stays as it is if the range is refused. -/
def add (t : EnumType) (r : EnumRange) : EnumType :=
  match t.insert r.low r.high r.label with
  | .ok t' => t'
  | .error _ => t

/-- Whether a table takes a range, or has it already. -/
def Accepts (t : EnumType) (r : EnumRange) : Prop :=
  ∃ t', t.insert r.low r.high r.label = .ok t'

theorem not_accepts_iff :
    ¬ t.Accepts r ↔
      t.insert r.low r.high r.label = .error (.overlappingRange r.low r.high r.label) := by
  unfold Accepts
  rcases t.insert_cases r with ⟨-, heq⟩ | ⟨-, -, heq⟩ | ⟨-, -, -, heq⟩ <;> simp [heq]

theorem ordered_add (h : Ordered t.ranges) (r : EnumRange) : Ordered (t.add r).ranges := by
  unfold add
  rcases t.insert_cases r with ⟨-, heq⟩ | ⟨-, -, heq⟩ | ⟨-, hr, hfree, heq⟩
  · rw [heq]
    exact h
  · rw [heq]
    exact h
  · rw [heq]
    exact h.insertRange hr hfree

theorem mem_add_iff : s ∈ (t.add r).ranges ↔ s ∈ t.ranges ∨ s = r ∧ t.Accepts r := by
  unfold add Accepts
  rcases t.insert_cases r with ⟨hmem, heq⟩ | ⟨-, -, heq⟩ | ⟨-, -, -, heq⟩
  · rw [heq]
    refine ⟨.inl, ?_⟩
    rintro (hs | ⟨rfl, -⟩)
    · exact hs
    · exact hmem
  · simp [heq]
  · simp [heq, (perm_insertRange r t.ranges).mem_iff, or_comm]

theorem insert_eq_self (h : r ∈ t.ranges) : t.insert r.low r.high r.label = .ok t := by
  rcases t.insert_cases r with ⟨-, heq⟩ | ⟨hmem, -⟩ | ⟨hmem, -⟩
  · exact heq
  · exact absurd h hmem
  · exact absurd h hmem

theorem add_eq_self (h : ¬ t.Accepts r ∨ r ∈ t.ranges) : t.add r = t := by
  unfold add
  rcases t.insert_cases r with ⟨-, heq⟩ | ⟨-, -, heq⟩ | ⟨hmem, -, -, heq⟩
  · rw [heq]
  · rw [heq]
  · rcases h with h | h
    · exact absurd ⟨_, heq⟩ h
    · exact absurd h hmem

theorem perm_add (h : t.Accepts r) (hmem : r ∉ t.ranges) :
    (t.add r).container = t.container ∧ (t.add r).ranges.Perm (r :: t.ranges) := by
  obtain ⟨t', ht'⟩ := h
  unfold add
  rcases t.insert_cases r with ⟨hr, -⟩ | ⟨-, -, heq⟩ | ⟨-, -, -, heq⟩
  · exact absurd hr hmem
  · rw [heq] at ht'
    cases ht'
  · rw [heq]
    exact ⟨rfl, perm_insertRange r t.ranges⟩

/-- A table in order refuses what is empty or shares a value with another range. -/
theorem Ordered.insert_eq_error_iff (h : Ordered t.ranges) (r : EnumRange) :
    t.insert r.low r.high r.label = .error (.overlappingRange r.low r.high r.label) ↔
      r.high < r.low ∨
        ∃ s ∈ t.ranges, s ≠ r ∧ ∃ v, s.contains v = true ∧ r.contains v = true := by
  rcases t.insert_cases r with ⟨hmem, heq⟩ | ⟨hmem, hrefused, heq⟩ | ⟨-, hr, hfree, heq⟩
  · rw [heq]
    refine iff_of_false (by simp) ?_
    rintro (hempty | ⟨s, hs, hne, v, hsv, hrv⟩)
    · exact absurd (h.nonempty r hmem) (Int.not_le.mpr hempty)
    · exact hne (h.eq_of_contains hs hmem hsv hrv)
  · refine iff_of_true heq ?_
    rcases Int.lt_or_le r.high r.low with hempty | hr
    · exact .inl hempty
    · obtain ⟨s, hs, hoverlaps⟩ := hrefused.resolve_left (Int.not_lt.mpr hr)
      have hshared := (EnumRange.overlaps_iff_exists (h.nonempty s hs) hr).mp hoverlaps
      exact .inr ⟨s, hs, fun hsr => hmem (hsr ▸ hs), hshared⟩
  · rw [heq]
    refine iff_of_false (by simp) ?_
    rintro (hempty | ⟨s, hs, -, hshared⟩)
    · exact absurd hr (Int.not_le.mpr hempty)
    · exact hfree s hs ((EnumRange.overlaps_iff_exists (h.nonempty s hs) hr).mpr hshared)

/-! ### Looking up -/

theorem label?_eq (h : IsPartitionPoint (fun r : EnumRange => r.high < v) t.ranges i) :
    t.label? v = (t.ranges[i]?.filter (·.contains v)).map (·.label) := by
  rw [label?, h.dropWhile_eq, ← List.head?_drop]
  cases t.ranges.drop i with
  | nil => rfl
  | cons r _ => cases hr : r.contains v <;> simp [Option.filter, hr]

namespace Ordered

theorem getElem?_eq_of_contains (h : Ordered ranges)
    (hi : IsPartitionPoint (fun r : EnumRange => r.high < v) ranges i) (hr : r ∈ ranges)
    (hv : r.contains v = true) : ranges[i]? = some r := by
  rw [EnumRange.contains_iff] at hv
  obtain ⟨hbefore, hbehind⟩ := hi
  simp only [decide_eq_true_eq, decide_eq_false_iff_not] at hbefore hbehind
  rw [← List.take_append_drop i ranges, List.mem_append] at hr
  have hmem : r ∈ ranges.drop i := by
    refine hr.resolve_left fun htake => ?_
    have hlt := hbefore r htake
    omega
  have hapart := h.apart.sublist (List.drop_sublist i ranges)
  rw [← List.head?_drop]
  cases hdrop : ranges.drop i with
  | nil => simp [hdrop] at hmem
  | cons s rest =>
      rw [hdrop] at hmem hbehind hapart
      rcases List.mem_cons.mp hmem with rfl | hrest
      · rfl
      · -- the search has not passed `s`, which ends before the range around the value begins
        have hs := hbehind s List.mem_cons_self
        have hlt := (List.pairwise_cons.mp hapart).1 r hrest
        omega

theorem label?_eq_some_iff (h : Ordered t.ranges) {label : String} :
    t.label? v = some label ↔ ∃ r ∈ t.ranges, r.contains v = true ∧ r.label = label := by
  obtain ⟨i, hi⟩ := h.exists_high_point v
  rw [label?_eq hi]
  constructor
  · intro hlabel
    obtain ⟨r, hr, hlabel⟩ := Option.map_eq_some_iff.mp hlabel
    obtain ⟨hget, hv⟩ := Option.filter_eq_some_iff.mp hr
    exact ⟨r, List.mem_of_getElem? hget, hv, hlabel⟩
  · rintro ⟨r, hr, hv, rfl⟩
    rw [h.getElem?_eq_of_contains hi hr hv]
    simp [Option.filter, hv]

theorem label?_eq_none_iff (h : Ordered t.ranges) :
    t.label? v = none ↔ ∀ r ∈ t.ranges, ¬ r.contains v = true := by
  rw [Option.eq_none_iff_forall_ne_some]
  constructor
  · intro hnone r hr hv
    exact hnone r.label (h.label?_eq_some_iff.mpr ⟨r, hr, hv, rfl⟩)
  · intro hnone label hlabel
    obtain ⟨r, hr, hv, -⟩ := h.label?_eq_some_iff.mp hlabel
    exact hnone r hr hv

/-- The first range with a label begins with the least value that has the label. -/
theorem isLeast_of_find? (h : Ordered t.ranges) {label : String}
    (hr : t.ranges.find? (·.label = label) = some r) :
    IsLeast { v | t.label? v = some label } r.low := by
  obtain ⟨hlabel, before, behind, hranges, hbefore⟩ := List.find?_eq_some_iff_append.mp hr
  rw [decide_eq_true_eq] at hlabel
  have hmem : r ∈ t.ranges := List.mem_of_find?_eq_some hr
  have hle := h.nonempty r hmem
  refine ⟨h.label?_eq_some_iff.mpr ⟨r, hmem, ?_, hlabel⟩, ?_⟩
  · rw [EnumRange.contains_iff]
    omega
  · intro v hv
    obtain ⟨s, hs, hsv, hslabel⟩ := h.label?_eq_some_iff.mp hv
    rw [EnumRange.contains_iff] at hsv
    have hapart := h.apart
    rw [hranges] at hs hapart
    rcases List.mem_append.mp hs with hs | hs
    · exact absurd hslabel (by simpa using hbefore s hs)
    · rcases List.mem_cons.mp hs with rfl | hs
      · exact hsv.1
      · have hlt := (List.pairwise_cons.mp (List.pairwise_append.mp hapart).2.1).1 s hs
        omega

theorem valueOf?_eq_none_iff (h : Ordered t.ranges) {label : String} :
    t.valueOf? label = none ↔ ∀ v, t.label? v ≠ some label := by
  rw [valueOf?, Option.map_eq_none_iff, List.find?_eq_none]
  simp only [decide_eq_true_eq, ne_eq, h.label?_eq_some_iff]
  constructor
  · rintro hnone v ⟨r, hr, -, hlabel⟩
    exact hnone r hr hlabel
  · intro hnone r hr hlabel
    have hle := h.nonempty r hr
    exact hnone r.low ⟨r, hr, EnumRange.contains_iff.mpr ⟨Int.le_refl _, hle⟩, hlabel⟩

theorem valueOf?_eq_some_iff (h : Ordered t.ranges) {label : String} :
    t.valueOf? label = some v ↔ IsLeast { w | t.label? w = some label } v := by
  constructor
  · intro hv
    obtain ⟨r, hr, rfl⟩ := Option.map_eq_some_iff.mp hv
    exact h.isLeast_of_find? hr
  · intro hleast
    cases hvalue : t.valueOf? label with
    | none => exact absurd hleast.1 (h.valueOf?_eq_none_iff.mp hvalue v)
    | some w =>
        obtain ⟨r, hr, rfl⟩ := Option.map_eq_some_iff.mp hvalue
        rw [(h.isLeast_of_find? hr).unique hleast]

end Ordered

/-! ### Sequences of additions -/

/-- Adds ranges one after the other. -/
def addAll (t : EnumType) (calls : List EnumRange) : EnumType := calls.foldl add t

/-- Whether a range was accepted in the course of some additions to an empty table. -/
def Accepted (container : IntegerType) (calls : List EnumRange) (r : EnumRange) : Prop :=
  ∃ before, before ++ [r] <+: calls ∧ ((empty container).addAll before).Accepts r

variable {container : IntegerType} {calls : List EnumRange}

theorem addAll_concat (t : EnumType) (calls : List EnumRange) (r : EnumRange) :
    t.addAll (calls ++ [r]) = (t.addAll calls).add r := by
  rw [addAll, List.foldl_append]
  rfl

theorem accepted_concat_iff :
    Accepted container (calls ++ [s]) r ↔
      Accepted container calls r ∨ r = s ∧ ((empty container).addAll calls).Accepts s := by
  unfold Accepted
  simp only [List.prefix_concat_iff]
  constructor
  · rintro ⟨before, heq | hprefix, haccepts⟩
    · obtain ⟨rfl, hrs⟩ := List.append_inj' heq rfl
      obtain rfl : r = s := by simpa using hrs
      exact .inr ⟨rfl, haccepts⟩
    · exact .inl ⟨before, hprefix, haccepts⟩
  · rintro (⟨before, hprefix, haccepts⟩ | ⟨rfl, haccepts⟩)
    · exact ⟨before, .inr hprefix, haccepts⟩
    · exact ⟨calls, .inl rfl, haccepts⟩

theorem ordered_addAll (container : IntegerType) (calls : List EnumRange) :
    Ordered ((empty container).addAll calls).ranges := by
  induction calls using List.reverseRecOn with
  | nil => exact ⟨by simp [addAll, empty], .nil⟩
  | append_singleton calls r ih =>
      rw [addAll_concat]
      exact ordered_add ih r

theorem mem_addAll_iff :
    r ∈ ((empty container).addAll calls).ranges ↔ Accepted container calls r := by
  induction calls using List.reverseRecOn with
  | nil => simp [addAll, empty, Accepted]
  | append_singleton calls s ih => rw [addAll_concat, mem_add_iff, accepted_concat_iff, ih]

/-- What a table is after some additions. -/
structure IsTable (container : IntegerType) (calls : List EnumRange) (t : EnumType) : Prop where
  /-- No range is empty. -/
  nonempty : ∀ r ∈ t.ranges, r.low ≤ r.high
  /-- The ranges are in order. -/
  increasing : t.ranges.Pairwise fun r s => r.low < s.low
  /-- No two ranges share a value. -/
  disjoint : t.ranges.Pairwise fun r s => ∀ v, ¬ (r.contains v = true ∧ s.contains v = true)
  /-- The ranges are those that were accepted. -/
  accepted : ∀ r, r ∈ t.ranges ↔ Accepted container calls r
  /-- A range is taken or refused with an error that has its bounds and its label. -/
  refused : ∀ r : EnumRange, ¬ t.Accepts r ↔
    t.insert r.low r.high r.label = .error (.overlappingRange r.low r.high r.label)
  /-- A range is refused if it is empty or shares a value with another one. -/
  refused_iff : ∀ r : EnumRange,
    t.insert r.low r.high r.label = .error (.overlappingRange r.low r.high r.label) ↔
      r.high < r.low ∨
        ∃ s ∈ t.ranges, s ≠ r ∧ ∃ v, s.contains v = true ∧ r.contains v = true
  /-- Nothing changes if a range is refused or was there before, which is no reason to refuse it. -/
  unchanged : ∀ r : EnumRange,
    (r ∈ t.ranges → t.insert r.low r.high r.label = .ok t) ∧
    (¬ t.Accepts r ∨ r ∈ t.ranges → t.add r = t)
  /-- Every other range is added, and nothing else changes. -/
  extended : ∀ r : EnumRange, t.Accepts r → r ∉ t.ranges →
    (t.add r).container = t.container ∧ (t.add r).ranges.Perm (r :: t.ranges)
  /-- A value has the label of the range around it, of which there is but one. -/
  labelled : ∀ r v, Accepted container calls r → r.contains v = true →
    t.label? v = some r.label ∧
    ∀ s, Accepted container calls s → s.contains v = true → s = r
  /-- Other values have no label. -/
  unlabelled : ∀ v, (∀ r, Accepted container calls r → ¬ r.contains v = true) → t.label? v = none
  /-- A label stands for the least value that has it. -/
  value : ∀ label v, t.valueOf? label = some v ↔ IsLeast { w | t.label? w = some label } v
  /-- A label that no value has stands for none. -/
  noValue : ∀ label, t.valueOf? label = none ↔ ∀ v, t.label? v ≠ some label

/-- After any sequence of additions the table is in order, and both lookups answer from just the
ranges that were accepted. -/
theorem addAll_isTable (container : IntegerType) (calls : List EnumRange) :
    IsTable container calls ((empty container).addAll calls) := by
  have hordered := ordered_addAll container calls
  have hmem : ∀ r, r ∈ ((empty container).addAll calls).ranges ↔ Accepted container calls r :=
    fun _ => mem_addAll_iff
  generalize (empty container).addAll calls = t at hordered hmem
  constructor
  · exact hordered.nonempty
  · exact hordered.bounds.imp fun hbounds => by omega
  · refine hordered.apart.imp fun hlt v hv => ?_
    simp only [EnumRange.contains_iff] at hv
    omega
  · exact hmem
  · exact fun r => not_accepts_iff
  · exact hordered.insert_eq_error_iff
  · exact fun r => ⟨insert_eq_self, add_eq_self⟩
  · exact fun r => perm_add
  · intro r v hr hv
    refine ⟨hordered.label?_eq_some_iff.mpr ⟨r, (hmem r).mpr hr, hv, rfl⟩, fun s hs hsv => ?_⟩
    exact hordered.eq_of_contains ((hmem s).mpr hs) ((hmem r).mpr hr) hsv hv
  · intro v hnone
    exact hordered.label?_eq_none_iff.mpr fun r hr => hnone r ((hmem r).mp hr)
  · exact fun label v => hordered.valueOf?_eq_some_iff
  · exact fun label => hordered.valueOf?_eq_none_iff

example : ((empty .uint8).addAll [⟨5, 9, "b"⟩, ⟨0, 4, "a"⟩, ⟨3, 6, "c"⟩]).ranges =
    [⟨0, 4, "a"⟩, ⟨5, 9, "b"⟩] := by
  decide

end EnumType

end TraceFormat
