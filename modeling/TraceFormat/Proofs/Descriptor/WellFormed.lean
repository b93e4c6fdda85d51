import Mathlib.Data.List.Forall2
import Mathlib.Tactic.Common
import TraceFormat.Proofs.Declaration.EnumTable
import TraceFormat.Proofs.Declaration.Names

/-! # Descriptions that can be built

What makes a description a good one is said here of the description itself
(`Descriptor.WellFormed`), part by part and without a word on how it is built.  So is what the
declaration looks like that it describes (`Descriptor.Describes`), and what is wrong with a
description that is not a good one: the list of its faults (`Descriptor.faults`) goes through it
depth first, and a member's declaration comes before its name.

`Descriptor.build` goes through a description once, with the ranges and names that it has come by,
and gives up at the first fault.  What it has gathered so far is what stands before in the
description (`outcome_buildRanges`, `Descriptor.outcome_buildMembers`), so a description is built
into what it describes exactly if it is a good one, and is otherwise refused for its first fault
(`Descriptor.build_eq_iff`). -/

namespace TraceFormat

/-! ### Good descriptions -/

/-- Whether an integer has from 1 to 64 bits. -/
def IntegerDescriptor.WellFormed (d : IntegerDescriptor) : Prop :=
  1 ≤ d.length.toNat ∧ d.length.toNat ≤ 64

instance (d : IntegerDescriptor) : Decidable d.WellFormed :=
  inferInstanceAs (Decidable (_ ∧ _))

/-- The range that a description is about. -/
def RangeDescriptor.range (r : RangeDescriptor) : EnumRange :=
  ⟨r.low.toInt, r.high.toInt, r.label⟩

/-- Whether some value lies in both ranges. -/
def EnumRange.Shares (r s : EnumRange) : Prop :=
  ∃ v, r.contains v = true ∧ s.contains v = true

theorem EnumRange.shares_iff {r s : EnumRange} :
    r.Shares s ↔ max r.low s.low ≤ min r.high s.high := by
  simp only [Shares, contains_iff]
  constructor
  · rintro ⟨v, hr, hs⟩
    omega
  · intro h
    exact ⟨max r.low s.low, by omega⟩

instance (r s : EnumRange) : Decidable (r.Shares s) :=
  decidable_of_iff _ EnumRange.shares_iff.symm

/-- Whether no range is empty and any two of them are the same or apart. -/
structure RangesWellFormed (ranges : List EnumRange) : Prop where
  nonempty : ∀ r ∈ ranges, r.low ≤ r.high
  apart : ranges.Pairwise fun r s => r = s ∨ ¬ r.Shares s

/-- Whether no name is empty and no two of them are the same. -/
structure NamesWellFormed (names : List String) : Prop where
  nonempty : ∀ name ∈ names, name ≠ ""
  distinct : names.Nodup

namespace Descriptor

/-- Whether all parts of a description are as they have to be. -/
inductive WellFormed (aliases : Aliases) : Descriptor → Prop
  | integer {d : IntegerDescriptor} : d.WellFormed → WellFormed aliases (.integer d)
  | float {exponent mantissa : UInt64} {byteOrder : ByteOrder} {alignment : Option UInt64} :
      2 ≤ exponent.toNat → 1 ≤ mantissa.toNat → exponent.toNat + mantissa.toNat ≤ 64 →
        WellFormed aliases (.float exponent mantissa byteOrder alignment)
  | string (encoding : Encoding) : WellFormed aliases (.string encoding)
  | enum {container : IntegerDescriptor} {ranges : List RangeDescriptor} :
      container.WellFormed → RangesWellFormed (ranges.map (·.range)) →
        WellFormed aliases (.enum container ranges)
  | array {length : UInt64} {element : Descriptor} :
      WellFormed aliases element → WellFormed aliases (.array length element)
  | sequence {lengthName : String} {element : Descriptor} :
      WellFormed aliases element → WellFormed aliases (.sequence lengthName element)
  | struct {minAlignment : UInt64} {fields : List (String × Descriptor)} :
      NamesWellFormed (fields.map Prod.fst) → (∀ f ∈ fields, WellFormed aliases f.2) →
        WellFormed aliases (.struct minAlignment fields)
  | variant {tag : Option String} {fields : List (String × Descriptor)} :
      NamesWellFormed (fields.map Prod.fst) → (∀ f ∈ fields, WellFormed aliases f.2) →
        WellFormed aliases (.variant tag fields)
  | reference {name : String} : name ∈ aliases → WellFormed aliases (.reference name)

end Descriptor

/-! ### What is described -/

/-- Whether an integer type is the one described: what is left out is a decimal number that is no
character, at the alignment of its length. -/
structure IntegerDescriptor.Describes (d : IntegerDescriptor) (t : IntegerType) : Prop where
  length : t.length = d.length.toNat
  signed : t.signed = d.signed
  byteOrder : t.byteOrder = d.byteOrder
  base : t.base = (d.base.map UInt32.toNat).getD 10
  encoding : t.encoding = d.encoding.getD .raw
  clock : t.clock = d.clock
  alignment : t.alignment =
    (d.alignment.map UInt64.toNat).getD (if d.length.toNat % 8 = 0 then 8 else 1)

/-- Whether an enumeration is the one described: its table has the ranges described, in order. -/
structure EnumDescribes (container : IntegerDescriptor) (ranges : List EnumRange) (t : EnumType) :
    Prop where
  container : container.Describes t.container
  ordered : EnumType.Ordered t.ranges
  mem_iff : ∀ r, r ∈ t.ranges ↔ r ∈ ranges

namespace Descriptor

/-- Whether a declaration is the one described, node by node. -/
inductive Describes (aliases : Aliases) : Descriptor → Declaration → Prop
  | integer {d : IntegerDescriptor} {t : IntegerType} :
      d.Describes t → Describes aliases (.integer d) (.integer t)
  | float {exponent mantissa : UInt64} {byteOrder : ByteOrder} {alignment : Option UInt64}
      {t : FloatType} :
      t.exponent = exponent.toNat → t.mantissa = mantissa.toNat → t.byteOrder = byteOrder →
        t.alignment = (alignment.map UInt64.toNat).getD 8 →
          Describes aliases (.float exponent mantissa byteOrder alignment) (.float t)
  | string (encoding : Encoding) : Describes aliases (.string encoding) (.string encoding)
  | enum {container : IntegerDescriptor} {ranges : List RangeDescriptor} {t : EnumType} :
      EnumDescribes container (ranges.map (·.range)) t →
        Describes aliases (.enum container ranges) (.enum t)
  | array {length : UInt64} {element : Descriptor} {e : Declaration} :
      Describes aliases element e →
        Describes aliases (.array length element) (.array length.toNat e)
  | sequence {lengthName : String} {element : Descriptor} {e : Declaration} :
      Describes aliases element e →
        Describes aliases (.sequence lengthName element) (.sequence lengthName e)
  | struct {minAlignment : UInt64} {fields : List (String × Descriptor)} {members : Members} :
      members.names = fields.map Prod.fst →
        List.Forall₂ (fun f m => Describes aliases f.2 m.2) fields members →
          Describes aliases (.struct minAlignment fields) (.struct minAlignment.toNat members)
  | variant {tag : Option String} {fields : List (String × Descriptor)} {members : Members} :
      members.names = fields.map Prod.fst →
        List.Forall₂ (fun f m => Describes aliases f.2 m.2) fields members →
          Describes aliases (.variant tag fields) (.variant tag members)
  | reference {name : String} {e : Declaration} :
      aliases[name]? = some e → Describes aliases (.reference name) e

end Descriptor

/-! ### Faults -/

/-- What is wrong with an integer. -/
def IntegerDescriptor.faults (d : IntegerDescriptor) : List BuildError :=
  if d.WellFormed then [] else [.invalidIntegerLength d.length.toNat]

/-- The ranges that are empty or share a value with another one that stands before them. -/
def rangeFaults (earlier : List EnumRange) : List EnumRange → List BuildError
  | [] => []
  | r :: ranges =>
    (if r.high < r.low ∨ ∃ s ∈ earlier, s ≠ r ∧ s.Shares r then
      [.overlappingRange r.low r.high r.label] else []) ++ rangeFaults (earlier ++ [r]) ranges

/-- What is wrong with a name behind others. -/
def nameFaults (earlier : List String) (name : String) : List BuildError :=
  if name = "" then [.invalidFieldName]
  else if name ∈ earlier then [.duplicateField name]
  else []

namespace Descriptor

mutual

/-- All that is wrong with a description, depth first. -/
def faults (aliases : Aliases) : Descriptor → List BuildError
  | .integer d => d.faults
  | .float exponent mantissa _ _ =>
    if 2 ≤ exponent.toNat ∧ 1 ≤ mantissa.toNat ∧ exponent.toNat + mantissa.toNat ≤ 64 then []
    else [.invalidFloatLayout]
  | .string _ => []
  | .enum container ranges => container.faults ++ rangeFaults [] (ranges.map (·.range))
  | .array _ element => element.faults aliases
  | .sequence _ element => element.faults aliases
  | .struct _ fields => fieldFaults aliases [] fields
  | .variant _ fields => fieldFaults aliases [] fields
  | .reference name => if name ∈ aliases then [] else [.unknownDeclaration name]

/-- All that is wrong with fields behind others with the names `earlier`. -/
def fieldFaults (aliases : Aliases) (earlier : List String) :
    List (String × Descriptor) → List BuildError
  | [] => []
  | (name, d) :: fields =>
    d.faults aliases ++ (nameFaults earlier name ++ fieldFaults aliases (earlier ++ [name]) fields)

end

end Descriptor

/-! ### Good descriptions have no faults -/

theorem IntegerDescriptor.faults_eq_nil_iff {d : IntegerDescriptor} :
    d.faults = [] ↔ d.WellFormed := by
  simp [faults]

theorem rangeFaults_eq_nil_iff {earlier ranges : List EnumRange} :
    rangeFaults earlier ranges = [] ↔
      RangesWellFormed ranges ∧ ∀ r ∈ ranges, ∀ s ∈ earlier, s = r ∨ ¬ s.Shares r := by
  induction ranges generalizing earlier with
  | nil => exact iff_of_true rfl ⟨⟨by simp, .nil⟩, by simp⟩
  | cons r ranges ih =>
      have hhead : (if r.high < r.low ∨ ∃ s ∈ earlier, s ≠ r ∧ s.Shares r then
          [BuildError.overlappingRange r.low r.high r.label] else []) = [] ↔
          r.low ≤ r.high ∧ ∀ s ∈ earlier, s = r ∨ ¬ s.Shares r := by
        rw [ite_eq_right_iff, imp_iff_not (List.cons_ne_nil _ _)]
        push Not
        simp only [or_iff_not_imp_left]
      rw [rangeFaults, List.append_eq_nil_iff, hhead, ih]
      simp only [List.forall_mem_append, List.forall_mem_singleton, List.forall_mem_cons,
        forall_and]
      constructor
      · rintro ⟨⟨hr, hbefore⟩, hranges, hearlier, hself⟩
        exact ⟨⟨List.forall_mem_cons.mpr ⟨hr, hranges.nonempty⟩, .cons hself hranges.apart⟩,
          hbefore, hearlier⟩
      · rintro ⟨⟨hnonempty, hapart⟩, hbefore, hearlier⟩
        rw [List.forall_mem_cons] at hnonempty
        rw [List.pairwise_cons] at hapart
        exact ⟨⟨hnonempty.1, hbefore⟩, ⟨hnonempty.2, hapart.2⟩, hearlier, hapart.1⟩

theorem nameFaults_eq_nil_iff {earlier : List String} {name : String} :
    nameFaults earlier name = [] ↔ name ≠ "" ∧ name ∉ earlier := by
  by_cases hname : name = ""
  · simp [nameFaults, hname]
  · by_cases hearlier : name ∈ earlier <;> simp [nameFaults, hname, hearlier]

namespace Descriptor

variable {aliases : Aliases}

theorem fieldFaults_eq_nil_iff {earlier : List String} {fields : List (String × Descriptor)} :
    fieldFaults aliases earlier fields = [] ↔
      NamesWellFormed (fields.map Prod.fst) ∧ (∀ f ∈ fields, f.2.faults aliases = []) ∧
        ∀ name ∈ fields.map Prod.fst, name ∉ earlier := by
  induction fields generalizing earlier with
  | nil => exact iff_of_true rfl ⟨⟨by simp, .nil⟩, by simp, by simp⟩
  | cons f fields ih =>
      obtain ⟨name, d⟩ := f
      rw [fieldFaults, List.append_eq_nil_iff, List.append_eq_nil_iff, nameFaults_eq_nil_iff, ih]
      simp only [List.map_cons, List.forall_mem_cons, List.mem_append, List.mem_singleton, not_or,
        forall_and]
      constructor
      · rintro ⟨hd, ⟨hname, hbefore⟩, hnames, hfields, hearlier, hself⟩
        exact ⟨⟨List.forall_mem_cons.mpr ⟨hname, hnames.nonempty⟩,
          List.nodup_cons.mpr ⟨fun h => hself name h rfl, hnames.distinct⟩⟩, ⟨hd, hfields⟩,
          hbefore, hearlier⟩
      · rintro ⟨⟨hnonempty, hdistinct⟩, ⟨hd, hfields⟩, hbefore, hearlier⟩
        rw [List.forall_mem_cons] at hnonempty
        rw [List.nodup_cons] at hdistinct
        exact ⟨hd, ⟨hnonempty.1, hbefore⟩, ⟨hnonempty.2, hdistinct.2⟩, hfields, hearlier,
          fun other hother => ne_of_mem_of_not_mem hother hdistinct.1⟩

theorem fieldFaults_nil_eq_nil_iff {fields : List (String × Descriptor)}
    (h : ∀ f ∈ fields, f.2.faults aliases = [] ↔ f.2.WellFormed aliases) :
    fieldFaults aliases [] fields = [] ↔
      NamesWellFormed (fields.map Prod.fst) ∧ ∀ f ∈ fields, f.2.WellFormed aliases := by
  rw [fieldFaults_eq_nil_iff, forall₂_congr h]
  simp

/-- A description is a good one if nothing is wrong with it. -/
theorem faults_eq_nil_iff (d : Descriptor) : d.faults aliases = [] ↔ d.WellFormed aliases := by
  induction d using Descriptor.induction with
  | integer d =>
      rw [faults, IntegerDescriptor.faults_eq_nil_iff]
      exact ⟨.integer, fun | .integer h => h⟩
  | float exponent mantissa byteOrder alignment =>
      have hparts : (Descriptor.float exponent mantissa byteOrder alignment).WellFormed aliases ↔
          2 ≤ exponent.toNat ∧ 1 ≤ mantissa.toNat ∧ exponent.toNat + mantissa.toNat ≤ 64 :=
        ⟨fun | .float he hm hsum => ⟨he, hm, hsum⟩, fun h => .float h.1 h.2.1 h.2.2⟩
      rw [faults, hparts]
      simp
  | string encoding => exact iff_of_true rfl (.string encoding)
  | enum container ranges =>
      rw [faults, List.append_eq_nil_iff, IntegerDescriptor.faults_eq_nil_iff,
        rangeFaults_eq_nil_iff]
      exact ⟨fun h => .enum h.1 h.2.1, fun | .enum h hranges => ⟨h, hranges, by simp⟩⟩
  | array length element ih =>
      rw [faults, ih]
      exact ⟨.array, fun | .array h => h⟩
  | sequence lengthName element ih =>
      rw [faults, ih]
      exact ⟨.sequence, fun | .sequence h => h⟩
  | struct minAlignment fields ih =>
      rw [faults, fieldFaults_nil_eq_nil_iff ih]
      exact ⟨fun h => .struct h.1 h.2, fun | .struct hnames h => ⟨hnames, h⟩⟩
  | variant tag fields ih =>
      rw [faults, fieldFaults_nil_eq_nil_iff ih]
      exact ⟨fun h => .variant h.1 h.2, fun | .variant hnames h => ⟨hnames, h⟩⟩
  | reference name =>
      have hname : (Descriptor.reference name).WellFormed aliases ↔ name ∈ aliases :=
        ⟨fun | .reference h => h, .reference⟩
      rw [faults, hname]
      simp

end Descriptor

/-! ### Building -/

/-- Whether an outcome is what the faults in the way to it say: their first one, or a result with a
property if there are none. -/
def Outcome {α : Type} (faults : List BuildError) (P : α → Prop) : Except BuildError α → Prop
  | .ok a => faults = [] ∧ P a
  | .error e => faults.head? = some e

namespace Outcome

variable {α β : Type} {faults faults' : List BuildError} {P : α → Prop} {Q : β → Prop}
  {x : Except BuildError α} {f : α → Except BuildError β}

theorem ok {a : α} (h : P a) : Outcome [] P (.ok a) := ⟨rfl, h⟩

theorem bind (hx : Outcome faults P x) (hf : ∀ a, P a → Outcome faults' Q (f a)) :
    Outcome (faults ++ faults') Q (x >>= f) := by
  cases x with
  | ok a =>
      rw [hx.1, List.nil_append]
      exact hf a hx.2
  | error e =>
      have hhead : (faults ++ faults').head? = some e := by
        rw [List.head?_append, hx, Option.some_or]
      exact hhead

theorem imp {P' : α → Prop} (hx : Outcome faults P x) (h : ∀ a, P a → P' a) :
    Outcome faults P' x := by
  cases x with
  | ok a => exact ⟨hx.1, h a hx.2⟩
  | error e => exact hx

theorem bind_pure {f : α → β} (hx : Outcome faults P x) (hf : ∀ a, P a → Q (f a)) :
    Outcome faults Q (x >>= fun a => pure (f a)) := by
  rw [← List.append_nil faults]
  exact hx.bind fun a ha => .ok (hf a ha)

end Outcome

theorem IntegerDescriptor.outcome_build (d : IntegerDescriptor) :
    Outcome d.faults d.Describes d.build := by
  have hbounds : d.WellFormed ↔ 0 < d.length.toNat ∧ d.length.toNat ≤ 64 := Iff.rfl
  unfold IntegerDescriptor.build IntegerType.build faults
  by_cases h : d.WellFormed
  · rw [dif_pos (hbounds.mp h), if_pos h]
    exact .ok ⟨rfl, rfl, rfl, rfl, rfl, rfl, rfl⟩
  · rw [dif_neg (mt hbounds.mpr h), if_neg h]
    rfl

/-- A table that has the ranges so far refuses the next one if it is at fault, and then has that one
too. -/
theorem outcome_insert {t : EnumType} (ht : EnumType.Ordered t.ranges) {earlier : List EnumRange}
    (hmem : ∀ r, r ∈ t.ranges ↔ r ∈ earlier) (r : EnumRange) :
    Outcome
      (if r.high < r.low ∨ ∃ s ∈ earlier, s ≠ r ∧ s.Shares r then
        [.overlappingRange r.low r.high r.label] else [])
      (fun t' => t'.container = t.container ∧ EnumType.Ordered t'.ranges ∧
        ∀ s, s ∈ t'.ranges ↔ s ∈ earlier ++ [r])
      (t.insert r.low r.high r.label) := by
  have hrefused := ht.insert_eq_error_iff r
  simp only [hmem] at hrefused
  by_cases hfault : r.high < r.low ∨ ∃ s ∈ earlier, s ≠ r ∧ s.Shares r
  · rw [if_pos hfault, hrefused.mpr hfault]
    rfl
  · rw [if_neg hfault]
    simp only [List.mem_append, List.mem_singleton, ← hmem]
    rcases t.insert_cases r with ⟨hr, heq⟩ | ⟨-, -, heq⟩ | ⟨-, hr, hfree, heq⟩
    · rw [heq]
      exact .ok ⟨rfl, ht, fun s => ⟨.inl, fun h => h.elim id fun hs => hs ▸ hr⟩⟩
    · exact absurd (hrefused.mp heq) hfault
    · rw [heq]
      refine .ok ⟨rfl, ht.insertRange hr hfree, fun s => ?_⟩
      rw [(EnumType.perm_insertRange r t.ranges).mem_iff, List.mem_cons, or_comm]

theorem outcome_buildRanges (t : EnumType) (earlier : List EnumRange)
    (ht : EnumType.Ordered t.ranges) (hmem : ∀ r, r ∈ t.ranges ↔ r ∈ earlier)
    (ranges : List RangeDescriptor) :
    Outcome (rangeFaults earlier (ranges.map (·.range)))
      (fun t' => t'.container = t.container ∧ EnumType.Ordered t'.ranges ∧
        ∀ r, r ∈ t'.ranges ↔ r ∈ earlier ++ ranges.map (·.range))
      (buildRanges t ranges) := by
  induction ranges generalizing t earlier with
  | nil => exact .ok ⟨rfl, ht, by simpa using hmem⟩
  | cons d ranges ih =>
      rw [buildRanges, List.map_cons, rangeFaults]
      refine (outcome_insert ht hmem d.range).bind fun t₁ ht₁ => ?_
      obtain ⟨hcontainer, hordered, hmem₁⟩ := ht₁
      have hrest := ih t₁ (earlier ++ [d.range]) hordered hmem₁
      rw [hcontainer, List.append_assoc, List.singleton_append] at hrest
      exact hrest

namespace Members

theorem outcome_insert (members : Members) (name : String) (d : Declaration) :
    Outcome (nameFaults members.names name) (· = members ++ [(name, d)])
      (members.insert name d) := by
  unfold insert nameFaults
  by_cases hname : name = ""
  · rw [if_pos hname, if_pos hname]
    rfl
  · rw [if_neg hname, if_neg hname]
    by_cases hearlier : name ∈ members.names
    · rw [if_pos hearlier, if_pos (List.contains_iff_mem.mpr hearlier)]
      rfl
    · rw [if_neg hearlier, if_neg (mt List.contains_iff_mem.mp hearlier)]
      exact .ok rfl

end Members

namespace Descriptor

variable {aliases : Aliases}

theorem outcome_buildMembers {fields : List (String × Descriptor)}
    (h : ∀ f ∈ fields, Outcome (f.2.faults aliases) (f.2.Describes aliases) (f.2.build aliases))
    (members : Members) :
    Outcome (fieldFaults aliases members.names fields)
      (fun members' => ∃ more : Members, members' = members ++ more ∧
        more.names = fields.map Prod.fst ∧
        List.Forall₂ (fun f m => f.2.Describes aliases m.2) fields more)
      (buildMembers aliases members fields) := by
  induction fields generalizing members with
  | nil => exact .ok ⟨[], by simp, rfl, .nil⟩
  | cons f fields ih =>
      obtain ⟨name, d⟩ := f
      rw [List.forall_mem_cons] at h
      rw [buildMembers, fieldFaults]
      refine h.1.bind fun e he => (members.outcome_insert name e).bind fun members₁ hmembers₁ => ?_
      have hnames : (members ++ [(name, e)]).names = members.names ++ [name] := List.map_append
      have hrest := ih h.2 members₁
      rw [hmembers₁, hnames] at hrest
      rw [hmembers₁]
      refine hrest.imp fun members' hmembers' => ?_
      obtain ⟨more, rfl, hmore, hdescribes⟩ := hmembers'
      exact ⟨(name, e) :: more, by simp, congrArg (name :: ·) hmore, .cons he hdescribes⟩

/-- A description is built into what it describes if nothing is wrong with it, and is refused for
the first thing that is wrong otherwise. -/
theorem outcome_build (d : Descriptor) :
    Outcome (d.faults aliases) (d.Describes aliases) (d.build aliases) := by
  induction d using Descriptor.induction with
  | integer d =>
      rw [faults, build]
      exact d.outcome_build.bind_pure fun t ht => .integer ht
  | float exponent mantissa byteOrder alignment =>
      rw [faults, build]
      unfold FloatType.build
      by_cases h : 2 ≤ exponent.toNat ∧ 1 ≤ mantissa.toNat ∧ exponent.toNat + mantissa.toNat ≤ 64
      · rw [if_pos h, dif_pos h]
        exact .ok (.float rfl rfl rfl rfl)
      · rw [if_neg h, dif_neg h]
        rfl
  | string encoding =>
      rw [faults, build]
      exact .ok (.string encoding)
  | enum container ranges =>
      rw [faults, build]
      refine container.outcome_build.bind fun t ht => ?_
      have hranges := outcome_buildRanges (.empty t) [] ⟨by simp [EnumType.empty], .nil⟩
        (by simp [EnumType.empty]) ranges
      refine hranges.bind_pure fun t' ht' => .enum ⟨?_, ht'.2.1, ht'.2.2⟩
      rw [ht'.1]
      exact ht
  | array length element ih =>
      rw [faults, build]
      exact ih.bind_pure fun e he => .array he
  | sequence lengthName element ih =>
      rw [faults, build]
      exact ih.bind_pure fun e he => .sequence he
  | struct minAlignment fields ih =>
      rw [faults, build]
      refine (outcome_buildMembers ih []).bind_pure fun members hmembers => ?_
      obtain ⟨more, rfl, hnames, hdescribes⟩ := hmembers
      exact .struct hnames hdescribes
  | variant tag fields ih =>
      rw [faults, build]
      refine (outcome_buildMembers ih []).bind_pure fun members hmembers => ?_
      obtain ⟨more, rfl, hnames, hdescribes⟩ := hmembers
      exact .variant hnames hdescribes
  | reference name =>
      rw [faults, build]
      cases hname : aliases[name]? with
      | none =>
          rw [if_neg (by simpa using hname)]
          rfl
      | some e =>
          rw [if_pos (by simpa using Option.isSome_of_eq_some hname)]
          exact .ok (.reference hname)

end Descriptor

/-! ### The declaration described -/

theorem IntegerDescriptor.Describes.unique {d : IntegerDescriptor} {s t : IntegerType}
    (hs : d.Describes s) (ht : d.Describes t) : s = t := by
  obtain ⟨hlength, hsigned, horder, hbase, hencoding, hclock, halignment⟩ := hs
  rw [← ht.length] at hlength
  rw [← ht.signed] at hsigned
  rw [← ht.byteOrder] at horder
  rw [← ht.base] at hbase
  rw [← ht.encoding] at hencoding
  rw [← ht.clock] at hclock
  rw [← ht.alignment] at halignment
  cases s
  cases t
  simp_all

theorem EnumDescribes.unique {container : IntegerDescriptor} {ranges : List EnumRange}
    {s t : EnumType} (hs : EnumDescribes container ranges s)
    (ht : EnumDescribes container ranges t) : s = t := by
  have hcontainer := hs.container.unique ht.container
  have hranges := hs.ordered.eq_of_mem_iff ht.ordered fun r => by rw [hs.mem_iff, ht.mem_iff]
  cases s
  cases t
  simp_all

namespace Descriptor

variable {aliases : Aliases}

theorem members_unique {fields : List (String × Descriptor)}
    (h : ∀ f ∈ fields, ∀ {e e'}, f.2.Describes aliases e → f.2.Describes aliases e' → e = e')
    {members members' : Members} (hnames : members.names = members'.names)
    (hm : List.Forall₂ (fun f m => f.2.Describes aliases m.2) fields members)
    (hm' : List.Forall₂ (fun f m => f.2.Describes aliases m.2) fields members') :
    members = members' := by
  induction hm generalizing members' with
  | nil =>
      cases hm'
      rfl
  | cons hhead _ ih =>
      cases hm' with
      | cons hhead' htail' =>
          rw [List.forall_mem_cons] at h
          rw [Members.names, Members.names, List.map_cons, List.map_cons, List.cons.injEq] at hnames
          rw [Prod.ext hnames.1 (h.1 hhead hhead'), ih h.2 hnames.2 htail']

/-- A description describes one declaration at most. -/
theorem Describes.unique {d : Descriptor} {e e' : Declaration} (h : d.Describes aliases e)
    (h' : d.Describes aliases e') : e = e' := by
  induction d using Descriptor.induction generalizing e e' with
  | integer d =>
      cases h with | integer ht =>
      cases h' with | integer ht' =>
      rw [ht.unique ht']
  | float exponent mantissa byteOrder alignment =>
      cases h with | @float _ _ _ _ s hexponent hmantissa horder halignment =>
      cases h' with | @float _ _ _ _ t hexponent' hmantissa' horder' halignment' =>
      rw [← hexponent'] at hexponent
      rw [← hmantissa'] at hmantissa
      rw [← horder'] at horder
      rw [← halignment'] at halignment
      cases s
      cases t
      simp_all
  | string encoding =>
      cases h
      cases h'
      rfl
  | enum container ranges =>
      cases h with | enum ht =>
      cases h' with | enum ht' =>
      rw [ht.unique ht']
  | array length element ih =>
      cases h with | array he =>
      cases h' with | array he' =>
      rw [ih he he']
  | sequence lengthName element ih =>
      cases h with | sequence he =>
      cases h' with | sequence he' =>
      rw [ih he he']
  | struct minAlignment fields ih =>
      cases h with | struct hnames hmembers =>
      cases h' with | struct hnames' hmembers' =>
      rw [members_unique (fun f hf _ _ => ih f hf) (hnames.trans hnames'.symm) hmembers hmembers']
  | variant tag fields ih =>
      cases h with | variant hnames hmembers =>
      cases h' with | variant hnames' hmembers' =>
      rw [members_unique (fun f hf _ _ => ih f hf) (hnames.trans hnames'.symm) hmembers hmembers']
  | reference name =>
      cases h with | reference he =>
      cases h' with | reference he' =>
      exact Option.some.inj (he.symm.trans he')

/-- A description is built exactly if it is a good one and into the declaration that it describes,
and is otherwise refused for the first of its faults. -/
theorem build_eq_iff (aliases : Aliases) (d : Descriptor) :
    ((∃ e, d.build aliases = .ok e) ↔ d.WellFormed aliases) ∧
      (∀ e, d.build aliases = .ok e ↔ d.WellFormed aliases ∧ d.Describes aliases e) ∧
      ∀ error, d.build aliases = .error error ↔ (d.faults aliases).head? = some error := by
  have houtcome : Outcome (d.faults aliases) (d.Describes aliases) (d.build aliases) :=
    d.outcome_build
  rw [← d.faults_eq_nil_iff]
  cases hbuild : d.build aliases with
  | ok e =>
      rw [hbuild] at houtcome
      obtain ⟨hfaults, hdescribes⟩ := houtcome
      refine ⟨iff_of_true ⟨e, rfl⟩ hfaults, fun e' => ⟨?_, fun h => ?_⟩, fun error => ?_⟩
      · rintro ⟨⟩
        exact ⟨hfaults, hdescribes⟩
      · rw [hdescribes.unique h.2]
      · simp [hfaults]
  | error error =>
      rw [hbuild] at houtcome
      have hfaults : d.faults aliases ≠ [] := by
        rintro hnil
        rw [hnil] at houtcome
        cases houtcome
      refine ⟨iff_of_false (by simp) hfaults, fun e => ?_, fun error' => ?_⟩
      · exact iff_of_false (by simp) fun h => hfaults h.1
      · rw [Except.error.injEq, show (d.faults aliases).head? = some error from houtcome,
          Option.some.injEq]

end Descriptor

end TraceFormat
