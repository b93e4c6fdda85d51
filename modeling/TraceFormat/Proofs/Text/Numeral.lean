import Mathlib.Algebra.Ring.Int.Defs
import Mathlib.Data.List.Basic
import Mathlib.Tactic.Common
import TraceFormat.Text.Numeral

/-! # Numerals and their numbers

The digits of a number are found by dividing it by the base until less than the base is left, so
what holds of the one digit left and is kept by each division holds of all numbers
(`Numeral.digits_induction`).  In this way they are digits of the base with no zero in front
(`Numeral.isNumeral_natText`), and `Numeral.readNat?` finds the number again.

The same digits come out of a loop that takes them from the low end and turns them round
(`Numeral.loopText`) and, in the bases that have one, of the standard text of a number
(`Numeral.standardText`).  For 64 bits of storage all this is put together in
`Numeral.render_canonical`: storage is shown by a sign and a numeral, and the text and the base give
the number back.  The decimal text of a number gives it back as well (`Numeral.read?_decimal`). -/

namespace TraceFormat.Text.Numeral

/-- The digits of the bases up to 36. -/
def alphabet : List Char := "0123456789abcdefghijklmnopqrstuvwxyz".toList

/-- A text of digits of a base, of which the first is no zero unless it is the only one. -/
structure IsNumeral (base : Nat) (text : String) : Prop where
  ne_empty : text ≠ ""
  digits : ∀ c ∈ text.toList, c ∈ alphabet.take base
  leading : text.toList.head? = some '0' → text = "0"

/-- The number that a digit of a base stands for. -/
def digitValue? (base : Nat) (c : Char) : Option Nat := (alphabet.idxOf? c).filter (· < base)

/-- The number of a text of digits, each of which counts the base times what follows it. -/
def readNat? (base : Nat) (text : List Char) : Option Nat :=
  if text = [] then none
  else text.foldlM (fun n c => (digitValue? base c).map (n * base + ·)) 0

/-- The number of a text that may begin with a minus. -/
def read? (base : Nat) (text : String) : Option Int :=
  if text.toList.head? = some '-' then
    (readNat? base text.toList.tail).map fun n : Nat => -(n : Int)
  else (readNat? base text.toList).map fun n : Nat => (n : Int)

/-- Puts the digits of `n` behind others, the lowest first, until nothing is left of it. -/
def collect (base n : Nat) (found : List Char) : List Char :=
  if n = 0 ∨ base < 2 then found else collect base (n / base) (found ++ [digitChar (n % base)])
termination_by n
decreasing_by exact Nat.div_lt_self (by omega) (by omega)

/-- The text that is collected from the low end and turned round. -/
def loopText (base n : Nat) : String :=
  if n = 0 then "0" else String.ofList (collect base n []).reverse

/-- The text of a number by the standard texts of decimal, hexadecimal, octal and binary numbers,
and in the other bases by the loop. -/
def standardText (base n : Nat) : String :=
  match base with
  | 10 => toString n
  | 16 => String.ofList (Nat.toDigits 16 n)
  | 8 => String.ofList (Nat.toDigits 8 n)
  | 2 => String.ofList (Nat.toDigits 2 n)
  | base => loopText base n

/-! ### Digits -/

section Digits

variable {base n d : Nat}

theorem digits_of_lt (h : n < base) : digits base n = [n] := by
  rw [digits, if_pos (.inl h)]

theorem digits_of_le (hbase : 2 ≤ base) (h : base ≤ n) :
    digits base n = digits base (n / base) ++ [n % base] := by
  rw [digits, if_neg (by omega)]

/-- What holds of the numbers below the base, and of a number if it holds of its quotient, holds of
all numbers. -/
theorem digits_induction {motive : Nat → Prop} (hbase : 2 ≤ base)
    (last : ∀ n < base, motive n) (more : ∀ n, base ≤ n → motive (n / base) → motive n)
    (n : Nat) : motive n := by
  induction n using Nat.strongRecOn with
  | ind n ih =>
      rcases Nat.lt_or_ge n base with h | h
      · exact last n h
      · exact more n h (ih _ (Nat.div_lt_self (by omega) hbase))

theorem digits_ne_nil (base n : Nat) : digits base n ≠ [] := by
  rw [digits]
  split_ifs <;> simp

theorem lt_of_mem_digits (hbase : 2 ≤ base) (h : d ∈ digits base n) : d < base := by
  induction n using digits_induction hbase with
  | last n hn =>
      rw [digits_of_lt hn, List.mem_singleton] at h
      exact h ▸ hn
  | more n hn ih =>
      rw [digits_of_le hbase hn, List.mem_append, List.mem_singleton] at h
      rcases h with h | rfl
      · exact ih h
      · exact Nat.mod_lt n (by omega)

theorem head?_digits (hbase : 2 ≤ base) (h : (digits base n).head? = some 0) : n = 0 := by
  induction n using digits_induction hbase with
  | last n hn =>
      rw [digits_of_lt hn] at h
      exact Option.some.inj h
  | more n hn ih =>
      rw [digits_of_le hbase hn, List.head?_append_of_ne_nil _ (digits_ne_nil _ _)] at h
      have hzero := ih h
      rw [Nat.div_eq_zero_iff] at hzero
      omega

/-- The digits are collected from the low end. -/
theorem collect_eq (hbase : 2 ≤ base) (hn : n ≠ 0) (found : List Char) :
    collect base n found = found ++ ((digits base n).map digitChar).reverse := by
  induction n using digits_induction hbase generalizing found with
  | last n hlt =>
      rw [collect, if_neg (by omega), Nat.div_eq_of_lt hlt, collect, if_pos (.inl rfl),
        Nat.mod_eq_of_lt hlt, digits_of_lt hlt]
      rfl
  | more n hle ih =>
      have hquotient : n / base ≠ 0 := by
        rw [Ne, Nat.div_eq_zero_iff]
        omega
      rw [collect, if_neg (by omega), ih hquotient, digits_of_le hbase hle]
      simp

/-- Up to base 16 these are the digits that natural numbers have anyway. -/
theorem map_digits_eq_toDigits (hbase : 2 ≤ base) (hle : base ≤ 16) (n : Nat) :
    (digits base n).map digitChar = Nat.toDigits base n := by
  have hdigit : ∀ d < 16, digitChar d = Nat.digitChar d := by decide
  induction n using digits_induction hbase with
  | last n hn =>
      rw [digits_of_lt hn, Nat.toDigits_of_lt_base hn, List.map_singleton, hdigit n (by omega)]
  | more n hn ih =>
      have hmod : n % base < base := Nat.mod_lt n (by omega)
      have hquotient : 0 < n / base := Nat.div_pos hn (by omega)
      have happend := Nat.toDigits_append_toDigits hbase hquotient hmod
      rw [Nat.div_add_mod, Nat.toDigits_of_lt_base hmod] at happend
      rw [digits_of_le hbase hn, List.map_append, ih, List.map_singleton, hdigit _ (by omega),
        happend]

end Digits

/-! ### Texts of digits -/

section Texts

variable {base n d : Nat}

theorem getElem?_alphabet (h : d < 36) : alphabet[d]? = some (digitChar d) := by
  revert d
  decide

theorem digitChar_mem_alphabet (hle : base ≤ 36) (h : d < base) :
    digitChar d ∈ alphabet.take base := by
  have hget : (alphabet.take base)[d]? = some (digitChar d) := by
    rw [List.getElem?_take_of_lt h, getElem?_alphabet (by omega)]
  exact List.mem_of_getElem? hget

theorem digitValue?_digitChar (hle : base ≤ 36) (h : d < base) :
    digitValue? base (digitChar d) = some d := by
  have hindex : ∀ d < 36, alphabet.idxOf? (digitChar d) = some d := by decide
  rw [digitValue?, hindex d (by omega)]
  simp [Option.filter, h]

theorem digitChar_eq_zero (h : d < 36) (hzero : digitChar d = '0') : d = 0 := by
  revert d
  decide

theorem toList_natText (base n : Nat) :
    (natText base n).toList = (digits base n).map digitChar := by
  rw [natText, String.toList_ofList]

theorem isNumeral_natText (hbase : 2 ≤ base) (hle : base ≤ 36) (n : Nat) :
    IsNumeral base (natText base n) := by
  constructor
  · intro h
    have hlist := congrArg String.toList h
    rw [toList_natText] at hlist
    exact digits_ne_nil base n (List.map_eq_nil_iff.mp hlist)
  · intro c hc
    rw [toList_natText] at hc
    obtain ⟨d, hd, rfl⟩ := List.mem_map.mp hc
    exact digitChar_mem_alphabet hle (lt_of_mem_digits hbase hd)
  · intro h
    rw [toList_natText, List.head?_map, Option.map_eq_some_iff] at h
    obtain ⟨d, hd, hzero⟩ := h
    have hlt := lt_of_mem_digits hbase (List.mem_of_head? hd)
    obtain rfl := digitChar_eq_zero (by omega) hzero
    rw [head?_digits hbase hd, natText, digits_of_lt (by omega)]
    rfl

theorem readNat?_natText (hbase : 2 ≤ base) (hle : base ≤ 36) (n : Nat) :
    readNat? base (natText base n).toList = some n := by
  rw [toList_natText, readNat?, if_neg (by simpa using digits_ne_nil base n)]
  induction n using digits_induction hbase with
  | last n hn => simp [digits_of_lt hn, digitValue?_digitChar hle hn]
  | more n hn ih =>
      have hmod : n % base < base := Nat.mod_lt n (by omega)
      rw [digits_of_le hbase hn, List.map_append, List.foldlM_append, ih]
      simp [digitValue?_digitChar hle hmod, Nat.div_add_mod']

theorem loopText_eq (hbase : 2 ≤ base) (n : Nat) : loopText base n = natText base n := by
  unfold loopText
  split_ifs with hn
  · subst hn
    rw [natText, digits_of_lt (by omega)]
    rfl
  · rw [collect_eq hbase hn, List.nil_append, List.reverse_reverse, natText]

theorem standardText_eq (hbase : 2 ≤ base) (n : Nat) : standardText base n = natText base n := by
  unfold standardText natText
  split
  · rw [map_digits_eq_toDigits (by decide) (by decide)]
    exact Nat.repr_eq_ofList_toDigits
  · rw [map_digits_eq_toDigits (by decide) (by decide)]
  · rw [map_digits_eq_toDigits (by decide) (by decide)]
  · rw [map_digits_eq_toDigits (by decide) (by decide)]
  · exact loopText_eq hbase n

end Texts

/-! ### Storage -/

theorem clampBase_mem (base : Nat) : 2 ≤ clampBase base ∧ clampBase base ≤ 36 := by
  unfold clampBase
  omega

theorem read?_natText {base : Nat} (hbase : 2 ≤ base) (hle : base ≤ 36) (n : Nat) :
    read? base (natText base n) = some (n : Int) := by
  have hhead : (natText base n).toList.head? ≠ some '-' := by
    intro h
    have hdigit := (isNumeral_natText hbase hle n).digits '-' (List.mem_of_head? h)
    exact absurd (List.mem_of_mem_take hdigit) (by decide)
  rw [read?, if_neg hhead, readNat?_natText hbase hle]
  rfl

theorem read?_minus_natText {base : Nat} (hbase : 2 ≤ base) (hle : base ≤ 36) (n : Nat) :
    read? base ("-" ++ natText base n) = some (-(n : Int)) := by
  have hlist : ("-" ++ natText base n).toList = '-' :: (natText base n).toList := by
    rw [String.toList_append]
    rfl
  rw [read?, hlist, if_pos List.head?_cons, List.tail_cons, readNat?_natText hbase hle]
  rfl

theorem read?_decimal (n : Int) : read? 10 (decimal n) = some n := by
  unfold decimal
  split_ifs with hneg
  · rw [read?_minus_natText (by decide) (by decide)]
    congr 1
    omega
  · rw [read?_natText (by decide) (by decide)]
    congr 1
    omega

theorem decimal_inj {m n : Int} : decimal m = decimal n ↔ m = n := by
  constructor
  · intro h
    have hread := read?_decimal m
    rw [h, read?_decimal n] at hread
    exact (Option.some.inj hread).symm
  · rintro rfl
    rfl

theorem render_ten (value : BitVec 64) (signed : Bool) :
    render value 10 signed = decimal (if signed then value.toInt else value.toNat) := by
  have hclamp : clampBase 10 = 10 := rfl
  unfold render decimal
  rw [hclamp]
  cases signed with
  | false =>
      have hneg : ¬ (value.toNat : Int) < 0 := by omega
      simp [hneg]
  | true =>
      simp only [true_and, if_true]
      split_ifs with hneg
      · rfl
      · have hnat : value.toInt.natAbs = value.toNat := by
          rw [BitVec.toInt_eq_toNat_cond] at hneg ⊢
          split_ifs at hneg ⊢ <;> omega
        rw [hnat]

theorem newline_not_mem_decimal (n : Int) : '\n' ∉ (decimal n).toList := by
  have hdigits : ∀ m, '\n' ∉ (natText 10 m).toList := by
    intro m hmem
    have hdigit := (isNumeral_natText (by decide) (by decide) m).digits _ hmem
    exact absurd (List.mem_of_mem_take hdigit) (by decide)
  unfold decimal
  split_ifs
  · rw [String.toList_append, List.mem_append]
    exact not_or.mpr ⟨by decide, hdigits _⟩
  · exact hdigits _

/-- The number of which the numeral is shown, with a minus before it if storage is negative. -/
def magnitude (value : BitVec 64) (signed : Bool) : Nat :=
  if signed ∧ value.toInt < 0 then value.toInt.natAbs else value.toNat

theorem render_eq (value : BitVec 64) (base : Nat) (signed : Bool) :
    render value base signed = (if signed ∧ value.toInt < 0 then "-" else "") ++
      natText (clampBase base) (magnitude value signed) := by
  unfold render magnitude
  split_ifs
  · rfl
  · rw [String.empty_append]

theorem toInt_emod (value : BitVec 64) : value.toInt % 2 ^ 64 = value.toNat := by
  rw [BitVec.toInt_eq_toNat_bmod]
  exact (Int.bmod_emod).trans (Int.emod_eq_of_lt (by omega) (by omega))

/-- The text of storage is read as the number that the storage holds. -/
theorem read?_render (value : BitVec 64) (base : Nat) (signed : Bool) :
    read? (clampBase base) (render value base signed) =
      some (if signed then value.toInt else value.toInt % 2 ^ 64) := by
  obtain ⟨hbase, hle⟩ := clampBase_mem base
  rw [render]
  split_ifs with hminus hsigned hsigned
  · rw [read?_minus_natText hbase hle]
    congr 1
    omega
  · exact absurd hminus.1 hsigned
  · rw [read?_natText hbase hle, ← toInt_emod]
    have hlow : 0 ≤ value.toInt := by
      simp only [hsigned, true_and] at hminus
      omega
    have hhigh := value.toInt_lt
    rw [Int.emod_eq_of_lt hlow (by omega)]
  · rw [read?_natText hbase hle, toInt_emod]

theorem eq_of_number_eq {value other : BitVec 64} {signed : Bool}
    (h : (if signed then value.toInt else value.toInt % 2 ^ 64) =
      if signed then other.toInt else other.toInt % 2 ^ 64) : value = other := by
  split_ifs at h
  · exact BitVec.eq_of_toInt_eq h
  · rw [toInt_emod, toInt_emod] at h
    exact BitVec.eq_of_toNat_eq (Int.ofNat_inj.mp h)

/-- Storage shows as a numeral, behind a minus if it is signed and negative.  The numeral is the one
that the digit loop gives, and the one that a standard text of the base gives.  Read in its base the
text is the number that the storage holds, so that no other storage shows as the same text. -/
theorem render_canonical (value : BitVec 64) (base : Nat) (signed : Bool) :
    (∃ numeral, IsNumeral (clampBase base) numeral ∧
      render value base signed = (if signed ∧ value.toInt < 0 then "-" else "") ++ numeral ∧
      numeral = loopText (clampBase base) (magnitude value signed) ∧
      numeral = standardText (clampBase base) (magnitude value signed)) ∧
    read? (clampBase base) (render value base signed) =
      some (if signed then value.toInt else value.toInt % 2 ^ 64) ∧
    ∀ other, render other base signed = render value base signed → other = value := by
  obtain ⟨hbase, hle⟩ := clampBase_mem base
  refine ⟨⟨_, isNumeral_natText hbase hle _, render_eq value base signed,
    (loopText_eq hbase _).symm, (standardText_eq hbase _).symm⟩, read?_render value base signed,
    fun other h => ?_⟩
  have hread := read?_render other base signed
  rw [h, read?_render] at hread
  exact (eq_of_number_eq (Option.some.inj hread)).symm

-- The least number has no opposite in 64 bits.
example : render (BitVec.intMin 64) 36 true = "-1y2p0ij32e8e8" := by
  cbv

end TraceFormat.Text.Numeral
