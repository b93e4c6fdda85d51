import TraceFormat.FloatingPoint.Binary64
import TraceFormat.Text.Numeral

/-! # The shortest decimal of a floating-point value

The text of a finite value has the fewest digits that read back as the value, and of those the
nearest to it; a tie goes up.  `shortest?` looks for it on the grids of the multiples of
`10 ^ k`, from coarse to fine.  The text is always positional: no exponent is written, and an
integer has no point. -/

namespace TraceFormat.FloatingPoint

/-- The numbers that round to a value, in quarters of `unit`: from `4 * mantissa - below` to
`4 * mantissa + 2`, where the ends belong to it when `closed`. -/
structure RoundingInterval where
  mantissa : Nat
  exponent : Int
  below : Nat
  closed : Bool
deriving DecidableEq, Repr

/-- The numbers that round to a finite value.  Below a power of two the neighbour is nearer, unless
it is one of the smallest values. -/
def Binary64.interval (x : Binary64) : RoundingInterval :=
  let size := x.magnitude
  let isPower := size.mantissa = 1 <<< 52 ∧ binary64.minExponent < size.exponent
  ⟨size.mantissa, size.exponent, if isPower then 1 else 2, size.mantissa % 2 = 0⟩

namespace RoundingInterval

/-- The nearest multiple of `10 ^ k` in the interval, divided by `10 ^ k`. -/
def onGrid? (i : RoundingInterval) (k : Int) : Option Nat :=
  let quarter := i.exponent - 2
  let up := Nat.pow 10 (-k).toNat <<< quarter.toNat
  let grid := Nat.pow 10 k.toNat <<< (-quarter).toNat
  let center := 4 * i.mantissa * up
  let low := (4 * i.mantissa - i.below) * up
  let high := (4 * i.mantissa + 2) * up
  let floor := center / grid
  let fromLow := if i.closed then low ≤ floor * grid else low < floor * grid
  let toHigh := if i.closed then (floor + 1) * grid ≤ high else (floor + 1) * grid < high
  let nearer := center - floor * grid < (floor + 1) * grid - center
  if fromLow ∧ (nearer ∨ ¬ toHigh) then some floor
  else if toHigh then some (floor + 1)
  else none

/-- The first grid from `10 ^ k` down, of `n + 1` grids, that meets the interval. -/
def search (i : RoundingInterval) : Nat → Int → Option (Nat × Int)
  | 0, _ => none
  | n + 1, k =>
    match i.onGrid? k with
    | some digits => some (digits, k)
    | none => i.search n (k - 1)

/-- The shortest decimal `digits * 10 ^ k` in the interval.  No value reaches `10 ^ 309`, and every
value is a multiple of `10 ^ (-1074)`. -/
def shortest? (i : RoundingInterval) : Option (Nat × Int) := i.search 1384 309

end RoundingInterval

/-- The positional text of `digits * 10 ^ k`. -/
def positional (digits : Nat) (k : Int) : String :=
  if 0 ≤ k then Text.Numeral.natText 10 (digits * Nat.pow 10 k.toNat)
  else
    let places := (-k).toNat
    let fraction := Text.Numeral.natText 10 (digits % Nat.pow 10 places)
    Text.Numeral.natText 10 (digits / Nat.pow 10 places) ++ "."
      ++ String.ofList (List.replicate (places - fraction.length) '0') ++ fraction

/-- The text of a value. -/
def Binary64.text (x : Binary64) : String :=
  if x.isNaN then "NaN"
  else
    let size :=
      if x.isInfinite then "inf"
      else if x.isZero then "0"
      else
        match x.interval.shortest? with
        | some (digits, k) => positional digits k
        | none => "0"
    if x.isNegative then "-" ++ size else size

end TraceFormat.FloatingPoint
