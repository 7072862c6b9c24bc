import TickHost.Binary.Number

/-!
The shortest decimal text of a double: the fewest digits that read back as the same number, and of
those the nearest to it. The text is always positional, without an exponent and without a point
after a whole number. For each count of digits the two neighbours of the value on that decimal
grid are tested in whole numbers; the first grid with a neighbour inside the rounding interval
gives the digits.
-/

namespace TickHost.Decimal

open Binary

/-- The interval of reals that round to one number, over a common denominator. Its ends belong to
it exactly when `closed` holds. -/
structure Interval where
  low : Nat
  value : Nat
  high : Nat
  den : Nat
  closed : Bool
deriving Repr

/-- `digits * 10 ^ exponent`. -/
structure Digits where
  digits : Nat
  exponent : Int
deriving DecidableEq, Repr

/-- The reals nearer to a finite pattern than to its neighbours. Below a power of two the
neighbours are only half as far away. -/
def Interval.ofPattern (f : Format) (pattern : Nat) : Interval :=
  let m := f.significand pattern
  let step := Nat.pow 2 (f.shift pattern)
  let below := if m = Nat.pow 2 f.fraction ∧ 0 < f.shift pattern then 1 else 2
  { low := (4 * m - below) * step
    value := 4 * m * step
    high := (4 * m + 2) * step
    den := Nat.pow 2 (f.scale + 2)
    closed := m % 2 = 0 }

/-- Whether `n * 10 ^ exponent` lies in the interval. -/
def Interval.holds (i : Interval) (n : Nat) (exponent : Int) : Bool :=
  let num := n * Nat.pow 10 exponent.toNat * i.den
  let scale := Nat.pow 10 (-exponent).toNat
  if i.closed then i.low * scale ≤ num && num ≤ i.high * scale
  else i.low * scale < num && num < i.high * scale

/-- The number of decimal digits of a positive whole number. -/
def digitCount (n : Nat) : Nat :=
  (Nat.toDigits 10 n).length

/-- The least `k` with `num / den < 10 ^ k`, for a positive ratio. -/
def magnitude (num den : Nat) : Int :=
  if den ≤ num then digitCount (num / den)
  else
    let places := digitCount (den / num)
    if den ≤ num * Nat.pow 10 (places - 1) then 2 - (places : Int) else 1 - (places : Int)

/-- The neighbour on the grid of multiples of `10 ^ exponent` that lies in the interval; of two
the nearer, and the upper one if both are as near. -/
def Interval.onGrid? (i : Interval) (exponent : Int) : Option Nat :=
  let num := i.value * Nat.pow 10 (-exponent).toNat
  let den := i.den * Nat.pow 10 exponent.toNat
  let floor := num / den
  let lower := i.holds floor exponent
  let upper := i.holds (floor + 1) exponent
  if lower && (!upper || 2 * (num % den) < den) then some floor
  else if upper then some (floor + 1)
  else none

/-- Trailing zeros go into the exponent; `fuel` bounds their number. -/
def Digits.trim : Nat → Digits → Digits
  | 0, d => d
  | fuel + 1, d =>
      if d.digits % 10 = 0 then Digits.trim fuel ⟨d.digits / 10, d.exponent + 1⟩ else d

/-- The digits of the first grid that meets the interval, from `1` digit to `17`. -/
def Interval.shortest (i : Interval) : Digits :=
  let top := magnitude i.value i.den
  let grids := (List.range 17).map fun n => top - (n + 1 : Nat)
  match grids.findSome? fun e => (i.onGrid? e).map fun n => Digits.mk n e with
  | some d => d.trim 20
  | none => ⟨0, 0⟩

/-- Positional notation: zeros fill the places between the digits and the point. -/
def Digits.render (d : Digits) : String :=
  let text := Nat.toDigits 10 d.digits
  if 0 ≤ d.exponent then String.ofList (text ++ List.replicate d.exponent.toNat '0')
  else
    let places := (-d.exponent).toNat
    if places < text.length then
      String.ofList (text.take (text.length - places) ++ '.' :: text.drop (text.length - places))
    else String.ofList ('0' :: '.' :: List.replicate (places - text.length) '0' ++ text)

end TickHost.Decimal

namespace TickHost.Binary

open Decimal

/-- The shortest positional text that reads back as `x`. -/
def Double.render (x : Double) : String :=
  if x.isNaN then "NaN"
  else
    let magnitude :=
      if x.isInfinite then "inf"
      else if x.pattern = 0 then "0"
      else (Interval.ofPattern Double.format x.pattern).shortest.render
    if x.isNegative then "-" ++ magnitude else magnitude

end TickHost.Binary
