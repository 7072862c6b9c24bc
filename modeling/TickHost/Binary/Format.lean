/-!
Binary interchange formats, worked out in whole numbers. A magnitude pattern stands for a whole
number of units, the unit being the distance between the smallest values of the format, and a
ratio is rounded to the nearest pattern, a half going to the even one. Only magnitudes live here;
the sign is added by the number types that use a format.

Nothing here depends on the machine's own floating point, so every conversion of the library can
be evaluated and reasoned about like any other function on natural numbers.
-/

namespace TickHost.Binary

/-- The quotient rounded to the nearest whole number, a half going to the even neighbour. -/
def divEven (num den : Nat) : Nat :=
  let quotient := num / den
  let rest := num % den
  if 2 * rest < den then quotient
  else if 2 * rest = den ∧ quotient % 2 = 0 then quotient
  else quotient + 1

structure Format where
  /-- Stored bits of the fraction. -/
  fraction : Nat
  /-- Bits of the exponent field. -/
  exponent : Nat
deriving DecidableEq, Repr

namespace Format

def single : Format := ⟨23, 8⟩

def double : Format := ⟨52, 11⟩

/-- There are `2 ^ scale` units in one. -/
def scale (f : Format) : Nat :=
  Nat.pow 2 (f.exponent - 1) - 2 + f.fraction

/-- The magnitude pattern of infinity; greater patterns are no numbers. -/
def infinity (f : Format) : Nat :=
  (Nat.pow 2 f.exponent - 1) * Nat.pow 2 f.fraction

/-- The weight of the sign bit. -/
def signWeight (f : Format) : Nat :=
  Nat.pow 2 (f.exponent + f.fraction)

/-- The exponent field, counted from the smallest normal values; subnormal values share it. -/
def shift (f : Format) (pattern : Nat) : Nat :=
  pattern / Nat.pow 2 f.fraction - 1

/-- The significand of a finite pattern, with the leading bit that normal values leave out. -/
def significand (f : Format) (pattern : Nat) : Nat :=
  if pattern < Nat.pow 2 f.fraction then pattern
  else pattern % Nat.pow 2 f.fraction + Nat.pow 2 f.fraction

/-- The value of a finite pattern as a number of units. -/
def units (f : Format) (pattern : Nat) : Nat :=
  f.significand pattern * Nat.pow 2 (f.shift pattern)

/-- The pattern nearest to `num / den`. The significand is rounded at the place that its leading
bit fixes; adding the shift in front lets a carry run into the exponent field, where it belongs. -/
def nearest (f : Format) (num den : Nat) : Nat :=
  let whole := num * Nat.pow 2 f.scale / den
  let shift := if whole = 0 then 0 else Nat.log2 whole - f.fraction
  let rounded := divEven (num * Nat.pow 2 f.scale) (den * Nat.pow 2 shift)
  min (shift * Nat.pow 2 f.fraction + rounded) f.infinity

/-! Arithmetic on patterns that are finite and not negative: the exact result, rounded once. -/

def ofNat (f : Format) (n : Nat) : Nat :=
  f.nearest n 1

def add (f : Format) (a b : Nat) : Nat :=
  f.nearest (f.units a + f.units b) (Nat.pow 2 f.scale)

def mul (f : Format) (a b : Nat) : Nat :=
  f.nearest (f.units a * f.units b) (Nat.pow 2 (2 * f.scale))

def div (f : Format) (a b : Nat) : Nat :=
  f.nearest (f.units a) (f.units b)

/-- The whole part. -/
def floor (f : Format) (a : Nat) : Nat :=
  f.units a / Nat.pow 2 f.scale

/-- The value of a finite pattern of `f` in the format `g`, and infinity for infinity. -/
def convert (f g : Format) (pattern : Nat) : Nat :=
  if pattern < f.infinity then g.nearest (f.units pattern) (Nat.pow 2 f.scale) else g.infinity

end Format

end TickHost.Binary
