import TickHost.Decimal.Shortest

/-!
Reading numerals. A decimal numeral is an optional sign, digits with at most one point among or
beside them, and an optional exponent; the words for infinity and not-a-number are numerals too,
in any case. The number is the double nearest to the written value. Exponents far outside the
range are answered without forming the power.
-/

namespace TickHost.Decimal

open Binary

/-- The value of a row of decimal digits. -/
def digitsValue (digits : List Char) : Nat :=
  digits.foldl (fun n c => 10 * n + (c.toNat - '0'.toNat)) 0

/-- The double nearest to `digits * 10 ^ exponent`. Past `10 ^ 310` everything is infinite, and
below `10 ^ -330` everything is zero. -/
def Digits.toDouble (negative : Bool) (d : Digits) : Double :=
  if d.digits = 0 then Double.ofPattern negative 0
  else
    let magnitude : Int := digitCount d.digits + d.exponent
    if 310 < magnitude then Double.infinity negative
    else if magnitude < -330 then Double.ofPattern negative 0
    else Double.ofRatio negative (d.digits * Nat.pow 10 d.exponent.toNat)
      (Nat.pow 10 (-d.exponent).toNat)

/-- A sign in front, if there is one. -/
def splitSign : List Char → Bool × List Char
  | '-' :: rest => (true, rest)
  | '+' :: rest => (false, rest)
  | rest => (false, rest)

/-- A row of digits, at least one. -/
def row? (digits : List Char) : Option Nat :=
  if digits.isEmpty || !digits.all Char.isDigit then none else some (digitsValue digits)

/-- A whole number, with a sign in front if one likes. -/
def integer? (text : List Char) : Option Int :=
  let (negative, digits) := splitSign text
  (row? digits).map fun n => if negative then -(n : Int) else n

/-- A whole number that has no minus. -/
def natural? : List Char → Option Nat
  | '+' :: digits => row? digits
  | digits => row? digits

/-- The exponent that ends a numeral; nothing written means zero. -/
def exponent? : List Char → Option Int
  | [] => some 0
  | e :: rest => if e = 'e' ∨ e = 'E' then integer? rest else none

/-- The digits of a numeral without its sign. -/
def Digits.read? (text : List Char) : Option Digits :=
  let whole := text.takeWhile Char.isDigit
  let rest := text.dropWhile Char.isDigit
  let (places, rest) :=
    match rest with
    | '.' :: rest => (rest.takeWhile Char.isDigit, rest.dropWhile Char.isDigit)
    | rest => ([], rest)
  if whole.isEmpty && places.isEmpty then none
  else (exponent? rest).map fun e => ⟨digitsValue (whole ++ places), e - places.length⟩

end TickHost.Decimal

namespace TickHost.Binary

open Decimal

/-- The number a text stands for. -/
def Double.read? (text : String) : Option Double :=
  let (negative, rest) := splitSign text.toList
  let word := String.ofList (rest.map Char.toLower)
  if word = "inf" ∨ word = "infinity" then some (Double.infinity negative)
  else if word = "nan" then some Double.nan
  else (Digits.read? rest).map (Digits.toDouble negative)

end TickHost.Binary
