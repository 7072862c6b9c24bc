import TickHost.Decimal.Numeral
import TickHost.Text.Words
import TickHost.Toml.Node

/-!
Values without quotes or brackets: booleans, whole numbers of 64 bits, numbers with a point or an
exponent, and moments. Underscores may stand between digits. A moment is a date, a time, or a date
and a time, the latter with an offset if one likes; its parts have to be in their ranges.
-/

namespace TickHost.Toml

open Binary Decimal

/-- Digits with single underscores between them. -/
def digits? (isDigit : Char → Bool) (text : List Char) : Option (List Char) :=
  let groups := Text.splitEvery '_' text
  if groups.all fun group => !group.isEmpty && group.all isDigit then some groups.flatten else none

/-- The digits of a decimal whole number, which does not start with a zero in vain. -/
def wholeDigits? (text : List Char) : Option (List Char) :=
  match digits? Char.isDigit text with
  | some ('0' :: _ :: _) => none
  | found => found

def radixDigit? (radix : Nat) (c : Char) : Option Nat :=
  let n := c.toNat
  let value :=
    if 48 ≤ n ∧ n ≤ 57 then n - 48
    else if 65 ≤ n ∧ n ≤ 70 then n - 55
    else if 97 ≤ n ∧ n ≤ 102 then n - 87
    else radix
  if value < radix then some value else none

/-- A whole number in digits of a radix other than ten. -/
def radixNumber? (radix : Nat) (text : List Char) : Option Nat :=
  (digits? (fun c => (radixDigit? radix c).isSome) text).bind fun digits =>
    digits.foldlM (fun n c => (radixDigit? radix c).map (radix * n + ·)) 0

def inRange? (n : Int) : Option Int :=
  if -(Nat.pow 2 63 : Int) ≤ n ∧ n < (Nat.pow 2 63 : Int) then some n else none

def integer? (text : List Char) : Option Int :=
  let found : Option Int := match text with
    | '0' :: 'x' :: rest => (radixNumber? 16 rest).map Int.ofNat
    | '0' :: 'o' :: rest => (radixNumber? 8 rest).map Int.ofNat
    | '0' :: 'b' :: rest => (radixNumber? 2 rest).map Int.ofNat
    | text =>
        let (negative, rest) := splitSign text
        (wholeDigits? rest).map fun digits =>
          if negative then -(digitsValue digits : Int) else digitsValue digits
  found.bind inRange?

/-- The part before a mark, and what follows the mark if there is one. -/
def cut (isMark : Char → Bool) (text : List Char) : List Char × Option (List Char) :=
  match text.dropWhile fun c => !isMark c with
  | [] => (text, none)
  | _ :: rest => (text.takeWhile fun c => !isMark c, some rest)

/-- A number with a point or an exponent, or a word for one that is not finite. What is too large
is refused. -/
def float? (text : List Char) : Option Double := do
  let (negative, rest) := splitSign text
  if rest = "inf".toList then some (Double.infinity negative)
  else if rest = "nan".toList then some Double.nan
  else
    let (mantissa, exponent) := cut (fun c => c == 'e' || c == 'E') rest
    let (whole, places) := cut (· == '.') mantissa
    if exponent.isNone ∧ places.isNone then none
    else
      let wholeDigits ← wholeDigits? whole
      let placeDigits ← match places with
        | some text => digits? Char.isDigit text
        | none => some []
      let power ← match exponent with
        | some text =>
            let (negative, rest) := splitSign text
            (digits? Char.isDigit rest).map fun digits =>
              if negative then -(digitsValue digits : Int) else digitsValue digits
        | none => some 0
      let x := Digits.toDouble negative
        ⟨digitsValue (wholeDigits ++ placeDigits), power - placeDigits.length⟩
      if x = Double.infinity false then none else some x

/-! Moments. -/

/-- A number of so many digits, and the rest. -/
def fixed? (width : Nat) (text : List Char) : Option (Nat × List Char) :=
  let digits := text.take width
  if digits.length = width ∧ digits.all Char.isDigit then
    some (digitsValue digits, text.drop width)
  else none

def expect? (c : Char) : List Char → Option (List Char)
  | [] => none
  | x :: rest => if x = c then some rest else none

def daysIn (year month : Nat) : Nat :=
  if month = 2 then if year % 4 = 0 ∧ (year % 100 ≠ 0 ∨ year % 400 = 0) then 29 else 28
  else if [4, 6, 9, 11].contains month then 30
  else 31

/-- What follows a date. -/
def date? (text : List Char) : Option (List Char) := do
  let (year, rest) ← fixed? 4 text
  let rest ← expect? '-' rest
  let (month, rest) ← fixed? 2 rest
  let rest ← expect? '-' rest
  let (day, rest) ← fixed? 2 rest
  if 1 ≤ month ∧ month ≤ 12 ∧ 1 ≤ day ∧ day ≤ daysIn year month then some rest else none

/-- What follows a time of day, which may have a leap second and parts of one. -/
def time? (text : List Char) : Option (List Char) := do
  let (hour, rest) ← fixed? 2 text
  let rest ← expect? ':' rest
  let (minute, rest) ← fixed? 2 rest
  let rest ← expect? ':' rest
  let (second, rest) ← fixed? 2 rest
  if hour ≤ 23 ∧ minute ≤ 59 ∧ second ≤ 60 then
    match rest with
    | '.' :: parts =>
        if (parts.head?.any Char.isDigit) then some (parts.dropWhile Char.isDigit) else none
    | rest => some rest
  else none

/-- Whether a text is an offset from universal time, or nothing. -/
def isOffset (text : List Char) : Bool :=
  match text with
  | [] | ['Z'] | ['z'] => true
  | sign :: rest =>
      (sign == '+' || sign == '-') &&
        match fixed? 2 rest with
        | some (hour, ':' :: rest) =>
            match fixed? 2 rest with
            | some (minute, []) => hour ≤ 23 && minute ≤ 59
            | _ => false
        | _ => false

/-- Whether a text is a moment. A blank may stand between date and time. -/
def isMoment (text : List Char) : Bool :=
  match date? text with
  | some [] => true
  | some (mark :: rest) =>
      ['T', 't', ' '].contains mark && (time? rest).any isOffset
  | none => time? text == some []

def isScalarChar (c : Char) : Bool :=
  c.isAlphanum || "+-_.:".toList.contains c

/-- The text of a value, and the rest. A blank after a date belongs to it if a digit follows. -/
def scalarText (text : List Char) : List Char × List Char :=
  let first := text.takeWhile isScalarChar
  let rest := text.dropWhile isScalarChar
  match rest with
  | ' ' :: c :: after =>
      if c.isDigit ∧ date? first = some [] then
        (first ++ ' ' :: (c :: after).takeWhile isScalarChar, (c :: after).dropWhile isScalarChar)
      else (first, rest)
  | rest => (first, rest)

/-- The value of a text without quotes and brackets. -/
def scalar (text : List Char) : Option Node :=
  if text = "true".toList then some (.boolean true)
  else if text = "false".toList then some (.boolean false)
  else if isMoment text then some (.moment (String.ofList text))
  else
    match integer? text with
    | some n => some (.integer n)
    | none => (float? text).map Node.float

end TickHost.Toml
