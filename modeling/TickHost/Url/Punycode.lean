/-!
Punycode: names outside ASCII written in ASCII. The characters outside ASCII are taken in rising
order; for each occurrence the distance from the one before is written as a number with digits of
variable weight, whose thresholds adapt to the distances seen so far.
-/

namespace TickHost.Url.Punycode

def digit (d : Nat) : Char :=
  Char.ofNat (if d < 26 then 97 + d else 22 + d)

def digitValue? (c : Char) : Option Nat :=
  let n := c.toNat
  if 97 ≤ n ∧ n ≤ 122 then some (n - 97)
  else if 65 ≤ n ∧ n ≤ 90 then some (n - 65)
  else if 48 ≤ n ∧ n ≤ 57 then some (n - 22)
  else none

def threshold (place bias : Nat) : Nat :=
  if place ≤ bias then 1 else if bias + 26 ≤ place then 26 else place - bias

theorem threshold_pos (place bias : Nat) : 1 ≤ threshold place bias := by
  unfold threshold
  split
  · omega
  · split <;> omega

theorem threshold_le (place bias : Nat) : threshold place bias ≤ 26 := by
  unfold threshold
  split
  · omega
  · split <;> omega

/-- Divide by 35 until the rest is small, counting 36 for each division. -/
def shrink (delta count : Nat) : Nat × Nat :=
  if 455 < delta then shrink (delta / 35) (count + 36) else (delta, count)
termination_by delta
decreasing_by exact Nat.div_lt_self (by omega) (by omega)

def adapt (delta points : Nat) (first : Bool) : Nat :=
  let halved := if first then delta / 700 else delta / 2
  let (rest, count) := shrink (halved + halved / points) 0
  count + 36 * rest / (rest + 38)

/-- A number in digits of variable weight, the least one first. -/
def encodeNumber (bias place n : Nat) : List Char :=
  let t := threshold place bias
  if n < t then [digit n]
  else digit (t + (n - t) % (36 - t)) :: encodeNumber bias (place + 36) ((n - t) / (36 - t))
termination_by n
decreasing_by
  have low := threshold_pos place bias
  have high := threshold_le place bias
  calc (n - threshold place bias) / (36 - threshold place bias)
      ≤ n - threshold place bias := Nat.div_le_self _ _
    _ < n := by omega

structure State where
  written : List Char
  delta : Nat
  bias : Nat
  handled : Nat

/-- Pass one character of the name while the code point `target` is being written. -/
def visit (plain target : Nat) (s : State) (c : Char) : State :=
  if c.toNat < target then { s with delta := s.delta + 1 }
  else if c.toNat = target then
    ⟨s.written ++ encodeNumber s.bias 36 s.delta, 0,
      adapt s.delta (s.handled + 1) (s.handled = plain), s.handled + 1⟩
  else s

/-- The distinct code points outside ASCII in rising order. -/
def targets (name : List Char) : List Nat :=
  (((name.map Char.toNat).filter (128 ≤ ·)).mergeSort).eraseDups

def encode (name : List Char) : List Char :=
  let plain := name.filter fun c => c.toNat < 128
  let start : State :=
    ⟨if plain.isEmpty then [] else plain ++ ['-'], 0, 72, plain.length⟩
  let (last, _) := (targets name).foldl (fun (s, point) target =>
    let s := { s with delta := s.delta + (target - point) * (s.handled + 1) }
    let s := name.foldl (visit plain.length target) s
    ({ s with delta := s.delta + 1 }, target + 1)) (start, 128)
  last.written

/-- Read one number; `weight` is the weight of the next digit. -/
def decodeNumber? (bias : Nat) : Nat → Nat → Nat → List Char → Option (Nat × List Char)
  | _, _, _, [] => none
  | place, weight, n, c :: rest =>
      match digitValue? c with
      | none => none
      | some d =>
          let t := threshold place bias
          let n := n + d * weight
          if d < t then some (n, rest)
          else decodeNumber? bias (place + 36) (weight * (36 - t)) n rest

/-- Insert characters until the digits are used up; each number takes at least one digit, so
`fuel` may be their count. -/
def decodeAll? : Nat → Nat → Nat → Nat → List Char → List Char → Option (List Char)
  | _, _, _, _, name, [] => some name
  | 0, _, _, _, _, _ :: _ => none
  | fuel + 1, point, position, bias, name, digits =>
      match decodeNumber? bias 36 1 position digits with
      | none => none
      | some (total, rest) =>
          let size := name.length + 1
          let point := point + total / size
          let index := total % size
          let bias := adapt (total - position) size (position = 0)
          if point < 0x110000 ∧ ¬(0xd800 ≤ point ∧ point < 0xe000) then
            decodeAll? fuel point (index + 1) bias
              (name.take index ++ Char.ofNat point :: name.drop index) rest
          else none

def decode? (text : List Char) : Option (List Char) :=
  let tail := (text.reverse.takeWhile (· ≠ '-')).reverse
  let head := text.take (text.length - tail.length - 1)
  decodeAll? tail.length 128 0 72 head tail

end TickHost.Url.Punycode
