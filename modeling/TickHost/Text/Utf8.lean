/-!
Text as bytes. `Utf8.encode` writes each character in its only well-formed way, `Utf8.decode?`
reads exactly what `encode` writes, and `Utf8.decodeLossy` reads anything, with one replacement
character for each longest part that could have begun a character.
-/

namespace TickHost.Utf8

abbrev Bytes := List UInt8

def encodeChar (c : Char) : Bytes :=
  let n := c.toNat
  if n < 0x80 then [UInt8.ofNat n]
  else if n < 0x800 then [UInt8.ofNat (0xc0 + n / 64), UInt8.ofNat (0x80 + n % 64)]
  else if n < 0x10000 then
    [UInt8.ofNat (0xe0 + n / 4096), UInt8.ofNat (0x80 + n / 64 % 64), UInt8.ofNat (0x80 + n % 64)]
  else
    [UInt8.ofNat (0xf0 + n / 262144), UInt8.ofNat (0x80 + n / 4096 % 64),
      UInt8.ofNat (0x80 + n / 64 % 64), UInt8.ofNat (0x80 + n % 64)]

def encode (text : List Char) : Bytes :=
  text.flatMap encodeChar

def ofString (s : String) : Bytes :=
  encode s.toList

/-- What a first byte announces: its part of the code point, and the ranges of the bytes that have
to follow. The narrow ranges keep out longer ways to write a character, and surrogates. -/
def announced? (b : Nat) : Option (Nat × List (Nat × Nat)) :=
  let more := (0x80, 0xbf)
  if b < 0x80 then some (b, [])
  else if 0xc2 ≤ b ∧ b ≤ 0xdf then some (b - 0xc0, [more])
  else if b = 0xe0 then some (b - 0xe0, [(0xa0, 0xbf), more])
  else if b = 0xed then some (b - 0xe0, [(0x80, 0x9f), more])
  else if 0xe1 ≤ b ∧ b ≤ 0xef then some (b - 0xe0, [more, more])
  else if b = 0xf0 then some (b - 0xf0, [(0x90, 0xbf), more, more])
  else if 0xf1 ≤ b ∧ b ≤ 0xf3 then some (b - 0xf0, [more, more, more])
  else if b = 0xf4 then some (b - 0xf0, [(0x80, 0x8f), more, more])
  else none

/-- Read the bytes that have to follow, up to the first that does not fit. -/
def follow (n : Nat) : List (Nat × Nat) → Bytes → Option Nat × Bytes
  | [], rest => (some n, rest)
  | _ :: _, [] => (none, [])
  | (low, high) :: ranges, b :: rest =>
      if low ≤ b.toNat ∧ b.toNat ≤ high then follow (n * 64 + b.toNat % 64) ranges rest
      else (none, b :: rest)

theorem follow_length (n : Nat) (ranges : List (Nat × Nat)) (bytes : Bytes) :
    (follow n ranges bytes).2.length ≤ bytes.length := by
  induction bytes generalizing n ranges with
  | nil => cases ranges <;> simp [follow]
  | cons b rest ih =>
      cases ranges with
      | nil => simp [follow]
      | cons range ranges =>
          simp only [follow]
          split
          · have := ih (n * 64 + b.toNat % 64) ranges
            simp only [List.length_cons]
            omega
          · simp

/-- The first character, if there is a whole one, and what comes after the bytes looked at. -/
def next (b : UInt8) (rest : Bytes) : Option Char × Bytes :=
  match announced? b.toNat with
  | none => (none, rest)
  | some (n, ranges) =>
      let (n, rest) := follow n ranges rest
      (n.map Char.ofNat, rest)

theorem next_length (b : UInt8) (rest : Bytes) : (next b rest).2.length ≤ rest.length := by
  unfold next
  split
  · simp
  · exact follow_length _ _ _

def decode? : Bytes → Option (List Char)
  | [] => some []
  | b :: rest =>
      match h : next b rest with
      | (none, _) => none
      | (some c, after) =>
          have : after.length < rest.length + 1 := by
            have := next_length b rest
            simp only [h] at this
            omega
          (decode? after).map (c :: ·)
termination_by bytes => bytes.length

def decodeLossy : Bytes → List Char
  | [] => []
  | b :: rest =>
      match h : next b rest with
      | (c, after) =>
          have : after.length < rest.length + 1 := by
            have := next_length b rest
            simp only [h] at this
            omega
          c.getD '\ufffd' :: decodeLossy after
termination_by bytes => bytes.length

end TickHost.Utf8
