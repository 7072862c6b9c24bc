import TickHost.Text.Utf8

/-!
Percent encoding. Each part of a URL has its own set of characters that it may hold as they are;
every other byte, and every byte outside ASCII, is written as `%` and two digits. Decoding turns
each such triple back into its byte and leaves everything else alone, a stray `%` included.
-/

namespace TickHost.Url

open Utf8

/-- Printing characters of ASCII, the blank included; no part of a URL holds any others. -/
def isPlain (c : Char) : Bool :=
  0x20 ≤ c.toNat && c.toNat ≤ 0x7e

def keptInFragment (c : Char) : Bool :=
  isPlain c && !" \"<>\x60".toList.contains c

def keptInQuery (special : Bool) (c : Char) : Bool :=
  isPlain c && !" \"#<>".toList.contains c && !(special && c == '\x27')

def keptInPath (c : Char) : Bool :=
  keptInFragment c && !"#?\x7b\x7d".toList.contains c

/-- A path segment made from a file name keeps nothing that separates or escapes. -/
def keptInFileName (c : Char) : Bool :=
  keptInPath c && !"/%\\".toList.contains c

def keptInUserInfo (c : Char) : Bool :=
  keptInPath c && !"/:;=@[\\]^|".toList.contains c

def upperDigit (n : Nat) : Char :=
  Char.ofNat (if n < 10 then 48 + n else 55 + n)

def encodeByte (kept : Char → Bool) (b : UInt8) : List Char :=
  let c := Char.ofNat b.toNat
  if b.toNat < 0x80 && kept c then [c]
  else ['%', upperDigit (b.toNat / 16), upperDigit (b.toNat % 16)]

def percentEncodeBytes (kept : Char → Bool) (bytes : Bytes) : List Char :=
  bytes.flatMap (encodeByte kept)

def percentEncode (kept : Char → Bool) (text : List Char) : List Char :=
  percentEncodeBytes kept (encode text)

def hexDigit? (b : UInt8) : Option Nat :=
  let n := b.toNat
  if 48 ≤ n ∧ n ≤ 57 then some (n - 48)
  else if 65 ≤ n ∧ n ≤ 70 then some (n - 55)
  else if 97 ≤ n ∧ n ≤ 102 then some (n - 87)
  else none

def percentDecode : Bytes → Bytes
  | [] => []
  | b :: rest =>
      match b, rest with
      | 0x25, high :: low :: after =>
          match hexDigit? high, hexDigit? low with
          | some h, some l => UInt8.ofNat (16 * h + l) :: percentDecode after
          | _, _ => b :: percentDecode (high :: low :: after)
      | b, rest => b :: percentDecode rest

end TickHost.Url
