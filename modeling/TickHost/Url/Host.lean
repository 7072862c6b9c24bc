import TickHost.Text.Words
import TickHost.Url.Percent
import TickHost.Url.Punycode

/-!
Hosts of URLs. A host in brackets is an address of sixteen bytes; the host of a special scheme is
a domain name, or an address of four bytes if its last part is a number; any other host is kept as
it is written. Names are lowered, and parts outside ASCII are written in Punycode. Folding of
characters is limited to the letters that have a lower case at a fixed distance.
-/

namespace TickHost.Url

open Utf8 Text

/-! Addresses of four bytes. -/

/-- The digits of a number as the standard reads it: `0x` for sixteen, `0` for eight. -/
def addressNumber? (part : List Char) : Option (Option Nat) :=
  let (radix, digits) := match part with
    | '0' :: 'x' :: rest | '0' :: 'X' :: rest => (16, rest)
    | '0' :: c :: rest => (8, c :: rest)
    | rest => (10, rest)
  if part.isEmpty then none
  else
    let value := digits.foldlM (fun n c =>
      (hexDigit? (UInt8.ofNat c.toNat)).bind fun d =>
        if d < radix ∧ c.toNat < 128 then some (n * radix + d) else none) 0
    value.map fun n => if n < Nat.pow 2 32 then some n else none

/-- The parts of a domain, without an empty one at the end. -/
def domainParts (domain : List Char) : List (List Char) :=
  let parts := splitEvery '.' domain
  if 1 < parts.length ∧ parts.getLast? = some [] then parts.dropLast else parts

def endsInNumber (domain : List Char) : Bool :=
  match (domainParts domain).getLast? with
  | none | some [] => false
  | some last => last.all Char.isDigit || (addressNumber? last).isSome

def renderAddress4 (n : Nat) : String :=
  String.intercalate "." ([24, 16, 8, 0].map fun place => toString (n / Nat.pow 2 place % 256))

/-- The last number fills all bytes that the numbers before it leave. -/
def address4? (domain : List Char) : Option String :=
  let parts := domainParts domain
  if 4 < parts.length then none
  else do
    let numbers ← parts.mapM fun part => (addressNumber? part).bind id
    let last ← numbers.getLast?
    let leading := numbers.dropLast
    if Nat.pow 2 (8 * (4 - leading.length)) ≤ last ∨ leading.any (255 < ·) then none
    else
      let high := leading.zipIdx.foldl (fun sum (n, i) => sum + n * Nat.pow 2 (8 * (3 - i))) 0
      some (renderAddress4 (high + last))

/-! Addresses of sixteen bytes. -/

/-- A piece of one to four digits. -/
def addressPiece? (text : List Char) : Option Nat :=
  if text.isEmpty || 4 < text.length then none
  else text.foldlM (fun n c =>
    if c.toNat < 128 then (hexDigit? (UInt8.ofNat c.toNat)).map (16 * n + ·) else none) 0

/-- One of the four numbers in an address of four bytes at the end. -/
def addressByte? (text : List Char) : Option Nat :=
  if text.isEmpty || 3 < text.length || !text.all Char.isDigit then none
  else if text.head? = some '0' ∧ text.length ≠ 1 then none
  else
    let n := text.foldl (fun n c => 10 * n + (c.toNat - 48)) 0
    if n < 256 then some n else none

def embedded4? (text : List Char) : Option (List Nat) :=
  match (splitEvery '.' text).mapM addressByte? with
  | some [a, b, c, d] => some [a * 256 + b, c * 256 + d]
  | _ => none

/-- The pieces of a run between colons, of which the last may be an address of four bytes. -/
def addressPieces? (allowEmbedded : Bool) (text : List Char) : Option (List Nat) :=
  if text.isEmpty then some []
  else
    let groups := splitEvery ':' text
    let last := (groups.getLast?).getD []
    if allowEmbedded ∧ last.contains '.' then do
      let leading ← groups.dropLast.mapM addressPiece?
      let tail ← embedded4? last
      some (leading ++ tail)
    else groups.mapM addressPiece?

/-- The texts before and after the first double colon. -/
def splitGap? : List Char → Option (List Char × List Char)
  | ':' :: ':' :: rest => some ([], rest)
  | c :: rest => (splitGap? rest).map fun (before, after) => (c :: before, after)
  | [] => none

def address6? (text : List Char) : Option (List Nat) :=
  match splitGap? text with
  | none => do
      let pieces ← addressPieces? true text
      if pieces.length = 8 then some pieces else none
  | some (before, after) => do
      let left ← addressPieces? false before
      let right ← addressPieces? true after
      let known := left.length + right.length
      if known ≤ 7 then some (left ++ List.replicate (8 - known) 0 ++ right) else none

/-- The start and length of the first longest run of at least two zeros. -/
def longestGap (pieces : List Nat) : Option (Nat × Nat) :=
  let runs := (List.range pieces.length).map fun i =>
    (i, ((pieces.drop i).takeWhile (· == 0)).length)
  runs.foldl (fun best (start, size) =>
    if size < 2 then best
    else match best with
      | some (_, longest) => if longest < size then some (start, size) else best
      | none => some (start, size)) none

def renderAddress6 (pieces : List Nat) : String :=
  let show16 := fun (part : List Nat) =>
    String.intercalate ":" (part.map fun n => String.ofList (Nat.toDigits 16 n))
  let body := match longestGap pieces with
    | none => show16 pieces
    | some (start, size) =>
        show16 (pieces.take start) ++ "::" ++ show16 (pieces.drop (start + size))
  "[" ++ body ++ "]"

/-! Names. -/

def isForbiddenInHost (c : Char) : Bool :=
  "\x00\t\n\r #/:<>?@[\\]^|".toList.contains c

def isForbiddenInDomain (c : Char) : Bool :=
  isForbiddenInHost c || c.toNat < 0x20 || c == '%' || c.toNat == 0x7f

/-- Lower case, where it lies at a fixed distance: Latin, Greek, Cyrillic and full-width letters. -/
def foldChar (c : Char) : Char :=
  let n := c.toNat
  let lowered :=
    if 0x41 ≤ n ∧ n ≤ 0x5a then n + 32
    else if 0xc0 ≤ n ∧ n ≤ 0xde ∧ n ≠ 0xd7 then n + 32
    else if 0x100 ≤ n ∧ n ≤ 0x137 ∧ n ≠ 0x130 ∧ n % 2 = 0 then n + 1
    else if 0x14a ≤ n ∧ n ≤ 0x177 ∧ n % 2 = 0 then n + 1
    else if 0x391 ≤ n ∧ n ≤ 0x3ab then n + 32
    else if 0x400 ≤ n ∧ n ≤ 0x40f then n + 80
    else if 0x410 ≤ n ∧ n ≤ 0x42f then n + 32
    else if 0xff01 ≤ n ∧ n ≤ 0xff20 then n - 0xfee0
    else if 0xff21 ≤ n ∧ n ≤ 0xff3a then n - 0xfec0
    else if 0xff3b ≤ n ∧ n ≤ 0xff5e then n - 0xfee0
    else if n = 0x3002 then 0x2e
    else n
  Char.ofNat lowered

/-- A part of a name in ASCII. A part that claims to be Punycode has to be what encoding its
decoded form gives. -/
def asciiLabel? (label : List Char) : Option (List Char) :=
  if label.any fun c => 128 ≤ c.toNat then
    some ("xn--".toList ++ Punycode.encode label)
  else
    match label with
    | 'x' :: 'n' :: '-' :: '-' :: rest =>
        match Punycode.decode? rest with
        | some name =>
            if name.any (fun c => 128 ≤ c.toNat) ∧ Punycode.encode name = rest then some label
            else none
        | none => none
    | label => some label

def domainToAscii? (name : List Char) : Option (List Char) := do
  let folded := (name.filter (· ≠ '\xad')).map foldChar
  let labels ← (splitEvery '.' folded).mapM asciiLabel?
  let domain := List.intercalate ['.'] labels
  if domain.any isForbiddenInDomain then none else some domain

def bracketed? (text : List Char) : Option String :=
  if text.getLast? = some ']' then (address6? (text.drop 1).dropLast).map renderAddress6
  else none

/-- The host of a special scheme. -/
def specialHost? (text : List Char) : Option String :=
  if text.head? = some '[' then bracketed? text
  else do
    let domain ← domainToAscii? (decodeLossy (percentDecode (encode text)))
    if domain.isEmpty then none
    else if endsInNumber domain then address4? domain
    else some (String.ofList domain)

/-- The host of any other scheme, which may be empty. -/
def otherHost? (text : List Char) : Option String :=
  if text.head? = some '[' then bracketed? text
  else if text.any isForbiddenInHost then none
  else some (String.ofList (percentEncode isPlain text))

end TickHost.Url
