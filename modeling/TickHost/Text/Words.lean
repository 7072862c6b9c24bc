/-!
Cutting text into lines, words and parts. A blank is any character of the Unicode property
`White_Space`, not only the ones of ASCII; a line ends at a line feed, which takes one carriage
return before it along.
-/

namespace TickHost.Text

def isBlank (c : Char) : Bool :=
  let n := c.toNat
  (9 ≤ n && n ≤ 13) || n == 0x20 || n == 0x85 || n == 0xa0 || n == 0x1680 ||
    (0x2000 ≤ n && n ≤ 0x200a) || n == 0x2028 || n == 0x2029 || n == 0x202f || n == 0x205f ||
    n == 0x3000

/-- The text without the blanks at both ends. -/
def trim (text : List Char) : List Char :=
  ((text.dropWhile isBlank).reverse.dropWhile isBlank).reverse

/-- The parts before and after the first `c`. -/
def splitFirst? (c : Char) : List Char → Option (List Char × List Char)
  | [] => none
  | x :: rest =>
      if x = c then some ([], rest)
      else (splitFirst? c rest).map fun (before, after) => (x :: before, after)

/-- The parts between the separators; one more than there are separators. -/
def splitWhere {α : Type} (isSeparator : α → Bool) : List α → List (List α)
  | [] => [[]]
  | x :: rest =>
      if isSeparator x then [] :: splitWhere isSeparator rest
      else match splitWhere isSeparator rest with
        | [] => [[x]]
        | part :: parts => (x :: part) :: parts

/-- The parts between the occurrences of `c`. -/
def splitEvery (c : Char) (text : List Char) : List (List Char) :=
  splitWhere (· == c) text

/-- The parts before and after the last `c`. -/
def splitLast? (c : Char) (text : List Char) : Option (List Char × List Char) :=
  (splitFirst? c text.reverse).map fun (after, before) => (before.reverse, after.reverse)

/-- The text without one carriage return at its end. -/
def dropReturn (line : List Char) : List Char :=
  if line.getLast? = some '\r' then line.dropLast else line

/-- The lines of a text. What follows the last line feed is a line of its own only if it is not
empty, and keeps a carriage return at its end. -/
def lines (text : List Char) : List (List Char) :=
  let parts := splitEvery '\n' text
  let ended := (parts.dropLast).map dropReturn
  match parts.getLast? with
  | some [] | none => ended
  | some last => ended ++ [last]

/-- The longest runs without a blank. -/
def words (text : List Char) : List (List Char) :=
  (text.splitBy fun a b => isBlank a == isBlank b).filter fun run => !run.all isBlank

/-- The part after the last `c`, the whole text if there is none. -/
def afterLast (c : Char) (text : List Char) : List Char :=
  (text.reverse.takeWhile (· != c)).reverse

end TickHost.Text
