import TickHost.Decimal.Numeral
import TickHost.Text.Words
import TickHost.Value

/-!
The directive language, a small language for exercising hosts. A program is a list of lines; blank
lines and lines that start with two slashes say nothing, and every other line is one directive:
its name, and after the first blank what it applies to.
-/

namespace TickHost

open Text

inductive Directive where
  | print (text : String)
  | includeAll (references : List String)
  | load (reference : String)
  /-- Run another directive in every interval of so many milliseconds. -/
  | every (milliseconds : Nat) (action : String)
  /-- Run another directive once, so many milliseconds later. -/
  | after (milliseconds : Nat) (action : String)
  | avatar (on : Bool)
  | stop
  /-- The value of the program so far. -/
  | value (v : Value)
  | throw (message : String)
deriving DecidableEq, Repr

namespace Directive

/-- The longest delay that can be written. -/
def delayLimit : Nat := Nat.pow 2 64

/-- A delay in digits, with a plus in front if one likes. -/
def delay? (text : List Char) : Option Nat :=
  (Decimal.natural? text).filter fun n => n < delayLimit

/-- What a timed directive applies to. -/
def timed (name : String) (rest : List Char) (make : Nat → String → Directive) :
    Except String Directive :=
  match splitFirst? ' ' rest with
  | none => .error ("SyntaxError: " ++ name ++ " needs a delay and a directive")
  | some (delay, action) =>
      match delay? delay with
      | some n => .ok (make n (String.ofList (trim action)))
      | none => .error ("TypeError: '" ++ String.ofList delay ++ "' is not a delay in ms")

/-- A number, or else the text itself. -/
def valueOf (text : String) : Value :=
  match Binary.Double.read? text with
  | some x => .number x
  | none => .text text

/-- Read one line, or say what is wrong with it. -/
def read (line : List Char) : Except String Directive :=
  let (name, rest) := (splitFirst? ' ' line).getD (line, [])
  let rest := trim rest
  let text := String.ofList rest
  match String.ofList name with
  | "print" => .ok (print text)
  | "include" => .ok (includeAll ((words rest).map String.ofList))
  | "load" => .ok (load text)
  | "every" => timed "every" rest every
  | "after" => timed "after" rest after
  | "avatar" => .ok (avatar (text == "on"))
  | "stop" => .ok stop
  | "value" => .ok (value (valueOf text))
  | "throw" => .ok (throw text)
  | other => .error ("SyntaxError: unknown directive '" ++ other ++ "'")

/-- Whether a line without blanks at its ends is a directive. -/
def isSpoken (line : List Char) : Bool :=
  !line.isEmpty && !("//".toList.isPrefixOf line)

/-- Line numbers are counted in 32 bits. -/
def lineNumber (start offset : Nat) : Nat :=
  (start + offset) % Nat.pow 2 32

/-- The directives of a program with the numbers of their lines. -/
def linesOf (program : String) (start : Nat) : List (Nat × List Char) :=
  (((lines program.toList).map trim).zipIdx.filter fun (line, _) => isSpoken line).map
    fun (line, offset) => (lineNumber start offset, line)

end Directive

end TickHost
