import TickHost.Decimal.Numeral
import TickHost.Text.Quoted

/-!
Values that scripts hand to their host: results of evaluations and arguments of callbacks. A
function is known to the host by its name alone; the host never looks inside it and only gives it
back to the script engine that it came from.
-/

namespace TickHost

open Binary

inductive Value where
  | undefined
  | null
  | bool (b : Bool)
  | number (x : Double)
  | text (s : String)
  | function (name : String)
deriving DecidableEq, Repr, Inhabited

namespace Value

def isUndefined : Value → Bool
  | undefined => true
  | _ => false

def number? : Value → Option Double
  | number x => some x
  | _ => none

def function? : Value → Option String
  | function name => some name
  | _ => none

def isFunction (v : Value) : Bool :=
  v.function?.isSome

/-- Whether two values are equal as scripts see it: numbers are compared as numbers. -/
def same : Value → Value → Bool
  | number x, number y => x.sameValue y
  | a, b => a == b

/-- The text a value is shown as. -/
def render : Value → String
  | undefined => "undefined"
  | null => "null"
  | bool b => if b then "true" else "false"
  | number x => x.render
  | text s => s
  | function name => "function " ++ name

/-- How a callback made from a script function is shown in diagnostics. -/
def describeCallback (name : String) : String :=
  "Script(FunctionRef(" ++ Text.quoted name ++ "))"

end Value

end TickHost
