import TickHost.Value

/-!
Values in tagged form, the shape in which they leave the process. A case without content is its
bare name, any other case is an object of one member named for the case. Functions have no tagged
form and are refused in both directions.
-/

namespace TickHost

open Binary

/-- Plain structured data, as a document format delivers it. -/
inductive Datum where
  | null
  | bool (b : Bool)
  | number (x : Double)
  | text (s : String)
  | array (items : List Datum)
  | object (members : List (String × Datum))
deriving Repr, Inhabited

namespace Value

def toTagged? : Value → Option Datum
  | undefined => some (.text "Undefined")
  | null => some (.text "Null")
  | bool b => some (.object [("Bool", .bool b)])
  | number x => some (.object [("Number", .number x)])
  | text s => some (.object [("String", .text s)])
  | function _ => none

/-- A case without content may also be written as an object whose one member is null. -/
def ofTagged? : Datum → Option Value
  | .text "Undefined" => some undefined
  | .text "Null" => some null
  | .object [("Undefined", .null)] => some undefined
  | .object [("Null", .null)] => some null
  | .object [("Bool", .bool b)] => some (bool b)
  | .object [("Number", .number x)] => some (number x)
  | .object [("String", .text s)] => some (text s)
  | _ => none

/-- What leaves as tagged data comes back as the same value. -/
theorem ofTagged?_toTagged? {v : Value} {d : Datum} (h : v.toTagged? = some d) :
    ofTagged? d = some v := by
  cases v <;> simp [toTagged?] at h <;> subst h <;> rfl

end Value

end TickHost
