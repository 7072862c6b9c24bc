import TickHost.Url.File
import TickHost.Url.Parser

/-!
What a reference in a script means. A reference that names its scheme stands for itself. Any other
is read against the parent, where one is set, or else against the origin of the script; a base
without a scheme is taken to be a local file, and its name is always that of the origin.
-/

namespace TickHost.Reference

/-- The URL that references are read against. An empty parent counts as none. -/
def base (parent : Option String) (origin : String) : Url :=
  let named := match parent with
    | some p => if p = "" then origin else p
    | none => origin
  (Url.parse? named).getD (Url.ofPathText origin)

def resolve? (reference : String) (parent : Option String) (origin : String) : Option Url :=
  match Url.parse? reference with
  | some url => some url
  | none => Url.join? (base parent origin) reference

end TickHost.Reference
