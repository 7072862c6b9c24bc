import TickHost.Path
import TickHost.Url.Basic
import TickHost.Url.Percent

/-!
File URLs of paths. `Url.ofPath` writes one segment for each name of a path, with everything
encoded that means something in a URL; `Url.toPath?` decodes the segments again. A path that ends
in a letter and a colon is taken for a drive, which always ends in a slash.
-/

namespace TickHost.Url

open Utf8

/-- The URL of a local path; a relative one starts at the root. -/
def ofPath (path : Bytes) : Url :=
  let parts := (Path.names path).map fun name =>
    String.ofList (percentEncodeBytes keptInFileName name)
  ⟨"file", some (.ofHost ""), .segments (if parts.isEmpty then [""] else parts), none, none⟩

def ofPathText (path : String) : Url :=
  ofPath (ofString path)

/-- Whether a path ends like a drive. -/
def endsAsDrive (path : Bytes) : Bool :=
  match path.reverse with
  | mark :: letter :: _ :: _ =>
      (mark = 0x3a || mark = 0x7c) && (Char.ofNat letter.toNat).isAlpha
  | _ => false

/-- The local path that a URL means, if it has no host but this machine. -/
def toPath? (u : Url) : Option Bytes :=
  match u.path with
  | .bare _ => none
  | .segments parts =>
      if u.host? = none ∨ u.host? = some "" ∨ u.host? = some "localhost" then
        let path := parts.flatMap fun part => Path.slash :: percentDecode (ofString part)
        some (if endsAsDrive path then path ++ [Path.slash] else path)
      else none

end TickHost.Url
