import TickHost.Text.Utf8
import TickHost.Text.Words

/-!
Paths on disk. A path is a row of bytes, which need not be text; its names are the parts between
the slashes, without empty ones and without the dot that means the place itself. Relative paths
start at the root, since that is where the program runs.
-/

namespace TickHost.Path

open Utf8

def slash : UInt8 := 0x2f

def dot : Bytes := [0x2e]

def dotDot : Bytes := [0x2e, 0x2e]

def isAbsolute (path : Bytes) : Bool :=
  path.head? = some slash

def names (path : Bytes) : List Bytes :=
  (Text.splitWhere (· == slash) path).filter fun name => name ≠ [] ∧ name ≠ dot

/-- Whether a path can only mean a directory, by the way it ends. -/
def endsAsDirectory (path : Bytes) : Bool :=
  match (Text.splitWhere (· == slash) path).getLast? with
  | some name => name = [] || name = dot
  | none => false

/-- The second path read from the first one. -/
def join (base path : Bytes) : Bytes :=
  if isAbsolute path || base = [] then path
  else if base.getLast? = some slash then base ++ path
  else base ++ slash :: path

/-- The path without its last name; a path without a name has no parent. -/
def parent? (path : Bytes) : Option Bytes :=
  let here := if !isAbsolute path && (Text.splitWhere (· == slash) path).head? = some dot
    then [dot] else []
  let names := here ++ names path
  if names.isEmpty then none
  else
    let root := if isAbsolute path then [slash] else []
    some (root ++ [slash].intercalate names.dropLast)

/-- What leads to the last name of a path, as it is written. -/
def lead (path : Bytes) : Bytes :=
  let dropVoid := fun (parts : List Bytes) => parts.dropWhile fun name => name = [] ∨ name = dot
  let parts := (Text.splitWhere (· == slash) path).reverse
  [slash].intercalate (dropVoid (dropVoid parts).tail).reverse

/-- `join` for paths that are text. -/
def joinText (base path : String) : String :=
  String.ofList (decodeLossy (join (ofString base) (ofString path)))

end TickHost.Path
