import TickHost.Path

/-!
A disk, as far as scripts and settings are read from it and settings are written to it. Every
place is given by its names from the root. A path is followed name by name: each step needs a
directory to start from, and two dots lead back to the directory above.
-/

namespace TickHost

open Utf8

inductive DiskFault where
  | notFound
  | notDirectory
  | isDirectory
  | nameTooLong
  | notText
  | nulInPath
deriving DecidableEq, Repr

def DiskFault.render : DiskFault → String
  | notFound => "No such file or directory (os error 2)"
  | notDirectory => "Not a directory (os error 20)"
  | isDirectory => "Is a directory (os error 21)"
  | nameTooLong => "File name too long (os error 36)"
  | notText => "stream did not contain valid UTF-8"
  | nulInPath => "file name contained an unexpected NUL byte"

inductive DiskEntry where
  | file (content : Bytes)
  | directory
deriving DecidableEq, Repr

structure Disk where
  entries : List (List Bytes × DiskEntry)
deriving Repr, Inhabited

namespace Disk

def empty : Disk := ⟨[]⟩

/-- The longest name of an entry. -/
def nameLimit : Nat := 255

/-- The longest path, with the zero byte that ends it. -/
def pathLimit : Nat := 4096

/-- What is at a place. The root is always there. -/
def at? (d : Disk) (place : List Bytes) : Option DiskEntry :=
  if place.isEmpty then some .directory else d.entries.lookup place

def put (d : Disk) (place : List Bytes) (entry : DiskEntry) : Disk :=
  ⟨(place, entry) :: d.entries.filter fun (p, _) => p ≠ place⟩

/-- Follow names from a place. -/
def walk (d : Disk) : List Bytes → List Bytes → Except DiskFault (List Bytes × DiskEntry)
  | place, [] =>
      match d.at? place with
      | some entry => .ok (place, entry)
      | none => .error .notFound
  | place, name :: rest =>
      match d.at? place with
      | none => .error .notFound
      | some (.file _) => .error .notDirectory
      | some .directory =>
          if nameLimit < name.length then .error .nameTooLong
          else if name = Path.dotDot then walk d place.dropLast rest
          else walk d (place ++ [name]) rest

/-- Why no disk takes a path, whatever there is. -/
def pathFault? (path : Bytes) : Option DiskFault :=
  if path.contains 0 then some .nulInPath
  else if path.isEmpty then some .notFound
  else if pathLimit ≤ path.length then some .nameTooLong
  else none

/-- What a path leads to. -/
def find (d : Disk) (path : Bytes) : Except DiskFault DiskEntry :=
  match pathFault? path with
  | some fault => .error fault
  | none =>
      match d.walk [] (Path.names path) with
      | .error fault => .error fault
      | .ok (_, .directory) => .ok .directory
      | .ok (_, .file content) =>
          if Path.endsAsDirectory path then .error .notDirectory else .ok (.file content)

def has (d : Disk) (path : Bytes) : Bool :=
  (d.find path).toOption.isSome

def readText (d : Disk) (path : Bytes) : Except DiskFault String :=
  match d.find path with
  | .error fault => .error fault
  | .ok .directory => .error .isDirectory
  | .ok (.file content) =>
      match decode? content with
      | some text => .ok (String.ofList text)
      | none => .error .notText

/-- Make the directories that are missing on the way. Where the way is blocked, those before stay. -/
def makeWay : List Bytes → List Bytes → Disk → Disk × Option DiskFault
  | _, [], d => (d, none)
  | place, name :: rest, d =>
      if nameLimit < name.length then (d, some .nameTooLong)
      else if name = Path.dotDot then makeWay place.dropLast rest d
      else
        match d.at? (place ++ [name]) with
        | some .directory => makeWay (place ++ [name]) rest d
        | some (.file _) => (d, some .notDirectory)
        | none => makeWay (place ++ [name]) rest (d.put (place ++ [name]) .directory)

/-- Make the directories that are missing on the way, or none. -/
def makeDirectories (place names : List Bytes) (d : Disk) : Except DiskFault Disk :=
  match makeWay place names d with
  | (d, none) => .ok d
  | (_, some fault) => .error fault

/-- Write a file into a directory that exists, in place of the old one. -/
def write (d : Disk) (path content : Bytes) : Except DiskFault Disk :=
  let names := Path.names path
  match pathFault? path, names.getLast? with
  | some fault, _ => .error fault
  | none, none => .error .isDirectory
  | none, some name =>
      match d.walk [] names.dropLast with
      | .error fault => .error fault
      | .ok (_, .file _) => .error .notDirectory
      | .ok (place, .directory) =>
          if nameLimit < name.length then .error .nameTooLong
          else if name = Path.dotDot || Path.endsAsDirectory path then .error .isDirectory
          else
            match d.at? (place ++ [name]) with
            | some .directory => .error .isDirectory
            | _ => .ok (d.put (place ++ [name]) (.file content))

/-- Make the directories that lead to a path. -/
def makeParents (d : Disk) (path : Bytes) : Disk × Option DiskFault :=
  let lead := Path.lead path
  if lead.isEmpty then (d, none)
  else
    match pathFault? lead with
    | some fault => (d, some fault)
    | none => makeWay [] (Path.names lead) d

end Disk

end TickHost
