import TickHost.Binary.Number
import TickHost.Table

/-!
What a TOML document says. A document is a table, and its tables come about in different ways,
which decide what may be added to them later: a table under a header is complete with its section,
one that a header only passes through may still get a header of its own, one made by a dotted key
takes more dotted keys, and a table in braces is closed.
-/

namespace TickHost.Toml

open Binary

inductive TableKind where
  /-- Written in braces. -/
  | closed
  | headed
  /-- On the way to the table of a header. -/
  | passed
  | dotted
deriving DecidableEq, Repr

inductive Node where
  | text (s : String)
  | integer (n : Int)
  | float (x : Double)
  | boolean (b : Bool)
  /-- A date, a time or both, as it is written. -/
  | moment (s : String)
  | array (items : List Node)
  | table (kind : TableKind) (entries : List (String × Node))
  /-- A table for each header in double brackets. -/
  | tables (items : List (List (String × Node)))
deriving Repr, Inhabited

/-- Change the table that a path leads to, making the tables that are missing. A dotted key does
not lead into the table of a header. -/
def alter (isDotted : Bool) (change : TableKind → Table Node → Option (Table Node)) :
    List String → TableKind → Table Node → Option (Table Node)
  | [], kind, t => change kind t
  | key :: path, _, t =>
      match t.get? key with
      | none =>
          let kind := if isDotted then TableKind.dotted else .passed
          (alter isDotted change path kind []).map fun inner => t.put key (.table kind inner)
      | some (.table kind inner) =>
          if kind = .closed ∨ (isDotted ∧ kind = .headed) then none
          else (alter isDotted change path kind inner).map fun inner =>
            t.put key (.table kind inner)
      | some (.tables items) =>
          (alter isDotted change path .headed (items.getLast?.getD [])).map fun last =>
            t.put key (.tables (items.dropLast ++ [last]))
      | some _ => none

/-- Add a value under a dotted key. No key is given twice, and the tables of a dotted key are of
its own making. -/
def addPair (kind : TableKind) (t : Table Node) (path : List String) (value : Node) :
    Option (Table Node) :=
  match path.getLast? with
  | none => none
  | some key =>
      let way := path.dropLast
      alter true (fun kind t =>
        if (way ≠ [] ∧ kind ≠ .dotted) ∨ t.has key then none else some (t.put key value)) way kind t

def addPairs (kind : TableKind) (t : Table Node) (pairs : List (List String × Node)) :
    Option (Table Node) :=
  pairs.foldlM (fun t (path, value) => addPair kind t path value) t

/-- A header with the pairs that follow it. -/
structure Section where
  path : List String
  /-- Whether the header is in double brackets. -/
  isArray : Bool
  pairs : List (List String × Node)

/-- Add a section. A header in single brackets is not repeated. -/
def addSection (root : Table Node) (s : Section) : Option (Table Node) :=
  match s.path.getLast? with
  | none => none
  | some key =>
      alter false (fun _ t =>
        match s.isArray, t.get? key with
        | true, none => (addPairs .headed [] s.pairs).map fun new => t.put key (.tables [new])
        | true, some (.tables items) =>
            (addPairs .headed [] s.pairs).map fun new => t.put key (.tables (items ++ [new]))
        | true, some _ => none
        | false, none =>
            (addPairs .headed [] s.pairs).map fun new => t.put key (.table .headed new)
        | false, some (.table .passed inner) =>
            (addPairs .headed inner s.pairs).map fun new => t.put key (.table .headed new)
        | false, some _ => none) s.path.dropLast .headed root

/-- The table of a document: the pairs before the first header, and the sections. -/
def assemble? (pairs : List (List String × Node)) (sections : List Section) :
    Option (Table Node) := do
  let root ← addPairs .headed [] pairs
  sections.foldlM addSection root

end TickHost.Toml
