import TickHost.Disk
import TickHost.Fault
import TickHost.Table
import TickHost.Url.File

/-!
Fetching source texts, a batch at a time. A batch is answered as a whole, with one result for each
distinct URL; a URL without a result was given up. Files are read from the disk, everything else
comes from a table of texts by URL.
-/

namespace TickHost

abbrev FetchResults := List (Url × Except LoadFault String)

namespace FetchResults

def get? (r : FetchResults) (url : Url) : Option (Except LoadFault String) :=
  r.lookup url

def put (r : FetchResults) (url : Url) (result : Except LoadFault String) : FetchResults :=
  r.filter (fun (u, _) => u ≠ url) ++ [(url, result)]

/-- The results of a batch whose URLs are looked up one by one. -/
def collect (find? : Url → Option (Except LoadFault String)) (urls : List Url) : FetchResults :=
  urls.foldl (fun r url =>
    match find? url with
    | some result => r.put url result
    | none => r) []

/-- Nothing was found, for one reason. -/
def refused (fault : Url → LoadFault) (urls : List Url) : FetchResults :=
  collect (fun url => some (.error (fault url))) urls

def cancelled : List Url → FetchResults :=
  refused fun url => .cancelled url.render

/-- The answer of a host that has no fetcher. -/
def unconfigured : List Url → FetchResults :=
  refused fun url => .io url.render "no fetcher configured"

end FetchResults

/-- Where the text of a file URL is on the disk. -/
def Url.filePath (url : Url) : Except LoadFault Utf8.Bytes :=
  if url.scheme ≠ "file" then .error (.unsupportedScheme url.scheme url.render)
  else
    match url.toPath? with
    | some path => .ok path
    | none => .error (.invalidUrl url.render)

def LoadFault.ofDisk (url : String) : DiskFault → LoadFault
  | .notFound => .notFound url
  | fault => .io url fault.render

def Disk.readUrl (d : Disk) (url : Url) : Except LoadFault String :=
  match url.filePath with
  | .error fault => .error fault
  | .ok path =>
      match d.readText path with
      | .ok text => .ok text
      | .error fault => .error (.ofDisk url.render fault)

/-- How a fetcher answers. -/
structure Fetcher where
  /-- Reads files, instead of the table. -/
  fromDisk : Bool
  /-- Leaves out what is missing, instead of saying so. -/
  partly : Bool
  /-- Gives every batch up without an answer. -/
  silent : Bool
  /-- Keeps a batch until it is told to answer, unless its caller waits. -/
  deferred : Bool
deriving DecidableEq, Repr, Inhabited

namespace Fetcher

def find? (f : Fetcher) (disk : Disk) (remote : Table String) (url : Url) :
    Option (Except LoadFault String) :=
  if f.fromDisk then some (disk.readUrl url)
  else
    match remote.get? url.render with
    | some text => some (.ok text)
    | none => if f.partly then none else some (.error (.notFound url.render))

def results (f : Fetcher) (disk : Disk) (remote : Table String) (urls : List Url) :
    FetchResults :=
  FetchResults.collect (f.find? disk remote) urls

/-- The answer to a caller that waits. -/
def resultsNow (f : Fetcher) (disk : Disk) (remote : Table String) (urls : List Url) :
    FetchResults :=
  if f.silent then FetchResults.cancelled urls else f.results disk remote urls

end Fetcher

end TickHost
