import TickHost.Directories
import TickHost.Disk
import TickHost.Settings
import TickHost.Toml.Parser
import TickHost.Url.Parser

/-!
The settings of the program, as its file holds them. Every setting may be left out and has a usual
value then; settings that mean nothing to the program are passed over. A table of settings may also
be given as an array of its values in their order. Writing puts the settings in a fixed order under
two headers.
-/

namespace TickHost

open Toml (Node)

structure ScriptSettings where
  /-- Where relative names of scripts are looked up. -/
  directory : Option String
  /-- Scripts to start, as URLs or paths. -/
  autoload : List String
deriving DecidableEq, Repr, Inhabited

structure Config where
  host : HostSettings
  scripts : ScriptSettings
deriving DecidableEq, Repr, Inhabited

inductive ConfigFault where
  | notFound
  | noDirectory
  | malformed
  | unreadable (reason : String)
deriving DecidableEq, Repr

namespace ConfigFault

def render : ConfigFault → String
  | notFound => "Config file not found"
  | noDirectory => "Could not determine config directory"
  | malformed => "Failed to parse config"
  | unreadable reason => "IO error reading config: " ++ reason

end ConfigFault

/-! Reading. -/

namespace Config

/-- A setting that is a whole number below a limit. -/
def number? (limit : Nat) (usual : Nat) : Option Node → Option Nat
  | none => some usual
  | some (.integer n) => if 0 ≤ n ∧ n < limit then some n.toNat else none
  | some _ => none

def text? : Node → Option String
  | .text s => some s
  | _ => none

/-- The setting of a name, which comes in an array at its own place. A moment counts as a table
that says nothing about settings. -/
def setting? (node : Node) (name : String) (place : Nat) : Option (Option Node) :=
  match node with
  | .table _ entries => some (entries.lookup name)
  | .moment _ => some none
  | .array items => some items[place]?
  | .tables items => some (items[place]?.map (Node.table .headed))
  | _ => none

def host? : Option Node → Option HostSettings
  | none => some .standard
  | some node => do
      let usual := HostSettings.standard
      let tick ← number? (Nat.pow 2 64) usual.tickInterval (← setting? node "tick_interval_us" 0)
      let rate ← number? (Nat.pow 2 32) usual.sampleRate (← setting? node "sample_rate" 1)
      let identity ← number? (Nat.pow 2 64) usual.identityInterval
        (← setting? node "identity_packet_interval_ms" 2)
      let billboard ← number? (Nat.pow 2 64) usual.billboardInterval
        (← setting? node "billboard_packet_interval_ms" 3)
      let capacity ← number? (Nat.pow 2 64) usual.eventCapacity (← setting? node "event_capacity" 4)
      some ⟨tick, rate, identity, billboard, capacity⟩

def directory? : Option Node → Option (Option String)
  | none => some none
  | some node => (text? node).map some

def autoload? : Option Node → Option (List String)
  | none => some []
  | some (.array items) => items.mapM text?
  | some _ => none

def scripts? : Option Node → Option ScriptSettings
  | none => some default
  | some node => do
      let directory ← directory? (← setting? node "script_dir" 0)
      let autoload ← autoload? (← setting? node "autoload" 1)
      some ⟨directory, autoload⟩

def ofTable? (t : Table Node) : Option Config := do
  let host ← host? (t.get? "host")
  let scripts ← scripts? (t.get? "scripts")
  some ⟨host, scripts⟩

def read (text : String) : Except ConfigFault Config :=
  match (Toml.parse? text).bind ofTable? with
  | some config => .ok config
  | none => .error .malformed

/-- The settings in a file. Whatever cannot be reached counts as missing. -/
def loadFrom (d : Disk) (path : Utf8.Bytes) : Except ConfigFault Config :=
  if d.has path then
    match d.readText path with
    | .ok text => read text
    | .error fault => .error (.unreadable fault.render)
  else .error .notFound

/-- `loadFrom` for paths that are text. -/
def load (d : Disk) (path : String) : Except ConfigFault Config :=
  loadFrom d (Utf8.ofString path)

/-! Writing. -/

/-- The largest number that can be written. -/
def numberLimit : Nat := Nat.pow 2 63 - 1

def numbers (s : HostSettings) : List (String × Nat) :=
  [("tick_interval_us", s.tickInterval), ("sample_rate", s.sampleRate),
    ("identity_packet_interval_ms", s.identityInterval),
    ("billboard_packet_interval_ms", s.billboardInterval), ("event_capacity", s.eventCapacity)]

def quoted (text : String) : String :=
  String.ofList (Toml.quote text.toList)

/-- A list of texts: one in a line, except that a single text stays on the line of its key. -/
def renderList : List String → String
  | [] => "[]"
  | [text] => "[" ++ quoted text ++ "]"
  | texts => "[\n" ++ String.join (texts.map fun text => "    " ++ quoted text ++ ",\n") ++ "]"

def renderText (c : Config) : String :=
  let directory := match c.scripts.directory with
    | some path => "script_dir = " ++ quoted path ++ "\n"
    | none => ""
  "[host]\n" ++
    String.join ((numbers c.host).map fun (name, n) => name ++ " = " ++ toString n ++ "\n") ++
    "\n[scripts]\n" ++ directory ++ "autoload = " ++ renderList c.scripts.autoload ++ "\n"

/-- The text of the settings, if all numbers can be written. -/
def render? (c : Config) : Option String :=
  if (numbers c.host).all fun (_, n) => n ≤ numberLimit then some c.renderText else none

/-- Write the settings to a file, and say whether it worked. The directories on the way are made
first, and stay even if the settings cannot be written. -/
def saveTo (c : Config) (d : Disk) (path : Utf8.Bytes) : Bool × Disk :=
  match d.makeParents path with
  | (d, some _) => (false, d)
  | (d, none) =>
      match c.render? with
      | none => (false, d)
      | some text =>
          match d.write path (Utf8.ofString text) with
          | .ok d => (true, d)
          | .error _ => (false, d)

/-- `saveTo` for paths that are text. -/
def save (c : Config) (d : Disk) (path : String) : Bool × Disk :=
  c.saveTo d (Utf8.ofString path)

/-! Scripts. -/

def scriptDirectory (c : Config) (e : Environment) : String :=
  c.scripts.directory.getD e.scriptDirectory

/-- Where a script to be started is. URLs and absolute paths say it themselves; a scheme of one
letter is the drive of a path. -/
def autoloadPath (c : Config) (e : Environment) (entry : String) : String :=
  let hasScheme := (Url.parse? entry).any fun url => 1 < url.scheme.length
  if hasScheme || Path.isAbsolute (Utf8.ofString entry) then entry
  else Path.joinText (c.scriptDirectory e) entry

def autoloadPaths (c : Config) (e : Environment) : List String :=
  c.scripts.autoload.map (c.autoloadPath e)

end Config

end TickHost
