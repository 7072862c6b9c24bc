import TickHost.Config

/-!
What a soak run is asked to do. A soak run starts several hosts for each of its scripts, lets them
tick for a while and stops them all. Its arguments are parameters with values, and switches; each
may be given once, except that there may be any number of scripts.
-/

namespace TickHost.Soak

structure Arguments where
  scripts : List String
  /-- Hosts for each script. -/
  copies : Nat
  /-- Seconds until all are stopped; zero waits for an interrupt. -/
  duration : Nat
  /-- Microseconds from one tick to the next, instead of what the settings say. -/
  tickInterval : Option Nat
  /-- A file of settings, instead of the usual one. -/
  configPath : Option String
  /-- Seconds between two lines of statistics. -/
  statsInterval : Nat
  /-- Whether to keep a log in the data directory. -/
  logFile : Bool
  /-- Whether to show every printed message. -/
  verbose : Bool
deriving DecidableEq, Repr

inductive Parameter where
  | scripts
  | copies
  | duration
  | tickInterval
  | config
  | statsInterval
  | logFile
  | verbose
  | help
deriving DecidableEq, Repr

inductive UsageFault where
  /-- Help was asked for. -/
  | help
  /-- No parameter has this name. -/
  | unknown
  /-- A value is missing or empty. -/
  | missing
  /-- A value is no such number. -/
  | malformed
  | repeated
  /-- A value was given to a switch. -/
  | unneeded
deriving DecidableEq, Repr

def UsageFault.render : UsageFault → String
  | help => "cadence-soak [--copies N] [--duration SECONDS] [--tick-us N] [--config FILE] " ++
      "[--stats-interval SECONDS] [--log-file] [--verbose] [--help] [SCRIPT]..."
  | unknown => "error: there is no such argument"
  | missing => "error: an argument needs a value"
  | malformed => "error: a value is not such a number"
  | repeated => "error: an argument was given twice"
  | unneeded => "error: an argument takes no value"

namespace Parameter

def ofName? : String → Option Parameter
  | "copies" => some copies
  | "duration" => some duration
  | "tick-us" => some tickInterval
  | "config" => some config
  | "stats-interval" => some statsInterval
  | "log-file" => some logFile
  | "verbose" => some verbose
  | "help" => some help
  | _ => none

def ofLetter? : Char → Option Parameter
  | 'c' => some copies
  | 'd' => some duration
  | 'v' => some verbose
  | 'h' => some help
  | _ => none

def takesValue : Parameter → Bool
  | logFile | verbose | help => false
  | _ => true

end Parameter

namespace Arguments

def usual : Arguments := ⟨[], 4, 10, none, none, 5, false, false⟩

/-- A number of 64 bits. -/
def long? (text : String) : Except UsageFault Nat :=
  match Decimal.natural? text.toList with
  | some n => if n < Nat.pow 2 64 then .ok n else .error .malformed
  | none => .error .malformed

/-- A number of 32 bits. It is read as a signed number first, so that a minus may stand before a
zero. -/
def short? (text : String) : Except UsageFault Nat :=
  match Decimal.integer? text.toList with
  | some n => if 0 ≤ n ∧ n < Nat.pow 2 32 then .ok n.toNat else .error .malformed
  | none => .error .malformed

def path? (text : String) : Except UsageFault String :=
  if text.isEmpty then .error .missing else .ok text

/-- Take a value for a parameter. -/
def set (a : Arguments) (p : Parameter) (text : String) : Except UsageFault Arguments :=
  match p with
  | .scripts => (path? text).map fun path => { a with scripts := a.scripts ++ [path] }
  | .copies => (short? text).map fun n => { a with copies := n }
  | .duration => (long? text).map fun n => { a with duration := n }
  | .tickInterval => (long? text).map fun n => { a with tickInterval := some n }
  | .config => (path? text).map fun path => { a with configPath := some path }
  | .statsInterval => (long? text).map fun n => { a with statsInterval := n }
  | .logFile | .verbose | .help => .error .unneeded

def turnOn (a : Arguments) : Parameter → Except UsageFault Arguments
  | .logFile => .ok { a with logFile := true }
  | .verbose => .ok { a with verbose := true }
  | .help => .error .help
  | _ => .error .missing

/-- The settings of a run. A file that was named has to be there, the usual one may be missing. -/
def loadConfig (a : Arguments) (d : Disk) (e : Environment) : Except ConfigFault Config :=
  let loaded := match a.configPath with
    | some path => Config.load d path
    | none =>
        match Config.load d e.configPath with
        | .error .notFound => .ok default
        | loaded => loaded
  loaded.map fun c =>
    match a.tickInterval with
    | some n => { c with host := { c.host with tickInterval := n } }
    | none => c

/-- The scripts of a run: those that were named, or else those that the settings start. -/
def scriptsToRun (a : Arguments) (c : Config) (e : Environment) : List String :=
  if a.scripts.isEmpty then c.autoloadPaths e else a.scripts

end Arguments

end TickHost.Soak
