import TickHost.Event
import TickHost.Scenario.Action
import TickHost.Timer

/-!
The journal of a scenario. Every action leaves an entry with its answer once it is done, so that
what it caused stands before it; the script engine and the collaborators of a host leave entries
when they are called.
-/

namespace TickHost

/-- What an action refers to without having found it. -/
inductive Missing where
  | host
  | handle
  | timer
  | receiver
  | job
  | fetch
deriving DecidableEq, Repr

/-- A host as its handle shows it. -/
structure HandleReport where
  id : Nat
  running : Bool
  finished : Bool
deriving DecidableEq, Repr

def HandleReport.render (r : HandleReport) : String :=
  "HostHandle \x7b id: " ++ toString r.id ++ ", running: " ++ toString r.running ++
    ", finished: " ++ toString r.finished ++ " \x7d"

/-- A host as its owner sees it. -/
structure HostReport where
  handle : HandleReport
  initialized : Bool
  origin : String
  contents : String
  filename : String
  tickInterval : Nat
deriving DecidableEq, Repr

/-- A host as its script sees it. -/
structure ScriptReport where
  handle : HandleReport
  origin : String
  filename : String
  timers : Nat
  avatarMode : Bool
  listening : Bool
  playing : Bool
  attached : Bool
  evaluations : Nat
deriving DecidableEq, Repr

structure RegistryReport where
  size : Nat
  stopping : Bool
  handles : List HandleReport
deriving DecidableEq, Repr

inductive Answer where
  | nothing
  | done
  | flag (b : Bool)
  | number (n : Nat)
  | text (s : String)
  | missing (what : Missing)
  | unknown
  /-- The host is in use. -/
  | busy
  | ready
  | pending
  | refused (fault : StateFault)
  | value (v : Value)
  | fault (f : ScriptFault)
  | timer (id : TimerId)
  | drained (missed : Nat) (envelopes : List Envelope) (closed : Bool)
  | handle (report : HandleReport) (evaluations : Nat)
  | host (report : HostReport)
  | script (report : ScriptReport)
  | registry (report : RegistryReport)
deriving Repr

inductive Entry where
  | answered (action : String) (answer : Answer)
  /-- The script engine of a host was set up. -/
  | initialised (host : String)
  | evaluated (host program origin : String) (line : Nat)
  | called (host function : String) (args : List Value)
  | native (host : String) (args : List Value)
  /-- A task posted through a handle began. -/
  | task (handle : String)
  | fetching (urls : List String)
  /-- A fetch whose caller waits. -/
  | fetchingNow (urls : List String)
  | sent (what : Sent)
  | queue (call : QueueCall)
deriving Repr

end TickHost
