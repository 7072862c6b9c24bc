import TickHost.Value

/-!
What a host announces to the outside world. An event travels in an envelope that names the host,
the event's number among the events of that host, the time and the part of the host it came from.
-/

namespace TickHost

open Binary

inductive Source where
  | script
  | host
  | loader
deriving DecidableEq, Repr, Inhabited

inductive Event where
  /-- The source text was read or fetched. -/
  | scriptLoaded (origin : String)
  /-- A source text could not be obtained. -/
  | errorLoadingScript (origin : String)
  /-- An evaluation returned, with its value or with the text of its fault. -/
  | evaluationFinished (result : Value) (hadException : Bool)
  /-- A fault that no script caught, worded for display. -/
  | errorMessage (message : String)
  | runningStateChanged
  /-- A tick is complete; the delta is in seconds. -/
  | update (delta : Single)
  /-- The run is ending and its timers are gone already. -/
  | scriptEnding
  /-- The run has ended, under the origin that it started with. -/
  | finished (origin : String)
  /-- The last event of a run. -/
  | doneRunning
  | printedMessage (message : String)
  /-- A script asks the application to start another script. -/
  | loadScriptRequest (url : String) (isUserLoaded : Bool)
deriving DecidableEq, Repr, Inhabited

namespace Event

def name : Event → String
  | scriptLoaded _ => "script-loaded"
  | errorLoadingScript _ => "error-loading-script"
  | evaluationFinished _ _ => "evaluation-finished"
  | errorMessage _ => "error-message"
  | runningStateChanged => "running-state-changed"
  | update _ => "update"
  | scriptEnding => "script-ending"
  | finished _ => "finished"
  | doneRunning => "done-running"
  | printedMessage _ => "printed-message"
  | loadScriptRequest _ _ => "load-script-request"

end Event

/-- Where an event comes from, with free-form notes attached to it. -/
structure Context where
  host : Nat
  sequence : Nat
  metadata : List (String × String)
deriving Repr, Inhabited

namespace Context

def new (host sequence : Nat) : Context := ⟨host, sequence, []⟩

/-- A later note under the same key replaces the earlier one. -/
def withMetadata (c : Context) (key value : String) : Context :=
  { c with metadata := (key, value) :: c.metadata.filter fun (k, _) => k ≠ key }

end Context

structure Envelope where
  context : Context
  /-- Microseconds since the start of the clock. -/
  time : Nat
  source : Source
  event : Event
deriving Repr, Inhabited

end TickHost
