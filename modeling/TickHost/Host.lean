import TickHost.Bus
import TickHost.Reference
import TickHost.Scenario.Journal

/-!
Hosts. A host owns the source text of one script, its timers, the callbacks connected to its
signals and the avatar it streams. Other threads reach it only through its handle: they can ask it
to stop, look at the flags kept here, and post commands, which it carries out once a tick.
-/

namespace TickHost

inductive Callback where
  /-- A function of the script engine. -/
  | script (function : String)
  /-- Actions of the application, in the name of `owner`. -/
  | native (owner : String) (actions : List Action)
  /-- Counts the updates of a run and stops it at the limit. -/
  | guard

instance : Inhabited Callback := ⟨.guard⟩

inductive Command where
  | nodeKilled (peer : Nat)
  /-- A batch was answered: evaluate it and call back. -/
  | includeReady (urls : List Url) (callback : Callback) (results : FetchResults)
  | avatarData (avatar : Option Nat)
  | sound (pcm : Option (List UInt8))
  | task (handle : String) (actions : List Action)

/-- A source text and the label it is reported under. -/
structure Script where
  contents : String
  origin : String
deriving DecidableEq, Repr, Inhabited

structure Host where
  /-- The name it was built under, which its script engine keeps. -/
  name : String
  id : Nat
  registry : String
  settings : HostSettings
  bus : Nat
  outlet : Outlet
  fetcher : Option Fetcher
  onNetwork : Bool
  queue : Option EditQueue
  directives : Bool
  api : List Action
  maxUpdates : Nat
  script : Script
  parent : Option String
  initialized : Bool
  running : Bool
  /-- A stop was requested, or the last run has ended. -/
  finished : Bool
  /-- No run is on its way; a host that never ran counts as done. -/
  done : Bool
  /-- Evaluations that have begun and not returned. -/
  pending : Nat
  timers : Timers Callback
  signals : List (Signal × Callback)
  commands : List Command
  streamer : Streamer
  /-- Updates counted by the guard. -/
  updates : Nat
  /-- Whether the host itself still exists; handles may outlive it. -/
  alive : Bool
  /-- Callers that are working on the host. -/
  users : Nat

namespace Host

/-- A host as it is built: the guard is connected, nothing has happened yet. -/
def ofPlan (plan : HostPlan) (api : List Action) (id bus : Nat) : Host where
  name := plan.name
  id := id
  registry := plan.registry
  settings := plan.settings
  bus := bus
  outlet := .new id
  fetcher := plan.fetcher
  onNetwork := plan.onNetwork
  queue := plan.queue
  directives := plan.directives
  api := api
  maxUpdates := plan.maxUpdates
  script := ⟨plan.contents, plan.origin⟩
  parent := plan.parent
  initialized := false
  running := false
  finished := false
  done := true
  pending := 0
  timers := .empty
  signals := [(.update, .guard)]
  commands := []
  streamer := .new plan.settings
  updates := 0
  alive := true
  users := 0

instance : Inhabited Host := ⟨{ ofPlan default [] 0 0 with alive := false }⟩

/-- The part of the origin after its last slash. -/
def filename (h : Host) : String :=
  String.ofList (Text.afterLast '/' h.script.origin.toList)

def report (h : Host) : HandleReport :=
  ⟨h.id, h.running, h.finished⟩

/-- The callbacks connected to a signal, in the order in which they were connected. -/
def callbacks (h : Host) (signal : Signal) : List Callback :=
  (h.signals.filter fun (connected, _) => connected = signal).map Prod.snd

/-- What a reference in its script means. -/
def resolve? (h : Host) (reference : String) : Option Url :=
  Reference.resolve? reference h.parent h.script.origin

/-- The state at the start of a run. An earlier stop-all may have cut the host off. -/
def beginRun (h : Host) : Host :=
  { h with outlet := h.outlet.attach, finished := false, done := false, running := true }

def endRun (h : Host) : Host :=
  { h with running := false }

def markDone (h : Host) : Host :=
  { h with done := true }

def post (h : Host) (command : Command) : Host :=
  { h with commands := h.commands ++ [command] }

/-- Count an update, and whether the limit is reached; the least limit is one. -/
def countUpdate (h : Host) : Bool × Host :=
  (max 1 h.maxUpdates ≤ h.updates + 1, { h with updates := h.updates + 1 })

end Host

end TickHost
