import TickHost.Avatar.Streamer
import TickHost.Fetch
import TickHost.Network
import TickHost.Settings
import TickHost.Value

/-!
Scenarios are lists of actions. An action is what an application or one of its scripts can do:
build hosts and run them, work on a host through its handle, or call what a host offers to its
script. Scripts are lists of actions as well, so that a scenario says in full what happens.

An action on a host names it, or else it concerns the host whose script performs it.
-/

namespace TickHost

/-- How a host is built. -/
structure HostPlan where
  name : String
  contents : String
  origin : String
  parent : Option String
  settings : HostSettings
  registry : String
  /-- A shared bus to publish on; by default the host has a bus of its own. -/
  bus : Option String
  fetcher : Option Fetcher
  onNetwork : Bool
  queue : Option EditQueue
  /-- Whether programs are written in the directive language. -/
  directives : Bool
  /-- How many updates a run may have. -/
  maxUpdates : Nat
deriving Repr, Inhabited

inductive Signal where
  | update
  | scriptEnding
deriving DecidableEq, Repr, Inhabited

/-- What concerns no single host, or a host from outside. -/
inductive WorldDeed where
  | openBus (name : String) (capacity : Nat)
  | drain (receiver : String)
  | unsubscribe (receiver : String)
  | sleep (microseconds : Nat)
  | now
  | thread
  | registry (name : String)
  | contains (registry : String) (id : Nat)
  | stopAll (registry job : String)
  | waitDone (handle job : String)
  | waitEvaluations (handle job : String)
  | poll (job : String)
  | dropJob (job : String)
  | complete (index : Nat)
  | forget (index : Nat)
  | makeAvatar (avatar : Avatar)
  | dropAvatar (name : String)
  | addPeer (peer : Peer)
  | removePeer (id : Nat)
  | dropHost (name : String)
  | spawn (name : String)
  | dropHandle (handle : String)
deriving Repr

/-- What is done to a host by its owner. -/
inductive HostDeed where
  | run
  | initialise
  | stop
  | setContents (contents origin : String)
  | loadUrl (reference : String)
  | setParent (parent : Option String)
  | avatarData (avatar : String)
  | nodeKilled (peer : Nat)
  | subscribe (receiver : String)
  | info
deriving Repr

mutual

inductive Action where
  | build (plan : HostPlan) (api : List Action)
  | onWorld (deed : WorldDeed)
  | onHandle (handle : String) (deed : HandleDeed)
  | onHost (host : Option String) (deed : HostDeed)
  | inScript (host : Option String) (deed : ScriptDeed)
  /-- End the script with a value. -/
  | give (value : Value)
  /-- End the script with a fault. -/
  | throw (message : String)
  | unknown (name : String)

/-- What the holder of a handle can do. -/
inductive HandleDeed where
  | info
  | stop
  | invoke (actions : List Action)
  | nodeKilled (peer : Nat)
  | avatarData (avatar : String)
  | sound (pcm : Option (List UInt8))
  | subscribe (receiver : String)

/-- What a host offers to its script. -/
inductive ScriptDeed where
  | timeout (name : String) (call : Call) (milliseconds : Nat)
  | interval (name : String) (call : Call) (milliseconds : Nat)
  | clear (timer : String)
  | timers
  | resolve (reference : String)
  | includeAll (references : List String) (call : Option Call)
  | load (reference : String)
  | evaluate (program origin : String) (line : Nat)
  | print (text : String)
  | stop
  | connect (signal : Signal) (call : Call)
  | avatarMode (on : Bool)
  | listen (on : Bool)
  | sound (pcm : Option (List UInt8))
  | avatarData (avatar : String)
  | handle (name : String)
  | state

/-- What is called back later: a function of the script, or actions of the application. -/
inductive Call where
  | script (function : String)
  | native (actions : List Action)

end

instance : Inhabited Action := ⟨.unknown ""⟩

instance : Inhabited Call := ⟨.native []⟩

def WorldDeed.name : WorldDeed → String
  | openBus _ _ => "bus"
  | drain _ => "drain"
  | unsubscribe _ => "unsubscribe"
  | sleep _ => "sleep"
  | now => "now"
  | thread => "thread"
  | registry _ => "registry"
  | contains _ _ => "contains"
  | stopAll _ _ => "stop_all"
  | waitDone _ _ => "wait_done"
  | waitEvaluations _ _ => "wait_evals"
  | poll _ => "poll"
  | dropJob _ => "drop_job"
  | complete _ => "complete"
  | forget _ => "forget"
  | makeAvatar _ => "avatar"
  | dropAvatar _ => "drop_avatar"
  | addPeer _ | removePeer _ => "node"
  | dropHost _ => "drop"
  | spawn _ => "spawn"
  | dropHandle _ => "drop_handle"

def HostDeed.name : HostDeed → String
  | run => "run"
  | initialise => "init"
  | stop => "host_stop"
  | setContents _ _ => "set_contents"
  | loadUrl _ => "load_url"
  | setParent _ => "set_parent"
  | avatarData _ => "host_avatar_data"
  | nodeKilled _ => "node_killed"
  | subscribe _ => "subscribe"
  | info => "info"

def HandleDeed.name : HandleDeed → String
  | info => "h_info"
  | stop => "h_stop"
  | invoke _ => "h_invoke"
  | nodeKilled _ => "h_node_killed"
  | avatarData _ => "h_avatar_data"
  | sound _ => "h_sound"
  | subscribe _ => "h_subscribe"

def ScriptDeed.name : ScriptDeed → String
  | timeout _ _ _ => "timeout"
  | interval _ _ _ => "interval"
  | clear _ => "clear"
  | timers => "timers"
  | resolve _ => "resolve"
  | includeAll _ _ => "include"
  | load _ => "load"
  | evaluate _ _ _ => "evaluate"
  | print _ => "print"
  | stop => "stop"
  | connect _ _ => "connect"
  | avatarMode _ => "avatar_mode"
  | listen _ => "listen"
  | sound _ => "sound"
  | avatarData _ => "avatar_data"
  | handle _ => "handle"
  | state => "state"

end TickHost
