import TickHost.Avatar.Pool
import TickHost.Host
import TickHost.Registry
import TickHost.Store

/-!
The world that hosts live in: the clock, the disk and the remote texts, the programs and functions
of scripts, the buses with their receivers, the hosts and whoever holds on to them. A host exists
as long as it has a name or someone works on it. What others see of it through handles lives on
while there is a handle, a job that waits for it, or a fetch that will report to it.
-/

namespace TickHost

/-- Why a kept fetch was made. -/
inductive FetchPurpose where
  /-- An include of a host, which calls back. -/
  | includeAll (callback : Callback)
  /-- The source text of a host. -/
  | script

structure KeptFetch where
  host : Nat
  fetcher : Fetcher
  urls : List Url
  purpose : FetchPurpose

/-- A receiver and the bus that it reads. -/
structure Subscription where
  bus : Nat
  receiver : Receiver
deriving DecidableEq, Repr, Inhabited

structure World where
  /-- Microseconds since the start. -/
  clock : Nat
  disk : Disk
  /-- Texts by URL. -/
  remote : Table String
  /-- What a program does, by its text. -/
  programs : Table (List Action)
  /-- What a function of the script engine does, by its name. -/
  functions : Table (List Action)
  network : Directory
  avatars : AvatarPool
  buses : Store Bus
  hosts : Store Host
  registries : Table Registry
  sharedBuses : Table Nat
  receivers : Table Subscription
  names : Table Nat
  handles : Table Nat
  /-- Timers by name; nothing where a timer was refused. -/
  timers : Table (Option TimerId)
  jobs : Table Job
  fetches : List KeptFetch
  /-- The name of the running thread. -/
  thread : String
  journal : Array Entry
  /-- Something impossible was asked for, and everything stopped. -/
  crashed : Bool

namespace World

/-- The world before anything happened. -/
def start (disk : Disk) (remote : Table String) (programs functions : Table (List Action))
    (network : Directory) : World where
  clock := 0
  disk := disk
  remote := remote
  programs := programs
  functions := functions
  network := network
  avatars := .empty
  buses := []
  hosts := []
  registries := []
  sharedBuses := []
  receivers := []
  names := []
  handles := []
  timers := []
  jobs := []
  fetches := []
  thread := "main"
  journal := #[]
  crashed := false

def host (w : World) (key : Nat) : Host :=
  w.hosts.get key

def setHost (w : World) (key : Nat) (h : Host) : World :=
  { w with hosts := w.hosts.put key h }

def updateHost (w : World) (key : Nat) (f : Host → Host) : World :=
  w.setHost key (f (w.host key))

def updateStreamer (w : World) (key : Nat) (f : Streamer → Streamer) : World :=
  w.updateHost key fun h => { h with streamer := f h.streamer }

def note (w : World) (entry : Entry) : World :=
  { w with journal := w.journal.push entry }

def noteAll (w : World) (entries : List Entry) : World :=
  entries.foldl note w

def registry (w : World) (name : String) : Registry :=
  (w.registries.get? name).getD .empty

def updateRegistry (w : World) (name : String) (f : Registry → Registry) : World :=
  { w with registries := w.registries.put name (f (w.registry name)) }

/-- Whether the registry of a host is stopping all. -/
def isStopping (w : World) (key : Nat) : Bool :=
  (w.registry (w.host key).registry).isStopping

/-! Events. -/

/-- Publish an event of a host on its bus, unless the host is cut off. -/
def publish (w : World) (key : Nat) (event : Event) (source : Source) : World :=
  let h := w.host key
  match h.outlet.publish w.clock event source with
  | (none, _) => w
  | (some envelope, outlet) =>
      { w.setHost key { h with outlet } with
        buses := w.buses.put h.bus ((w.buses.get h.bus).push envelope) }

/-- Ask a host to stop. The first request is announced. -/
def requestStop (w : World) (key : Nat) : World :=
  if (w.host key).finished then w
  else (w.updateHost key fun h => { h with finished := true }).publish key
    .runningStateChanged .host

def reportFault (w : World) (key : Nat) (fault : ScriptFault) : World :=
  w.publish key (.errorMessage fault.render) .script

def addBus (w : World) (bus : Bus) : Nat × World :=
  (w.buses.fresh, { w with buses := w.buses.put w.buses.fresh bus })

/-- A new receiver at the end of a bus. -/
def subscribe (w : World) (receiver : String) (bus : Nat) : World :=
  { w with receivers := w.receivers.put receiver ⟨bus, (w.buses.get bus).subscribe⟩ }

/-! Who is alive. -/

def isNamed (w : World) (key : Nat) : Bool :=
  w.names.any fun (_, k) => k = key

/-- A host exists while it has a name or a caller. -/
def isHeld (w : World) (key : Nat) : Bool :=
  w.isNamed key || 0 < (w.host key).users

/-- Whether the part of a host that others share still exists. -/
def isShared (w : World) (key : Nat) : Bool :=
  (w.host key).alive || (w.handles.any fun (_, k) => k = key) ||
    (w.jobs.any fun (_, job) => job.host = key) ||
    (w.fetches.any fun f => f.host = key && match f.purpose with
      | .includeAll _ => true
      | .script => false)

/-- Whether anyone is left who can publish on a bus. The fetch of a source text reports by
itself, even after its host is gone. -/
def isOpen (w : World) (bus : Nat) : Bool :=
  (w.sharedBuses.any fun (_, b) => b = bus) ||
    (w.hosts.keys.any fun key => (w.host key).bus = bus && w.isShared key) ||
    (w.fetches.any fun f => (w.host f.host).bus = bus)

/-- End a host that nobody holds any more. It leaves its registry, except that a stop-all takes
its hosts off by itself. -/
def settle (w : World) (key : Nat) : World :=
  if (w.host key).alive && !w.isHeld key then
    let stopping := w.isStopping key
    let gone := w.updateHost key fun h => { h with alive := false, commands := [] }
    if stopping then gone
    else gone.updateRegistry (w.host key).registry fun r => r.unregister (w.host key).id
  else w

/-- Take a host into use. -/
def acquire (w : World) (key : Nat) : World :=
  w.updateHost key fun h => { h with users := h.users + 1 }

/-- Give a host back. -/
def release (w : World) (key : Nat) : World :=
  (w.updateHost key fun h => { h with users := h.users - 1 }).settle key

/-- Take a name from its host. -/
def unname (w : World) (name : String) : World :=
  match w.names.get? name with
  | some key => { w with names := w.names.erase name }.settle key
  | none => w

/-- Build a host under its name, with a receiver of the same name. Without room for events there
can be no bus. -/
def build (w : World) (plan : HostPlan) (api : List Action) : World × Answer :=
  let id := (w.registry plan.registry).nextId
  let shared := plan.bus.bind w.sharedBuses.get?
  let found : Option (Nat × World) := match shared with
    | some bus => some (bus, w)
    | none => (Bus.new? plan.settings.eventCapacity).map w.addBus
  match found with
  | none => ({ w with crashed := true }, .nothing)
  | some (bus, w) =>
      let key := w.hosts.fresh
      let w := w.setHost key (.ofPlan plan api id bus)
      let w := w.updateRegistry plan.registry fun r => r.register key
      let w := w.subscribe plan.name bus
      let w := w.unname plan.name
      ({ w with names := w.names.put plan.name key }, .number id)

/-! Reports. -/

/-- Everything that a receiver can read at once. -/
def drain (w : World) (receiver : String) : World × Answer :=
  match w.receivers.get? receiver with
  | none => (w, .missing .receiver)
  | some s =>
      let (missed, envelopes, after) := (w.buses.get s.bus).drain s.receiver
      ({ w with receivers := w.receivers.put receiver { s with receiver := after } },
        .drained missed envelopes (!w.isOpen s.bus))

def hostReport (w : World) (key : Nat) : HostReport :=
  let h := w.host key
  ⟨h.report, h.initialized, h.script.origin, h.script.contents, h.filename,
    h.settings.tickInterval⟩

def scriptReport (w : World) (key : Nat) : ScriptReport :=
  let h := w.host key
  ⟨h.report, h.script.origin, h.filename, h.timers.active, h.streamer.isAvatar,
    h.streamer.listening, h.streamer.hasSound, (w.avatars.attached? h.streamer).isSome,
    h.pending⟩

/-- A registry with the hosts that still can be reached. -/
def registryReport (w : World) (name : String) : RegistryReport :=
  let r := w.registry name
  ⟨r.members.length, r.isStopping,
    (r.members.filter fun (_, key) => w.isShared key).map fun (_, key) => (w.host key).report⟩

end World

end TickHost
