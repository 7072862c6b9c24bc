import TickHost.Directive
import TickHost.World.Loading
import TickHost.World.Stopping

/-!
The machine that carries a scenario out, one small step at a time. What is still to be done is an
agenda: a step takes its first task, changes the world and may put further tasks in front. Code
that calls back into its host, at whatever depth, only makes the agenda longer, so a host can be
inspected between any two steps. The outcome of the last script, callback or run stays in the
machine until the task that waits for it comes up.
-/

namespace TickHost

/-- How a script, a callback or a run ended. -/
inductive Outcome where
  | returned (v : Value)
  | faulted (f : ScriptFault)
  | refused (f : StateFault)
deriving Repr, Inhabited

/-- Where a script is, for its faults. -/
inductive Place where
  | program (origin : String) (line : Nat)
  /-- Outside any program, faults are reported under the origin of the host. -/
  | host
deriving DecidableEq, Repr

/-- Who performs actions: the host whose script it is, and the name it goes by. -/
structure Scope where
  host : Option Nat
  name : String
  place : Place
deriving DecidableEq, Repr

def Scope.outside : Scope := ⟨none, "", .host⟩

/-- A run that is ticking. Tick number `frame` is due at `start` plus as many intervals. -/
structure Ticking where
  origin : String
  start : Nat
  last : Nat
  frame : UInt32
deriving DecidableEq, Repr

inductive Task where
  /-- Perform the actions of a script. -/
  | perform (scope : Scope) (actions : List Action)
  | answer (action : String) (answer : Answer)
  /-- Answer with the outcome of a run. -/
  | answerRun (action : String)
  /-- Answer with the outcome of an evaluation. -/
  | answerOutcome (action : String)
  | release (host : Nat)
  | leaveThread (previous : String)
  /-- Evaluate a program and announce the outcome. -/
  | evaluate (host : Nat) (program origin : String) (line : Nat)
  /-- Enter the script engine. -/
  | engine (host : Nat) (program origin : String) (line : Nat)
  | announce (host : Nat)
  | initialise (host : Nat)
  /-- Report the outcome if it is a fault. -/
  | report (host : Nat)
  /-- Run directives; the first that faults is the last. -/
  | directives (host : Nat) (origin : String) (lines : List (Nat × List Char))
  /-- A value as the outcome. -/
  | give (v : Value)
  /-- Evaluate the texts of a batch, in the order in which they were asked for. -/
  | batch (host : Nat) (urls : List Url) (results : FetchResults)
  | call (host : Nat) (callback : Callback) (args : List Value)
  /-- Call callbacks one after the other, reporting their faults. -/
  | notify (host : Nat) (callbacks : List Callback) (args : List Value)
  | beginRun (host : Nat)
  /-- Start what was begun, unless everything is stopping by now. -/
  | confirmRun (host : Nat)
  | startTicking (host : Nat) (origin : String)
  /-- Wait for the next tick. -/
  | awaitTick (host : Nat) (ticking : Ticking)
  | pump (host : Nat) (ticking : Ticking)
  /-- Carry out posted commands until there are none. -/
  | drain (host : Nat)
  /-- Fire timers that were due at one moment. -/
  | fire (host : Nat) (now : Nat) (due : List TimerId)
  | flush (host : Nat) (ticking : Ticking)
  | stream (host : Nat) (ticking : Ticking)
  | update (host : Nat) (ticking : Ticking)
  /-- Begin to end a run. -/
  | close (host : Nat) (origin : String)
  | lastFlush (host : Nat)
  | finish (host : Nat) (origin : String)

structure Machine where
  world : World
  outcome : Outcome
  agenda : List Task

/-- What a task does: the world and the outcome after it, and the tasks to do next. -/
structure Reaction where
  world : World
  outcome : Outcome
  next : List Task

namespace World

/-! Actions that are done at once. -/

/-- What concerns no single host. Spawning a host takes more than one step and is not done here. -/
def doDeed (w : World) : WorldDeed → World × Answer
  | .openBus name capacity =>
      match Bus.new? capacity with
      | none => ({ w with crashed := true }, .nothing)
      | some bus =>
          let (key, w) := w.addBus bus
          ({ w with sharedBuses := w.sharedBuses.put name key }.subscribe name key, .nothing)
  | .drain receiver => w.drain receiver
  | .unsubscribe receiver =>
      ({ w with receivers := w.receivers.erase receiver }, .flag (w.receivers.has receiver))
  | .sleep microseconds => ({ w with clock := w.clock + microseconds }, .nothing)
  | .now => (w, .number w.clock)
  | .thread => (w, .text w.thread)
  | .registry name => (w, .registry (w.registryReport name))
  | .contains registry id => (w, .flag ((w.registry registry).contains id))
  | .stopAll registry job => w.stopAll registry job
  | .waitDone handle job =>
      match w.handles.get? handle with
      | some key => w.wait job (.done key)
      | none => (w, .missing .handle)
  | .waitEvaluations handle job =>
      match w.handles.get? handle with
      | some key => w.wait job (.evaluations key)
      | none => (w, .missing .handle)
  | .poll job => w.poll job
  | .dropJob job => w.dropJob job
  | .complete index => w.complete index
  | .forget index => w.forget index
  | .makeAvatar avatar => ({ w with avatars := (w.avatars.make avatar).2 }, .nothing)
  | .dropAvatar name =>
      let (was, avatars) := w.avatars.drop name
      ({ w with avatars }, .flag was)
  | .addPeer peer => ({ w with network := w.network.add peer }, .flag true)
  | .removePeer id => ({ w with network := w.network.remove id }, .flag (w.network.knows id))
  | .dropHost name =>
      if w.names.has name then (w.unname name, .done) else (w, .missing .host)
  | .spawn _ => (w, .missing .host)
  | .dropHandle handle =>
      ({ w with handles := w.handles.erase handle }, .flag (w.handles.has handle))

/-- Post a command to a host that may be gone. -/
def post (w : World) (key : Nat) (command : Command) : World × Answer :=
  if (w.host key).alive then (w.updateHost key fun h => h.post command, .done)
  else (w, .refused .hostGone)

/-- What the holder of a handle does. -/
def doHandleDeed (w : World) (handle : String) (key : Nat) : HandleDeed → World × Answer
  | .info => (w, .handle (w.host key).report (w.host key).pending)
  | .stop => (w.requestStop key, .nothing)
  | .invoke actions => w.post key (.task handle actions)
  | .nodeKilled peer => w.post key (.nodeKilled peer)
  | .avatarData avatar => w.post key (.avatarData (w.avatars.named? avatar))
  | .sound pcm => w.post key (.sound pcm)
  | .subscribe receiver => (w.subscribe receiver (w.host key).bus, .nothing)

/-- What the owner of a host does, except what runs scripts. -/
def doHostDeed (w : World) (key : Nat) : HostDeed → World × Answer
  | .run | .initialise => (w, .nothing)
  | .stop => (w.requestStop key, .nothing)
  | .setContents contents origin =>
      if (w.host key).running then (w, .refused .alreadyRunning)
      else (w.updateHost key fun h => { h with script := ⟨contents, origin⟩ }, .done)
  | .loadUrl reference => w.loadUrl key reference
  | .setParent parent => (w.updateHost key fun h => { h with parent }, .nothing)
  | .avatarData avatar =>
      (w.updateStreamer key fun s => s.setAvatar (w.avatars.named? avatar), .nothing)
  | .nodeKilled peer => (w.updateStreamer key fun s => s.peerGone peer, .nothing)
  | .subscribe receiver => (w.subscribe receiver (w.host key).bus, .nothing)
  | .info => (w, .host (w.hostReport key))

/-- Start a timer, except while everything is stopping or once the host has stopped. -/
def setTimer (w : World) (key : Nat) (callback : Callback) (milliseconds : Nat) (once : Bool) :
    Option TimerId × World :=
  let h := w.host key
  if w.isStopping key || h.finished then (none, w)
  else
    let (id, timers) := h.timers.schedule callback (milliseconds * 1000) once w.clock
    (some id, w.setHost key { h with timers })

/-- A timer under a name. -/
def setNamedTimer (w : World) (key : Nat) (name : String) (callback : Callback)
    (milliseconds : Nat) (once : Bool) : World × Answer :=
  let (id, w) := w.setTimer key callback milliseconds once
  ({ w with timers := w.timers.put name id }, (id.map Answer.timer).getD .nothing)

/-- Actions called back later go by the name that their host has now. -/
def callback (name : String) : Call → Callback
  | .script function => .script function
  | .native actions => .native name actions

/-- What a host offers to its script, except what runs scripts. -/
def doScriptDeed (w : World) (key : Nat) (name : String) : ScriptDeed → World × Answer
  | .timeout timer call ms => w.setNamedTimer key timer (callback name call) ms true
  | .interval timer call ms => w.setNamedTimer key timer (callback name call) ms false
  | .clear timer =>
      match w.timers.get? timer with
      | some (some id) =>
          let h := w.host key
          let (live, timers) := h.timers.cancel id
          (w.setHost key { h with timers }, .flag live)
      | _ => (w, .missing .timer)
  | .timers => (w, .number (w.host key).timers.active)
  | .resolve reference =>
      match (w.host key).resolve? reference with
      | some url => (w, .text url.render)
      | none => (w, .nothing)
  | .includeAll references (some call) =>
      if w.isStopping key then (w, .nothing)
      else
        let (urls, w) := w.resolveAll key references
        (w.fetch key urls (.includeAll (callback name call)), .nothing)
  | .includeAll _ none | .evaluate _ _ _ => (w, .nothing)
  | .load reference => (w.load key reference, .nothing)
  | .print text => (w.publish key (.printedMessage text) .script, .nothing)
  | .stop => (w.requestStop key, .nothing)
  | .connect signal call =>
      (w.updateHost key fun h => { h with signals := h.signals ++ [(signal, callback name call)] },
        .nothing)
  | .avatarMode on =>
      let w := w.updateStreamer key fun s => s.setAvatarMode on w.clock
      (w, .flag (w.host key).streamer.isAvatar)
  | .listen on =>
      let w := w.updateStreamer key fun s => s.setListening on
      (w, .flag (w.host key).streamer.listening)
  | .sound pcm =>
      let w := w.updateStreamer key fun s => s.setSound pcm
      (w, .flag (w.host key).streamer.hasSound)
  | .avatarData avatar =>
      let w := w.updateStreamer key fun s => s.setAvatar (w.avatars.named? avatar)
      (w, .flag (w.avatars.attached? (w.host key).streamer).isSome)
  | .handle handle => ({ w with handles := w.handles.put handle key }, .nothing)
  | .state => (w, .script (w.scriptReport key))

/-- Flush the edits of a host that has a queue for them. -/
def flushEdits (w : World) (key : Nat) : World :=
  match (w.host key).queue with
  | some queue => w.noteAll (queue.flush.map Entry.queue)
  | none => w

/-- Stream one tick of the avatar of a host on the network. -/
def streamTick (w : World) (key : Nat) : World :=
  let h := w.host key
  if h.onNetwork then
    let (_, sent, streamer) := h.streamer.tick w.network (w.avatars.attached? h.streamer) w.clock
    (w.setHost key { h with streamer }).noteAll (sent.map Entry.sent)
  else w

end World

namespace Task

/-- The tasks of a run. -/
def running (key : Nat) : List Task :=
  [initialise key, beginRun key]

/-- Run the host of a key, if nothing speaks against it. The limit of updates counts anew. -/
def run (w : World) (key : Nat) (after : List Task) : World × List Task :=
  let w := w.updateHost key fun h => { h with updates := 0 }
  if w.isStopping key then (w.note (.answered "run" (.refused .stoppingAll)), [])
  else if (w.host key).running then (w.note (.answered "run" (.refused .alreadyRunning)), [])
  else (w.acquire key, running key ++ after ++ [release key])

/-- Run a host on a thread of its own and wait for the end. It has no name from then on, but a
handle of that name. -/
def spawn (w : World) (name : String) : World × List Task :=
  match w.names.get? name with
  | none => (w.note (.answered "spawn" (.missing .host)), [])
  | some key =>
      if 0 < (w.host key).users then (w.note (.answered "spawn" .busy), [])
      else
        let w := w.updateHost key fun h => { h with updates := 0 }
        let previous := w.thread
        let w := { w.acquire key with
          names := w.names.erase name
          handles := w.handles.put name key
          thread := "script-" ++ toString (w.host key).id }
        let tasks := if w.isStopping key || (w.host key).running then [] else running key
        (w, tasks ++ [leaveThread previous, release key, answer "spawn" (.flag true)])

def startHostDeed (w : World) (key : Nat) (deed : HostDeed) : World × List Task :=
  match deed with
  | .run => run w key [answerRun "run"]
  | .initialise => (w.acquire key, [initialise key, answer "init" (.flag true), release key])
  | deed =>
      let (w, a) := w.doHostDeed key deed
      (w.note (.answered deed.name a), [])

def startScriptDeed (w : World) (key : Nat) (name : String) (deed : ScriptDeed) :
    World × List Task :=
  match deed with
  | .evaluate program origin line =>
      (w.acquire key, [evaluate key program origin line, answerOutcome "evaluate", release key])
  | .includeAll references none =>
      if w.isStopping key then (w.note (.answered "include" .nothing), [])
      else
        let (urls, w) := w.resolveAll key references
        let (results, w) := w.fetchNow key urls
        (w.acquire key, [batch key urls results, answer "include" .nothing, release key])
  | deed =>
      let (w, a) := w.doScriptDeed key name deed
      (w.note (.answered deed.name a), [])

/-- Begin an action. -/
def start (w : World) (scope : Scope) : Action → World × List Task
  | .build plan api =>
      let (w, a) := w.build plan api
      (w.note (.answered "build" a), [])
  | .onWorld (.spawn name) => spawn w name
  | .onWorld deed =>
      let (w, a) := w.doDeed deed
      (w.note (.answered deed.name a), [])
  | .onHandle handle deed =>
      match w.handles.get? handle with
      | some key =>
          let (w, a) := w.doHandleDeed handle key deed
          (w.note (.answered deed.name a), [])
      | none => (w.note (.answered deed.name (.missing .handle)), [])
  | .onHost named deed =>
      match named, scope.host with
      | some name, _ =>
          match w.names.get? name with
          | some key => startHostDeed w key deed
          | none => (w.note (.answered deed.name (.missing .host)), [])
      | none, none => (w.note (.answered deed.name (.missing .host)), [])
      | none, some _ =>
          match w.names.get? scope.name with
          | some key => startHostDeed w key deed
          | none => (w.note (.answered deed.name .unknown), [])
  | .inScript named deed =>
      match named, scope.host with
      | some name, _ =>
          match w.names.get? name with
          | some key => startScriptDeed w key name deed
          | none => (w.note (.answered deed.name (.missing .host)), [])
      | none, none => (w.note (.answered deed.name (.missing .host)), [])
      | none, some key => startScriptDeed w key scope.name deed
  | .give _ | .throw _ => (w, [])
  | .unknown name => (w.note (.answered name .unknown), [])

/-- Where a fault of a script is. -/
def faultAt (w : World) (key : Nat) (place : Place) (message : String) : ScriptFault :=
  match place with
  | .program origin line => ⟨origin, line, message⟩
  | .host => ⟨(w.host key).script.origin, 0, message⟩

/-- One step of a script. What would end it outside of any host is passed over. -/
def performOne (w : World) (o : Outcome) (scope : Scope) : List Action → Reaction
  | [] => ⟨w, .returned .undefined, []⟩
  | action :: rest =>
      match action, scope.host with
      | .give v, some _ => ⟨w, .returned v, []⟩
      | .throw message, some key => ⟨w, .faulted (faultAt w key scope.place message), []⟩
      | action, _ =>
          let (w, tasks) := start w scope action
          ⟨w, o, tasks ++ [perform scope rest]⟩

/-- Enter the script engine of a host with a program. A program that begins with `throw` faults
with the rest as its message. -/
def enterEngine (w : World) (o : Outcome) (key : Nat) (program origin : String) (line : Nat) :
    Reaction :=
  let h := w.host key
  let w := w.setHost key { h with pending := h.pending + 1 }
  if h.directives then
    ⟨w, .returned .undefined, [directives key origin (Directive.linesOf program line)]⟩
  else
    let w := w.note (.evaluated h.name program origin line)
    if "throw ".toList.isPrefixOf program.toList then
      ⟨w, .faulted ⟨origin, line, String.ofList (program.toList.drop 6)⟩, []⟩
    else
      match w.programs.get? program with
      | none => ⟨w, .returned .undefined, []⟩
      | some actions => ⟨w, o, [perform ⟨some key, h.name, .program origin line⟩ actions]⟩

/-- Announce how an evaluation ended; a fault is reported before. -/
def announceOutcome (w : World) (o : Outcome) (key : Nat) : World :=
  let w := w.updateHost key fun h => { h with pending := h.pending - 1 }
  match o with
  | .returned v => w.publish key (.evaluationFinished v false) .script
  | .faulted f =>
      (w.reportFault key f).publish key (.evaluationFinished (.text f.message) true) .script
  | .refused _ => w

/-- Run one directive. -/
def runDirective (w : World) (key : Nat) (origin : String) (line : Nat) (text : List Char) :
    Reaction :=
  let nothing := fun w => Reaction.mk w (.returned .undefined) []
  match Directive.read text with
  | .error message => ⟨w, .faulted ⟨origin, line, message⟩, []⟩
  | .ok (.throw message) => ⟨w, .faulted ⟨origin, line, message⟩, []⟩
  | .ok (.value v) => ⟨w, .returned v, []⟩
  | .ok (.print text) => nothing (w.publish key (.printedMessage text) .script)
  | .ok (.load reference) => nothing (w.load key reference)
  | .ok (.every ms action) => nothing (w.setTimer key (.script action) ms false).2
  | .ok (.after ms action) => nothing (w.setTimer key (.script action) ms true).2
  | .ok (.avatar on) => nothing (w.updateStreamer key fun s => s.setAvatarMode on w.clock)
  | .ok .stop => nothing (w.requestStop key)
  | .ok (.includeAll references) =>
      if w.isStopping key then nothing w
      else
        let (urls, w) := w.resolveAll key references
        let (results, w) := w.fetchNow key urls
        ⟨w, .returned .undefined, [batch key urls results, give .undefined]⟩

/-- Run the first of some directives; after a fault the others are left out. -/
def runDirectives (w : World) (o : Outcome) (key : Nat) (origin : String) :
    List (Nat × List Char) → Reaction
  | [] => ⟨w, o, []⟩
  | (line, text) :: rest =>
      let r := runDirective w key origin line text
      match r.outcome with
      | .faulted _ => r
      | _ => { r with next := r.next ++ [directives key origin rest] }

def callBack (w : World) (o : Outcome) (key : Nat) (callback : Callback) (args : List Value) :
    Reaction :=
  let h := w.host key
  match callback with
  | .guard =>
      let (reached, h) := h.countUpdate
      let w := w.setHost key h
      ⟨if reached then w.requestStop key else w, .returned .undefined, []⟩
  | .native owner actions =>
      ⟨w.note (.native owner args), o, [perform ⟨some key, owner, .host⟩ actions]⟩
  | .script function =>
      if h.directives then runDirective w key h.script.origin 0 function.toList
      else
        let w := w.note (.called h.name function args)
        match w.functions.get? function with
        | none =>
            ⟨w, .faulted ⟨h.script.origin, 0, "ReferenceError: " ++ function ++ " is not defined"⟩,
              []⟩
        | some actions => ⟨w, o, [perform ⟨some key, h.name, .host⟩ actions]⟩

/-- Evaluate the first of a batch. A text that did not come is reported. -/
def runBatch (w : World) (o : Outcome) (key : Nat) (results : FetchResults) :
    List Url → Reaction
  | [] => ⟨w, o, []⟩
  | url :: rest =>
      match results.get? url with
      | some (.ok contents) =>
          ⟨w, o, [evaluate key contents url.render 1, batch key rest results]⟩
      | _ =>
          ⟨w.publish key (.errorLoadingScript url.render) .loader, o, [batch key rest results]⟩

/-- Carry out the next command, or go on to the timers that are due now. -/
def drainOne (w : World) (o : Outcome) (key : Nat) : Reaction :=
  let h := w.host key
  match h.commands with
  | [] => ⟨w, o, [fire key w.clock (h.timers.due w.clock)]⟩
  | command :: rest =>
      let w := w.setHost key { h with commands := rest }
      match command with
      | .nodeKilled peer => ⟨w.updateStreamer key fun s => s.peerGone peer, o, [drain key]⟩
      | .avatarData avatar => ⟨w.updateStreamer key fun s => s.setAvatar avatar, o, [drain key]⟩
      | .sound pcm => ⟨w.updateStreamer key fun s => s.setSound pcm, o, [drain key]⟩
      | .includeReady urls callback results =>
          ⟨w, o, [batch key urls results, call key callback [], report key, drain key]⟩
      | .task handle actions =>
          ⟨w.note (.task handle), o, [perform ⟨some key, handle, .host⟩ actions, drain key]⟩

/-- Fire the first of the timers that were due. One that was cancelled since is passed over, and
so are all others once the host has stopped. -/
def fireOne (w : World) (o : Outcome) (key now : Nat) : List TimerId → Reaction
  | [] => ⟨w, o, []⟩
  | id :: rest =>
      let h := w.host key
      if h.finished then ⟨w, o, []⟩
      else
        match h.timers.fire id now with
        | (none, _) => ⟨w, o, [fire key now rest]⟩
        | (some callback, timers) =>
            ⟨w.setHost key { h with timers }, o,
              [call key callback [], report key, fire key now rest]⟩

/-- Wait until the next tick is due. -/
def awaitNext (w : World) (o : Outcome) (key : Nat) (t : Ticking) : Reaction :=
  let h := w.host key
  if h.finished then ⟨w, o, [close key t.origin]⟩
  else
    let target := t.start + h.settings.tickInterval * t.frame.toNat
    let frame := if t.frame.toNat + 1 < Nat.pow 2 32 then t.frame + 1 else t.frame
    ⟨{ w with clock := max w.clock target }, o, [pump key { t with frame }]⟩

/-- Announce an update, with the time since the last one. -/
def sendUpdate (w : World) (o : Outcome) (key : Nat) (t : Ticking) : Reaction :=
  let delta := Binary.Single.ofSeconds (w.clock - t.last)
  let t := { t with last := w.clock }
  if (w.host key).finished then ⟨w, o, [awaitTick key t]⟩
  else
    let w := w.publish key (.update delta) .host
    ⟨w, o, [notify key ((w.host key).callbacks .update) [.number (Binary.Double.ofSingle delta)],
      awaitTick key t]⟩

/-- The part of the end of a run that comes before the callbacks. -/
def closeRun (w : World) (o : Outcome) (key : Nat) (origin : String) : Reaction :=
  let w := w.updateHost key fun h => { h with timers := h.timers.cancelAll.2 }
  let w := w.publish key .scriptEnding .host
  ⟨w, o, [notify key ((w.host key).callbacks .scriptEnding) [], lastFlush key, finish key origin]⟩

/-- The last part of the end of a run. -/
def finishRun (w : World) (key : Nat) (origin : String) : Reaction :=
  let w := w.publish key (.finished origin) .host
  let w := w.updateHost key Host.endRun
  let w := w.publish key .runningStateChanged .host
  let w := w.publish key .doneRunning .host
  ⟨w.updateHost key Host.markDone, .returned .undefined, []⟩

/-- One task. -/
def react (w : World) (o : Outcome) : Task → Reaction
  | perform scope actions => performOne w o scope actions
  | answer action a => ⟨w.note (.answered action a), o, []⟩
  | answerRun action =>
      let a := match o with
        | .refused fault => .refused fault
        | _ => .done
      ⟨w.note (.answered action a), o, []⟩
  | answerOutcome action =>
      let a := match o with
        | .returned v => .value v
        | .faulted f => .fault f
        | .refused fault => .refused fault
      ⟨w.note (.answered action a), o, []⟩
  | release key => ⟨w.release key, o, []⟩
  | leaveThread previous => ⟨{ w with thread := previous }, o, []⟩
  | evaluate key program origin line =>
      if w.isStopping key then ⟨w, .returned .undefined, []⟩
      else ⟨w, o, [initialise key, engine key program origin line, announce key]⟩
  | engine key program origin line => enterEngine w o key program origin line
  | announce key => ⟨announceOutcome w o key, o, []⟩
  | initialise key =>
      let h := w.host key
      if h.initialized then ⟨w, o, []⟩
      else
        let w := w.setHost key { h with initialized := true }
        if h.directives then ⟨w, o, []⟩
        else
          ⟨w.note (.initialised h.name), o, [perform ⟨some key, h.name, .host⟩ h.api, report key]⟩
  | report key =>
      match o with
      | .faulted f => ⟨w.reportFault key f, o, []⟩
      | _ => ⟨w, o, []⟩
  | directives key origin lines => runDirectives w o key origin lines
  | give v => ⟨w, .returned v, []⟩
  | batch key urls results => runBatch w o key results urls
  | call key callback args => callBack w o key callback args
  | notify _ [] _ => ⟨w, o, []⟩
  | notify key (callback :: rest) args =>
      ⟨w, o, [call key callback args, report key, notify key rest args]⟩
  | beginRun key => ⟨w.updateHost key Host.beginRun, o, [confirmRun key]⟩
  | confirmRun key =>
      if w.isStopping key then
        ⟨(w.updateHost key Host.endRun).updateHost key Host.markDone, .refused .stoppingAll, []⟩
      else
        let w := w.publish key .runningStateChanged .host
        let script := (w.host key).script
        ⟨w, o, [evaluate key script.contents script.origin 1, startTicking key script.origin]⟩
  | startTicking key origin => ⟨w, o, [awaitTick key ⟨origin, w.clock, w.clock, 0⟩]⟩
  | awaitTick key t => awaitNext w o key t
  | pump key t =>
      if (w.host key).finished then ⟨w, o, [close key t.origin]⟩
      else ⟨w, o, [drain key, flush key t]⟩
  | drain key => drainOne w o key
  | fire key now due => fireOne w o key now due
  | flush key t =>
      if (w.host key).finished then ⟨w, o, [close key t.origin]⟩
      else ⟨w.flushEdits key, o, [stream key t]⟩
  | stream key t =>
      if (w.host key).finished then ⟨w, o, [close key t.origin]⟩
      else ⟨w.streamTick key, o, [update key t]⟩
  | update key t => sendUpdate w o key t
  | close key origin => closeRun w o key origin
  | lastFlush key => ⟨w.flushEdits key, o, []⟩
  | finish key origin => finishRun w key origin

end Task

namespace Machine

/-- A machine at the start of a scenario. -/
def start (world : World) (actions : List Action) : Machine :=
  ⟨world, .returned .undefined, [.perform .outside actions]⟩

/-- One step. After a crash nothing is done any more. -/
def step (m : Machine) : Machine :=
  match m.agenda with
  | [] => m
  | task :: rest =>
      let r := task.react m.world m.outcome
      ⟨r.world, r.outcome, if r.world.crashed then [] else r.next ++ rest⟩

/-- As many steps as are needed, but no more than `fuel`. -/
def run : Nat → Machine → Machine
  | 0, m => m
  | fuel + 1, m => if m.agenda.isEmpty then m else run fuel m.step

end Machine

end TickHost
