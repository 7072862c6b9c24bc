import TickHost.World

/-!
Stopping all hosts of a registry. A stop-all call visits the hosts that were registered when it
began, one after the other. For each that runs it waits until no evaluation is under way, cuts its
events off, asks it to stop and waits until its run is over. The registry is stopping all from the
beginning of the call until the call is complete or dropped, and calls may overlap.

A call only moves on when it is polled, and then as far as it can.
-/

namespace TickHost.World

/-- Cut the events of a host off and ask it to stop. -/
def cutOff (w : World) (key : Nat) : World :=
  (w.updateHost key fun h => { h with outlet := h.outlet.detach }).requestStop key

/-- The end of a call: forget the hosts that are gone, and end the stopping. -/
def endStopAll (w : World) (registry : String) : World :=
  w.updateRegistry registry fun r =>
    { r with members := r.members.filter (fun (_, key) => w.isShared key)
             stopping := r.stopping - 1 }

/-- Visit hosts until one has to be waited for. -/
def visitAll (registry : String) : List (Nat × Nat) → World → Option StopAll × World
  | [], w => (none, w.endStopAll registry)
  | (id, key) :: rest, w =>
      if !w.isShared key then
        visitAll registry rest (w.updateRegistry registry fun r => r.unregister id)
      else if !(w.host key).running then visitAll registry rest w
      else if 0 < (w.host key).pending then (some ⟨registry, key, .evaluations, rest⟩, w)
      else
        let w := w.cutOff key
        if (w.host key).done then
          visitAll registry rest (w.updateRegistry registry fun r => r.unregister id)
        else (some ⟨registry, key, .done, rest⟩, w)

/-- The visit of the awaited host is complete. -/
def visited (w : World) (call : StopAll) : Option StopAll × World :=
  visitAll call.registry call.rest
    (w.updateRegistry call.registry fun r => r.unregister (w.host call.host).id)

/-- Move a call on as far as it gets; nothing is left of it when it is complete. -/
def resume (w : World) (call : StopAll) : Option StopAll × World :=
  match call.stage with
  | .evaluations =>
      if 0 < (w.host call.host).pending then (some call, w)
      else
        let w := w.cutOff call.host
        if (w.host call.host).done then w.visited call
        else (some { call with stage := .done }, w)
  | .done => if (w.host call.host).done then w.visited call else (some call, w)

/-- Drop a job. A stop-all call that is dropped stops nothing any more. -/
def abandon (w : World) (job : Job) : World :=
  match job with
  | .stopAll call =>
      w.updateRegistry call.registry fun r => { r with stopping := r.stopping - 1 }
  | _ => w

def dropJob (w : World) (name : String) : World × Answer :=
  match w.jobs.get? name with
  | none => (w, .flag false)
  | some job => ({ w with jobs := w.jobs.erase name }.abandon job, .flag true)

/-- Keep a job that has to wait. An older one of its name is dropped. -/
def keep (w : World) (name : String) (job : Job) : World × Answer :=
  let w := match w.jobs.get? name with
    | some old => w.abandon old
    | none => w
  ({ w with jobs := w.jobs.put name job }, .pending)

/-- Keep what is left of a stop-all call, if it is not complete. -/
def keepCall (name : String) : Option StopAll × World → World × Answer
  | (none, w) => (w, .ready)
  | (some call, w) => w.keep name (.stopAll call)

def stopAll (w : World) (registry name : String) : World × Answer :=
  let w := w.updateRegistry registry fun r => { r with stopping := r.stopping + 1 }
  keepCall name (visitAll registry (w.registry registry).members w)

/-- Whether what a job waits for has come about, for the jobs that only wait. -/
def isReady (w : World) : Job → Bool
  | .done key => (w.host key).done
  | .evaluations key => (w.host key).pending = 0
  | .stopAll _ => false

def wait (w : World) (name : String) (job : Job) : World × Answer :=
  if w.isReady job then (w, .ready) else w.keep name job

/-- Look after a job again. One that is ready is not kept any longer. -/
def poll (w : World) (name : String) : World × Answer :=
  match w.jobs.get? name with
  | none => (w, .missing .job)
  | some job =>
      let w := { w with jobs := w.jobs.erase name }
      match job with
      | .stopAll call => keepCall name (w.resume call)
      | job => w.wait name job

end TickHost.World
