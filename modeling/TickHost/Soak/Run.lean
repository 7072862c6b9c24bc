import TickHost.Machine
import TickHost.Soak.Arguments
import TickHost.Soak.Counts

/-!
Carrying a soak run out. The hosts of a soak run share a bus and nothing else, so they are run one
after the other, each for as long as the whole run is to last; what they announce is the same as
if they ran side by side. A host whose time is up is stopped together with its registry, which
cuts its events off before its run ends.
-/

namespace TickHost.Soak

structure Run where
  machine : Machine
  settings : HostSettings
  counts : Counts
  verbose : Bool

namespace Run

/-- The bus of all hosts, which is also the name of its receiver. -/
def bus : String := "soak"

/-- The name of the host at work. -/
def worker : String := "worker"

/-- The stop-all call at the end of a host's time. -/
def stopJob : String := "stop"

/-- More updates than a run can have. -/
def noLimit : Nat := Nat.pow 2 128

def plan (settings : HostSettings) : HostPlan where
  name := worker
  contents := ""
  origin := ""
  parent := none
  settings := settings
  registry := ""
  bus := some bus
  fetcher := some ⟨true, false, false, false⟩
  onNetwork := false
  queue := none
  directives := true
  maxUpdates := noLimit

def start (disk : Disk) (settings : HostSettings) (verbose : Bool) : Run :=
  let world := World.start disk [] [] [] ⟨[], none⟩
  ⟨.start world [.onWorld (.openBus bus settings.eventCapacity)], settings, .zero, verbose⟩

/-- Put more on the agenda. -/
def schedule (r : Run) (actions : List Action) : Run :=
  let m := r.machine
  { r with machine := { m with agenda := m.agenda ++ [.perform .outside actions] } }

/-- Build a host for a script and run it. -/
def beginHost (r : Run) (script : String) : Run :=
  r.schedule [.build (plan r.settings) [], .onHost (some worker) (.loadUrl script),
    .onWorld (.spawn worker)]

/-- Stop the host at work. -/
def stopHost (r : Run) : Run :=
  let m := r.machine
  { r with machine := { m with world := (m.world.stopAll "" stopJob).1 } }

/-- Let the stop-all call come to its end, and let go of the host. -/
def endHost (r : Run) : Run :=
  r.schedule [.onWorld (.poll stopJob), .onWorld (.dropHandle worker)]

def isIdle (r : Run) : Bool :=
  r.machine.agenda.isEmpty

/-- The files that a directive is about to include. -/
def included (w : World) (key : Nat) (directive : List Char) : List Url :=
  match Directive.read directive with
  | .ok (.includeAll references) => references.filterMap (w.host key).resolve?
  | _ => []

/-- The files that the next step reads. -/
def filesWanted (r : Run) : List Url :=
  match r.machine.agenda with
  | .directives key _ ((_, directive) :: _) :: _ => included r.machine.world key directive
  | .call key (.script directive) _ :: _ => included r.machine.world key directive.toList
  | _ => []

def withDisk (r : Run) (disk : Disk) : Run :=
  let m := r.machine
  { r with machine := { m with world := { m.world with disk } } }

def step (r : Run) : Run :=
  { r with machine := r.machine.step }

/-- The next announcement, if there is one: the run that has counted it, and what is told. -/
def hear? (r : Run) : Option (Run × Option String) :=
  let w := r.machine.world
  match w.receivers.get? bus with
  | none => none
  | some s =>
      let (reading, receiver) := (w.buses.get s.bus).read s.receiver
      let world := { w with receivers := w.receivers.put bus { s with receiver } }
      let r := { r with machine := { r.machine with world } }
      match reading with
      | .empty => none
      | .lagged missed =>
          some (r, some ("Stats consumer lagged, skipped " ++ toString missed ++ " events"))
      | .got e => some ({ r with counts := r.counts.count e.event }, notice? r.verbose e)

/-- How many hosts are still registered. -/
def registered (r : Run) : Nat :=
  (r.machine.world.registry "").members.length

end Run

end TickHost.Soak
