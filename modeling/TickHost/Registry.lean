import TickHost.Table

/-!
Registries of hosts. A registry knows its hosts by number and counts the stop-all calls that are
under way; while there is one, the registry is stopping all. The hosts are kept by rising number,
so that a later host never comes before an earlier one.
-/

namespace TickHost

structure Registry where
  nextId : Nat
  /-- Numbers of hosts, with the keys under which the hosts are stored. -/
  members : List (Nat × Nat)
  /-- Stop-all calls that have begun and were neither completed nor dropped. -/
  stopping : Nat
deriving Repr

namespace Registry

def empty : Registry := ⟨1, [], 0⟩

instance : Inhabited Registry := ⟨empty⟩

def isStopping (r : Registry) : Bool :=
  0 < r.stopping

def contains (r : Registry) (id : Nat) : Bool :=
  r.members.any fun (member, _) => member = id

/-- Enter a new host under the next number. -/
def register (r : Registry) (key : Nat) : Registry :=
  { r with nextId := r.nextId + 1, members := r.members ++ [(r.nextId, key)] }

def unregister (r : Registry) (id : Nat) : Registry :=
  { r with members := r.members.filter fun (member, _) => member ≠ id }

end Registry

/-- What a stop-all call waits for. -/
inductive StopStage where
  | evaluations
  | done
deriving DecidableEq, Repr

/-- A stop-all call that waits for one host, with the hosts that it has still to visit. -/
structure StopAll where
  registry : String
  host : Nat
  stage : StopStage
  rest : List (Nat × Nat)
deriving DecidableEq, Repr

/-- Something that is waited for and looked after from time to time. -/
inductive Job where
  | done (host : Nat)
  | evaluations (host : Nat)
  | stopAll (call : StopAll)
deriving DecidableEq, Repr

/-- The host that a job keeps alive. -/
def Job.host : Job → Nat
  | done host => host
  | evaluations host => host
  | stopAll call => call.host

end TickHost
