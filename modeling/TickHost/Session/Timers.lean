import TickHost.Table
import TickHost.Timer

/-!
Sessions with timer tables: a list of steps, each on a table given by name, answered one by one.
Timers have names too, and a name may be used with any table, so that a handle can be tried where
it does not belong. The callback of a timer is its name.
-/

namespace TickHost.Session

inductive TimerStep where
  | schedule (name : String) (interval : Nat) (once : Bool) (now : Nat)
  | due (now : Nat)
  | fire (name : String) (now : Nat)
  | cancel (name : String)
  | contains (name : String)
  | cancelAll
  | active
  /-- Fire all due timers in turn; the named timer is cancelled after each of them. -/
  | pump (name : String) (now : Nat)
  | unknown
deriving Repr, Inhabited

inductive TimerAnswer where
  | id (id : TimerId)
  | ids (ids : List TimerId)
  | callback (name : Option String)
  | flag (b : Bool)
  | count (n : Nat)
  | fired (timers : List (TimerId × Option String))
  | unknown
deriving Repr, Inhabited

structure TimerSession where
  tables : Table (Timers String)
  ids : Table TimerId
deriving Inhabited

namespace TimerSession

/-- Fire timers one after the other, cancelling `victim` after each. -/
def fireEach (now : Nat) (victim : Option TimerId) :
    List TimerId → Timers String → List (TimerId × Option String) × Timers String
  | [], t => ([], t)
  | id :: rest, t =>
      let (callback, t) := t.fire id now
      let t := match victim with
        | some v => (t.cancel v).2
        | none => t
      let (fired, t) := fireEach now victim rest t
      ((id, callback) :: fired, t)

/-- Do something with the handle of a named timer. -/
def withTimer (s : TimerSession) (t : Timers String) (name : String)
    (act : TimerId → TimerAnswer × Timers String) : TimerAnswer × Timers String :=
  match s.ids.get? name with
  | some id => act id
  | none => (.unknown, t)

/-- One step on one table: the answer, the table after it, and a handle to remember. -/
def step (s : TimerSession) (t : Timers String) :
    TimerStep → TimerAnswer × Timers String × Option (String × TimerId)
  | .schedule name interval once now =>
      let (id, t) := t.schedule name interval once now
      (.id id, t, some (name, id))
  | .due now => (.ids (t.due now), t, none)
  | .fire name now =>
      let (answer, t) := s.withTimer t name fun id =>
        let (callback, t) := t.fire id now
        (.callback callback, t)
      (answer, t, none)
  | .cancel name =>
      let (answer, t) := s.withTimer t name fun id =>
        let (live, t) := t.cancel id
        (.flag live, t)
      (answer, t, none)
  | .contains name =>
      let (answer, t) := s.withTimer t name fun id => (.flag (t.contains id), t)
      (answer, t, none)
  | .cancelAll =>
      let (count, t) := t.cancelAll
      (.count count, t, none)
  | .active => (.count t.active, t, none)
  | .pump name now =>
      let (fired, t) := fireEach now (s.ids.get? name) (t.due now) t
      (.fired fired, t, none)
  | .unknown => (.unknown, t, none)

/-- The answers to a list of steps, each with the number of active timers of its table. -/
def run : TimerSession → List (String × TimerStep) → List (TimerAnswer × Nat)
  | _, [] => []
  | s, (name, action) :: rest =>
      let (answer, t, handle) := s.step ((s.tables.get? name).getD .empty) action
      let ids := match handle with
        | some (timer, id) => s.ids.put timer id
        | none => s.ids
      (answer, t.active) :: run ⟨s.tables.put name t, ids⟩ rest

end TimerSession

end TickHost.Session
