import TickHost.Bus
import TickHost.Table

/-!
Sessions with one event bus: named senders, which may share an outlet with the sender they were
cloned from, named receivers, and a clock that moves only when a step sleeps.
-/

namespace TickHost.Session

inductive BusStep where
  | create (sender : String) (host : Nat)
  | clone (sender copy : String)
  | publish (sender : String) (event : Event) (source : Source)
  | detach (sender : String)
  | attach (sender : String)
  | isDetached (sender : String)
  | subscribe (receiver : String)
  | unsubscribe (receiver : String)
  | count
  | sleep (microseconds : Nat)
  | receive (receiver : String)
  | drain (receiver : String)
  | unknown
deriving Repr, Inhabited

inductive BusAnswer where
  | nothing
  | number (n : Nat)
  | flag (b : Bool)
  | reading (r : Reading)
  /-- How many were missed, and the others. -/
  | drained (missed : Nat) (envelopes : List Envelope)
  | noReceiver
  | unknown
deriving Inhabited

structure BusSession where
  bus : Bus
  /-- Outlets by number; several senders may have the same one. -/
  outlets : List Outlet
  senders : Table Nat
  receivers : Table Receiver
  clock : Nat
deriving Inhabited

namespace BusSession

/-- A bus with its first receiver. -/
def new? (capacity : Nat) : Option BusSession :=
  (Bus.new? capacity).map fun bus => ⟨bus, [], [], [("first", bus.subscribe)], 0⟩

/-- Do something with the outlet of a named sender. -/
def withOutlet (s : BusSession) (sender : String)
    (act : Nat → Outlet → BusAnswer × BusSession) : BusAnswer × BusSession :=
  match s.senders.get? sender with
  | none => (.unknown, s)
  | some index =>
      match s.outlets[index]? with
      | none => (.unknown, s)
      | some outlet => act index outlet

def setOutlet (s : BusSession) (index : Nat) (outlet : Outlet) : BusSession :=
  { s with outlets := s.outlets.set index outlet }

def step (s : BusSession) : BusStep → BusAnswer × BusSession
  | .create sender host =>
      (.number host, { s with
        outlets := s.outlets ++ [.new host], senders := s.senders.put sender s.outlets.length })
  | .clone sender copy =>
      s.withOutlet sender fun index _ => (.nothing, { s with senders := s.senders.put copy index })
  | .publish sender event source =>
      s.withOutlet sender fun index outlet =>
        let (envelope, outlet) := outlet.publish s.clock event source
        let s := s.setOutlet index outlet
        match envelope with
        | some e => (.nothing, { s with bus := s.bus.push e })
        | none => (.nothing, s)
  | .detach sender =>
      s.withOutlet sender fun index outlet => (.flag true, s.setOutlet index outlet.detach)
  | .attach sender =>
      s.withOutlet sender fun index outlet => (.flag false, s.setOutlet index outlet.attach)
  | .isDetached sender => s.withOutlet sender fun _ outlet => (.flag outlet.detached, s)
  | .subscribe receiver =>
      let receivers := s.receivers.put receiver s.bus.subscribe
      (.number receivers.length, { s with receivers })
  | .unsubscribe receiver =>
      let receivers := s.receivers.erase receiver
      (.number receivers.length, { s with receivers })
  | .count => (.number s.receivers.length, s)
  | .sleep microseconds => (.nothing, { s with clock := s.clock + microseconds })
  | .receive receiver =>
      match s.receivers.get? receiver with
      | none => (.noReceiver, s)
      | some r =>
          let (reading, r) := s.bus.read r
          (.reading reading, { s with receivers := s.receivers.put receiver r })
  | .drain receiver =>
      match s.receivers.get? receiver with
      | none => (.nothing, s)
      | some r =>
          let (missed, envelopes, r) := s.bus.drain r
          (.drained missed envelopes, { s with receivers := s.receivers.put receiver r })
  | .unknown => (.unknown, s)

def run : BusSession → List BusStep → List BusAnswer
  | _, [] => []
  | s, action :: rest =>
      let (answer, s) := s.step action
      answer :: run s rest

end BusSession

end TickHost.Session
