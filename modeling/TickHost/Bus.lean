import TickHost.Event

/-!
Buses carry the events of hosts to any number of receivers. A bus keeps its newest envelopes, as
many as its capacity rounded up to a power of two; a receiver that falls further behind is told
how many it missed and goes on with the oldest one kept. The model holds the whole history of a
bus and lets `Bus.oldest` say where the part that is still readable begins.

An outlet is a host's end of a bus. It remembers what it has published and numbers each event by
how many went before it; while it is detached it publishes nothing and uses up no number.
-/

namespace TickHost

structure Bus where
  capacity : Nat
  history : Array Envelope
deriving Inhabited

/-- A place to read a bus from: the position of the next envelope. -/
structure Receiver where
  next : Nat
deriving DecidableEq, Repr, Inhabited

/-- What a receiver finds at its position. -/
inductive Reading where
  | got (envelope : Envelope)
  | lagged (missed : Nat)
  | empty
deriving Inhabited

namespace Bus

/-- The largest capacity that a bus can be asked for. -/
def capacityLimit : Nat := Nat.pow 2 63 - 1

/-- A bus needs room for one envelope. -/
def new? (capacity : Nat) : Option Bus :=
  if capacity = 0 ∨ capacityLimit < capacity then none
  else some ⟨capacity.nextPowerOfTwo, #[]⟩

def push (b : Bus) (e : Envelope) : Bus :=
  { b with history := b.history.push e }

/-- The position of the oldest envelope that can still be read. -/
def oldest (b : Bus) : Nat :=
  b.history.size - b.capacity

/-- A receiver gets what is published after it was made. -/
def subscribe (b : Bus) : Receiver :=
  ⟨b.history.size⟩

/-- One attempt to read, and the receiver after it. -/
def read (b : Bus) (r : Receiver) : Reading × Receiver :=
  if r.next < b.oldest then (.lagged (b.oldest - r.next), ⟨b.oldest⟩)
  else match b.history[r.next]? with
    | some e => (.got e, ⟨r.next + 1⟩)
    | none => (.empty, r)

/-- Everything a receiver can read at once: how many envelopes it missed, and the others. -/
def drain (b : Bus) (r : Receiver) : Nat × List Envelope × Receiver :=
  let first := max r.next b.oldest
  (first - r.next, b.history.toList.drop first, ⟨max first b.history.size⟩)

end Bus

structure Outlet where
  host : Nat
  /-- What it has put on the bus so far. -/
  sent : Array Envelope
  detached : Bool
deriving Repr, Inhabited

namespace Outlet

def new (host : Nat) : Outlet := ⟨host, #[], false⟩

def detach (o : Outlet) : Outlet := { o with detached := true }

def attach (o : Outlet) : Outlet := { o with detached := false }

/-- The envelope that a publication puts on the bus, if any, and the outlet after it. -/
def publish (o : Outlet) (time : Nat) (event : Event) (source : Source) :
    Option Envelope × Outlet :=
  if o.detached then (none, o)
  else
    let envelope : Envelope := ⟨.new o.host o.sent.size, time, source, event⟩
    (some envelope, { o with sent := o.sent.push envelope })

end Outlet

end TickHost
