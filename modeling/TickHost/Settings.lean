import TickHost.Binary.Number

/-!
The settings of a host: how fast it ticks, the rate of its audio, and how often it repeats the
slow avatar packets.
-/

namespace TickHost

open Binary

structure HostSettings where
  /-- Microseconds from one tick to the next. -/
  tickInterval : Nat
  /-- Samples per second of the audio that an avatar streams. -/
  sampleRate : Nat
  /-- Milliseconds between identity packets. -/
  identityInterval : Nat
  /-- Milliseconds between billboard packets. -/
  billboardInterval : Nat
  /-- How many events the bus of a host keeps, where the host has a bus of its own. -/
  eventCapacity : Nat
deriving DecidableEq, Repr

namespace HostSettings

def standard : HostSettings := ⟨16667, 24000, 1000, 5000, 1024⟩

instance : Inhabited HostSettings := ⟨standard⟩

/-- All numbers have their widths: 64 bits, and 32 for the rate. -/
def Fits (s : HostSettings) : Prop :=
  s.tickInterval < Nat.pow 2 64 ∧ s.sampleRate < Nat.pow 2 32 ∧
    s.identityInterval < Nat.pow 2 64 ∧ s.billboardInterval < Nat.pow 2 64 ∧
    s.eventCapacity < Nat.pow 2 64

instance (s : HostSettings) : Decidable s.Fits := by
  unfold Fits
  infer_instance

/-- The standard settings with another tick interval. The interval is a 64-bit count. -/
def withTickInterval (microseconds : Nat) : HostSettings :=
  { standard with tickInterval := microseconds % Nat.pow 2 64 }

/-- The largest count that a silent frame can carry. -/
def sampleLimit : Nat := 65535

/-- Samples in one tick, a half rounded up, in double precision throughout. -/
def samplesPerTick (s : HostSettings) : Nat :=
  let f := Format.double
  let samples :=
    f.div (f.mul (f.ofNat s.tickInterval) (f.ofNat s.sampleRate)) (f.ofNat 1000000)
  min (f.floor (f.add samples (f.nearest 1 2))) sampleLimit

end HostSettings

end TickHost
