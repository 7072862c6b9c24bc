import TickHost.Avatar.Frame
import TickHost.Settings

/-!
What an avatar puts on the wire each tick. While avatar mode is on and the avatar is alive, a tick
sends the identity and billboard packets that have become due, one state packet to each avatar
mixer, and at most one audio frame to each audio mixer: the next slice of the attached sound, or
a silent frame if someone listens. A sound is cut into slices without a gap, and a cursor says how
much of it is spent.

The streamer only knows which avatar it was given. Whether that avatar still exists is decided by
its owner, who hands the avatar over, or nothing, at each tick. Times are in microseconds.
-/

namespace TickHost

structure Avatar where
  name : String
  /-- The state that follows the header of an avatar packet. -/
  state : List UInt8
  pose : Pose
deriving DecidableEq, Repr, Inhabited

/-- Something to repeat: its interval, and when it is due next if it is armed. -/
structure Schedule where
  interval : Nat
  next : Option Nat
deriving DecidableEq, Repr, Inhabited

namespace Schedule

/-- Arming what is armed already changes nothing. -/
def arm (s : Schedule) (now : Nat) : Schedule :=
  { s with next := some (s.next.getD (now + s.interval)) }

def disarm (s : Schedule) : Schedule :=
  { s with next := none }

def isDue (s : Schedule) (now : Nat) : Bool :=
  match s.next with
  | some next => next ≤ now
  | none => false

/-- After a due moment the next one is a whole interval away; missed ones are not made up. -/
def advance (s : Schedule) (now : Nat) : Schedule :=
  if s.isDue now then { s with next := some (now + s.interval) } else s

end Schedule

inductive Sent where
  | packet (peer : Nat) (bytes : List UInt8)
  | identity (avatar : String)
  | billboard (avatar : String)
deriving DecidableEq, Repr, Inhabited

structure TickReport where
  avatarPackets : Nat
  audioPackets : Nat
deriving DecidableEq, Repr, Inhabited

structure Streamer where
  isAvatar : Bool
  /-- The avatar that was attached, dead or alive. -/
  avatar : Option Nat
  listening : Bool
  sound : Option (List UInt8)
  /-- How many bytes of the sound are spent. -/
  sentBytes : Nat
  samplesPerTick : Nat
  /-- The next sequence number of each peer that has one. -/
  sequences : List (Nat × UInt16)
  identity : Schedule
  billboard : Schedule
deriving DecidableEq, Repr, Inhabited

namespace Streamer

def new (settings : HostSettings) : Streamer where
  isAvatar := false
  avatar := none
  listening := false
  sound := none
  sentBytes := 0
  samplesPerTick := settings.samplesPerTick
  sequences := []
  identity := ⟨settings.identityInterval * 1000, none⟩
  billboard := ⟨settings.billboardInterval * 1000, none⟩

/-- Avatar mode arms both schedules; leaving it disarms them. -/
def setAvatarMode (s : Streamer) (on : Bool) (now : Nat) : Streamer :=
  if on then
    { s with isAvatar := true, identity := s.identity.arm now, billboard := s.billboard.arm now }
  else
    { s with isAvatar := false, identity := s.identity.disarm, billboard := s.billboard.disarm }

def setAvatar (s : Streamer) (avatar : Option Nat) : Streamer :=
  { s with avatar }

def setListening (s : Streamer) (on : Bool) : Streamer :=
  { s with listening := on }

/-- Another sound, or none, starts at its first byte. -/
def setSound (s : Streamer) (sound : Option (List UInt8)) : Streamer :=
  { s with sound, sentBytes := 0 }

def hasSound (s : Streamer) : Bool :=
  s.sound.isSome

def nextSequence (s : Streamer) (peer : Nat) : UInt16 :=
  (s.sequences.lookup peer).getD 0

/-- A peer that comes back is numbered from zero. -/
def peerGone (s : Streamer) (peer : Nat) : Streamer :=
  { s with sequences := s.sequences.filter fun (id, _) => id ≠ peer }

/-- The sequence number of the next datagram to a peer, used up. -/
def takeSequence (s : Streamer) (peer : Nat) : UInt16 × Streamer :=
  let sequence := s.nextSequence peer
  (sequence, { s with
    sequences := (peer, sequence + 1) :: s.sequences.filter fun (id, _) => id ≠ peer })

/-- The bytes of the sound that the next tick spends. -/
def available (s : Streamer) (pcm : List UInt8) : Nat :=
  min (pcm.length - s.sentBytes) (s.samplesPerTick * 2)

/-- The whole samples of the next slice; half a sample at the end of a sound is left out. -/
def slice (s : Streamer) (pcm : List UInt8) : List UInt8 :=
  (pcm.drop s.sentBytes).take (s.available pcm / 2 * 2)

/-- Spend the next slice. A sound that is spent is detached. -/
def spend (s : Streamer) : Streamer :=
  match s.sound with
  | none => s
  | some pcm =>
      let sent := s.sentBytes + s.available pcm
      if sent = pcm.length then { s with sound := none, sentBytes := 0 }
      else { s with sentBytes := sent }

/-- The samples of the next slice, where one of them is audible. -/
def voice? (s : Streamer) : Option (List UInt8) :=
  match s.sound with
  | none => none
  | some pcm =>
      let chunk := s.slice pcm
      if chunk.all (· = 0) then none else some chunk

/-- The next audio frame; there is none if it would be silent and nobody listens. -/
def nextFrame (s : Streamer) (pose : Pose) : Option AudioFrame × Streamer :=
  match s.voice? with
  | some pcm => (some (.voiced pose pcm), s.spend)
  | none =>
      if s.listening then (some (.silent (UInt16.ofNat s.samplesPerTick) pose), s.spend)
      else (none, s.spend)

/-- Send a frame to peers one after the other, each under its own number. -/
def sendTo (frame : AudioFrame) (header : List UInt8) :
    List Peer → Streamer → List Sent × Streamer
  | [], s => ([], s)
  | peer :: rest, s =>
      let (sequence, s) := s.takeSequence peer.id
      let (sent, s) := sendTo frame header rest s
      (.packet peer.id (frame.datagram header sequence) :: sent, s)

/-- The audio part of a tick: how many datagrams were sent, and what they were. -/
def audioTick (s : Streamer) (network : Directory) (pose : Pose) : Nat × List Sent × Streamer :=
  if s.listening || s.hasSound then
    match s.nextFrame pose with
    | (none, s) => (0, [], s)
    | (some frame, s) =>
        let mixers := network.ofRole .audioMixer
        let (sent, s) := sendTo frame (network.headerOf frame.kind) mixers s
        (mixers.length, sent, s)
  else (0, [], s)

/-- The slow packets that are due. -/
def slowPackets (s : Streamer) (avatar : Avatar) (now : Nat) : List Sent :=
  (if s.identity.isDue now then [.identity avatar.name] else []) ++
    (if s.billboard.isDue now then [.billboard avatar.name] else [])

/-- One tick. Without avatar mode or without a live avatar nothing happens. -/
def tick (s : Streamer) (network : Directory) (avatar? : Option Avatar) (now : Nat) :
    TickReport × List Sent × Streamer :=
  match s.isAvatar, avatar? with
  | true, some avatar =>
      let slow := s.slowPackets avatar now
      let s := { s with identity := s.identity.advance now, billboard := s.billboard.advance now }
      let state := network.headerOf .avatarData ++ avatar.state
      let states := (network.broadcast .avatarMixer state).map fun (id, bytes) => .packet id bytes
      let (count, audio, s) := s.audioTick network avatar.pose
      (⟨1, count⟩, slow ++ states ++ audio, s)
  | _, _ => (⟨0, 0⟩, [], s)

end Streamer

end TickHost
