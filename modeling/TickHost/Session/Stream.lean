import TickHost.Avatar.Pool

/-!
Sessions with one avatar streamer, a pool of named avatars and a directory of peers. Each step is
answered with its result, what it sent, and what can be asked of the streamer afterwards.
-/

namespace TickHost.Session

inductive StreamStep where
  | makeAvatar (avatar : Avatar)
  | attach (avatar : String)
  | dropAvatar (avatar : String)
  | mode (on : Bool) (now : Nat)
  | listen (on : Bool)
  | sound (pcm : Option (List UInt8))
  | addPeer (peer : Peer)
  | removePeer (id : Nat)
  | peerGone (id : Nat)
  | nextSequence (id : Nat)
  | tick (now : Nat)
  /-- Several ticks at one time; what the last one did is answered. -/
  | ticks (count now : Nat)
  | frame (avatar : String)
  | unknown
deriving Repr, Inhabited

inductive StreamAnswer where
  | nothing
  | flag (b : Bool)
  | number (n : Nat)
  | report (r : TickReport)
  | frame (f : Option AudioFrame)
  | noAvatar
  | unknown
deriving Repr, Inhabited

structure StreamState where
  isAvatar : Bool
  listening : Bool
  hasSound : Bool
  sentBytes : Nat
  avatarAlive : Bool
deriving Repr, Inhabited

structure StreamSession where
  streamer : Streamer
  network : Directory
  avatars : AvatarPool
deriving Inhabited

namespace StreamSession

def new (settings : HostSettings) (network : Directory) : StreamSession :=
  ⟨.new settings, network, .empty⟩

def state (s : StreamSession) : StreamState where
  isAvatar := s.streamer.isAvatar
  listening := s.streamer.listening
  hasSound := s.streamer.hasSound
  sentBytes := s.streamer.sentBytes
  avatarAlive := (s.avatars.attached? s.streamer).isSome

def withStreamer (s : StreamSession) (change : Streamer → Streamer) : StreamSession :=
  { s with streamer := change s.streamer }

def tick (s : StreamSession) (now : Nat) : TickReport × List Sent × StreamSession :=
  let (report, sent, streamer) :=
    s.streamer.tick s.network (s.avatars.attached? s.streamer) now
  (report, sent, { s with streamer })

def ticks (now : Nat) : Nat → TickReport × List Sent → StreamSession →
    TickReport × List Sent × StreamSession
  | 0, (report, sent), s => (report, sent, s)
  | count + 1, _, s =>
      let (report, sent, s) := s.tick now
      ticks now count (report, sent) s

def step (s : StreamSession) : StreamStep → StreamAnswer × List Sent × StreamSession
  | .makeAvatar avatar =>
      let (key, avatars) := s.avatars.make avatar
      (.nothing, [], { s with avatars, streamer := s.streamer.setAvatar (some key) })
  | .attach avatar =>
      (.nothing, [], s.withStreamer fun t => t.setAvatar (s.avatars.named? avatar))
  | .dropAvatar avatar =>
      let (was, avatars) := s.avatars.drop avatar
      (.flag was, [], { s with avatars })
  | .mode on now => (.nothing, [], s.withStreamer fun t => t.setAvatarMode on now)
  | .listen on => (.nothing, [], s.withStreamer fun t => t.setListening on)
  | .sound pcm =>
      let answer := match pcm with
        | some bytes => .number bytes.length
        | none => .nothing
      (answer, [], s.withStreamer fun t => t.setSound pcm)
  | .addPeer peer => (.flag true, [], { s with network := s.network.add peer })
  | .removePeer id =>
      (.flag (s.network.knows id), [], { s with network := s.network.remove id })
  | .peerGone id => (.nothing, [], s.withStreamer fun t => t.peerGone id)
  | .nextSequence id => (.number (s.streamer.nextSequence id).toNat, [], s)
  | .tick now =>
      let (report, sent, s) := s.tick now
      (.report report, sent, s)
  | .ticks count now =>
      let (report, sent, s) := ticks now count (⟨0, 0⟩, []) s
      (.report report, sent, s)
  | .frame avatar =>
      match (s.avatars.named? avatar).bind s.avatars.find? with
      | none => (.noAvatar, [], s)
      | some a =>
          let (frame, streamer) := s.streamer.nextFrame a.pose
          (.frame frame, [], { s with streamer })
  | .unknown => (.unknown, [], s)

def run : StreamSession → List StreamStep → List (StreamAnswer × List Sent × StreamState)
  | _, [] => []
  | s, action :: rest =>
      let (answer, sent, s) := s.step action
      (answer, sent, s.state) :: run s rest

end StreamSession

end TickHost.Session
