/-!
The network as a host sees it: a directory of peers with their roles, packets that start with a
kind and its version, and a queue of entity edits that can be flushed. Delivery is unreliable and
nothing comes back, so sending is just a record of what was sent.
-/

namespace TickHost

inductive Role where
  /-- Mixes the audio of avatars. -/
  | audioMixer
  /-- Mixes the state of avatars. -/
  | avatarMixer
  | entityServer
  | other
deriving DecidableEq, Repr, Inhabited

structure Peer where
  id : Nat
  role : Role
deriving DecidableEq, Repr, Inhabited

inductive PacketKind where
  | microphoneAudio
  | silentAudio
  | avatarData
deriving DecidableEq, Repr

namespace PacketKind

def code : PacketKind → UInt8
  | microphoneAudio => 3
  | silentAudio => 5
  | avatarData => 6

def version : PacketKind → UInt8
  | microphoneAudio | silentAudio => 4
  | avatarData => 3

end PacketKind

structure Directory where
  peers : List Peer
  /-- A header that replaces the usual one on every packet. -/
  header : Option (List UInt8)
deriving Repr, Inhabited

namespace Directory

def headerOf (d : Directory) (kind : PacketKind) : List UInt8 :=
  d.header.getD [kind.code, kind.version]

/-- The peers of one role, in the order of the directory. -/
def ofRole (d : Directory) (role : Role) : List Peer :=
  d.peers.filter fun p => p.role = role

def add (d : Directory) (p : Peer) : Directory :=
  { d with peers := d.peers ++ [p] }

/-- Forget every entry of a peer. -/
def remove (d : Directory) (id : Nat) : Directory :=
  { d with peers := d.peers.filter fun p => p.id ≠ id }

def knows (d : Directory) (id : Nat) : Bool :=
  d.peers.any fun p => p.id = id

/-- One datagram for each peer of a role. -/
def broadcast (d : Directory) (role : Role) (bytes : List UInt8) : List (Nat × List UInt8) :=
  (d.ofRole role).map fun p => (p.id, bytes)

end Directory

/-- A queue of entity edits, as far as a flush looks at it. -/
structure EditQueue where
  serversExist : Bool
  /-- The queue sends on a thread of its own. -/
  isThreaded : Bool
deriving DecidableEq, Repr, Inhabited

inductive QueueCall where
  | serversExist
  | release
  | isThreaded
  | process
deriving DecidableEq, Repr, Inhabited

/-- The calls that a flush makes. Without servers nothing is released, and a queue without a
thread is processed at once. -/
def EditQueue.flush (q : EditQueue) : List QueueCall :=
  if !q.serversExist then [.serversExist]
  else if q.isThreaded then [.serversExist, .release, .isThreaded]
  else [.serversExist, .release, .isThreaded, .process]

end TickHost
