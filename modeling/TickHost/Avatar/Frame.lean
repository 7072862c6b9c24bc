import TickHost.Binary.Number
import TickHost.Network

/-!
Audio frames and their datagrams. A datagram is a header, a sequence number of two bytes and the
body of the frame; all numbers are written least significant byte first. The body of a silent
frame is its count and the pose, that of a voiced frame a zero for the single channel, the pose
and the samples.
-/

namespace TickHost

open Binary

structure Vector3 where
  x : Single
  y : Single
  z : Single
deriving DecidableEq, Repr, Inhabited

structure Orientation where
  x : Single
  y : Single
  z : Single
  w : Single
deriving DecidableEq, Repr, Inhabited

structure Pose where
  position : Vector3
  orientation : Orientation
deriving DecidableEq, Repr, Inhabited

def Pose.components (p : Pose) : List Single :=
  [p.position.x, p.position.y, p.position.z,
    p.orientation.x, p.orientation.y, p.orientation.z, p.orientation.w]

def Pose.toBytes (p : Pose) : List UInt8 :=
  p.components.flatMap Single.toBytes

/-- Two bytes, least significant first. -/
def shortBytes (n : UInt16) : List UInt8 :=
  [n.toUInt8, (n >>> 8).toUInt8]

/-- Samples of sixteen bits as bytes. -/
def soundOfSamples (samples : List Int16) : List UInt8 :=
  samples.flatMap fun s => shortBytes s.toUInt16

inductive AudioFrame where
  /-- Nothing audible; the mixer holds as many samples. -/
  | silent (samples : UInt16) (pose : Pose)
  | voiced (pose : Pose) (pcm : List UInt8)
deriving DecidableEq, Repr, Inhabited

namespace AudioFrame

def kind : AudioFrame → PacketKind
  | silent _ _ => .silentAudio
  | voiced _ _ => .microphoneAudio

/-- The samples that a frame accounts for. -/
def sampleCount : AudioFrame → Nat
  | silent samples _ => samples.toNat
  | voiced _ pcm => pcm.length / 2

def pose : AudioFrame → Pose
  | silent _ pose => pose
  | voiced pose _ => pose

def body : AudioFrame → List UInt8
  | silent samples pose => shortBytes samples ++ pose.toBytes
  | voiced pose pcm => 0 :: pose.toBytes ++ pcm

/-- The datagram under a sequence number, which follows the header. -/
def datagram (f : AudioFrame) (header : List UInt8) (sequence : UInt16) : List UInt8 :=
  header ++ shortBytes sequence ++ f.body

end AudioFrame

end TickHost
