import TickHost.Proofs.Numbering

/-!
What one tick puts on the wire. Without avatar mode or a living avatar it is nothing, and the
streamer stays as it is. Otherwise each avatar mixer gets the state of the avatar, in the order of
the directory, and after that each audio mixer gets the frame, if there is one: a voiced frame if a
sample of the slice is not zero, a silent one if there is no such sample but somebody listens.
-/

namespace TickHost.Streamer

/-- The packets among what was sent, with the peers that they are for. -/
def packetsOf (sent : List Sent) : List (Nat × List UInt8) :=
  sent.filterMap fun
    | .packet peer bytes => some (peer, bytes)
    | .identity _ | .billboard _ => none

/-- The samples of a slice, as pairs of bytes. Half a sample at its end is none. -/
def samplesOf : List UInt8 → List (UInt8 × UInt8)
  | low :: high :: rest => (low, high) :: samplesOf rest
  | [_] | [] => []

/-- The bytes of the sound that the next tick spends, without half a sample at their end. -/
def tickSlice (s : Streamer) : List UInt8 :=
  match s.sound with
  | none => []
  | some pcm =>
      wholeSamples (bytesIn pcm (s.sentBytes, min (s.sentBytes + 2 * s.samplesPerTick) pcm.length))

/-- A sample of the slice is not zero. -/
def Audible (s : Streamer) : Prop :=
  ∃ sample ∈ samplesOf s.tickSlice, sample ≠ (0, 0)

instance (s : Streamer) : Decidable s.Audible :=
  inferInstanceAs (Decidable (∃ sample ∈ samplesOf s.tickSlice, sample ≠ (0, 0)))

/-- These packets are one datagram of the frame for each audio mixer of a directory, in its order,
each under a number of its own. -/
def Casts (network : Directory) (frame : AudioFrame) (packets : List (Nat × List UInt8)) : Prop :=
  ∃ numbers : List UInt16, numbers.length = (network.ofRole .audioMixer).length ∧
    packets = List.zipWith (fun entry number =>
      (entry.id, frame.datagram (network.headerOf frame.kind) number))
        (network.ofRole .audioMixer) numbers

/-- What a tick in avatar mode sends to audio mixers. -/
def Speaks (s : Streamer) (network : Directory) (pose : Pose)
    (packets : List (Nat × List UInt8)) : Prop :=
  if s.Audible then Casts network (.voiced pose s.tickSlice) packets
  else if s.listening then
    ∃ count : UInt16, count.toNat = s.samplesPerTick ∧ Casts network (.silent count pose) packets
  else packets = []

section Packets

variable (s : Streamer)

theorem even_length_wholeSamples (bytes : List UInt8) : (wholeSamples bytes).length % 2 = 0 := by
  rw [wholeSamples, List.length_take]
  omega

/-- All samples are zero if all bytes are, where no half sample is left over. -/
theorem all_zero_iff {bytes : List UInt8} (heven : bytes.length % 2 = 0) :
    (bytes.all (· = 0) = true) ↔ ∀ sample ∈ samplesOf bytes, sample = (0, 0) := by
  induction bytes using samplesOf.induct with
  | case1 low high rest ih =>
      have hrest : rest.length % 2 = 0 := by
        simp only [List.length_cons] at heven
        omega
      simp [samplesOf, ih hrest, and_assoc]
  | case2 byte => simp at heven
  | case3 => simp [samplesOf]

theorem tickSlice_eq {pcm : List UInt8} (hsound : s.sound = some pcm) :
    s.tickSlice = s.slice pcm := by
  rw [slice_eq]
  simp only [tickSlice, hsound, bytesIn]
  congr 1
  rw [List.take_eq_take_iff, List.length_drop, available]
  omega

/-- There is a voice where the slice is audible. -/
theorem voice_eq : s.voice? = if s.Audible then some s.tickSlice else none := by
  cases hsound : s.sound with
  | none =>
      have hquiet : ¬ s.Audible := by simp [Audible, tickSlice, hsound, samplesOf]
      simp [voice?, hsound, hquiet]
  | some pcm =>
      have heven : s.tickSlice.length % 2 = 0 := by
        simp only [tickSlice, hsound]
        exact even_length_wholeSamples _
      have hquiet : (s.slice pcm).all (· = 0) = true ↔ ¬ s.Audible := by
        rw [← s.tickSlice_eq hsound, all_zero_iff heven]
        simp [Audible]
      simp only [voice?, hsound, hquiet, ite_not, s.tickSlice_eq hsound]

/-- The frame of a tick. -/
theorem nextFrame_eq (pose : Pose) :
    (s.nextFrame pose).1 =
      if s.Audible then some (.voiced pose s.tickSlice)
      else if s.listening then some (.silent (UInt16.ofNat s.samplesPerTick) pose)
      else none := by
  rw [nextFrame, voice_eq]
  by_cases haudible : s.Audible
  · simp only [haudible, ite_true]
  · simp only [haudible, ite_false]
    split <;> rfl

theorem sendTo_casts (frame : AudioFrame) (header : List UInt8) (peers : List Peer) :
    ∃ numbers : List UInt16, numbers.length = peers.length ∧
      packetsOf (sendTo frame header peers s).1 = List.zipWith (fun entry number =>
        (entry.id, frame.datagram header number)) peers numbers := by
  induction peers generalizing s with
  | nil => exact ⟨[], rfl, rfl⟩
  | cons first rest ih =>
      obtain ⟨numbers, hlength, hpackets⟩ := ih (s.takeSequence first.id).2
      refine ⟨s.nextSequence first.id :: numbers, congrArg (· + 1) hlength, ?_⟩
      rw [List.zipWith_cons_cons, ← hpackets]
      rfl

/-- Only audio mixers of the directory get datagrams of a frame. -/
theorem mixer_of_casts {network : Directory} {frame : AudioFrame}
    {packets : List (Nat × List UInt8)} (hcasts : Casts network frame packets)
    {packet : Nat × List UInt8} (hmem : packet ∈ packets) :
    ∃ entry ∈ network.ofRole .audioMixer, entry.id = packet.1 := by
  obtain ⟨numbers, hlength, rfl⟩ := hcasts
  obtain ⟨i, hi, rfl⟩ := List.mem_iff_getElem.mp hmem
  rw [List.length_zipWith] at hi
  refine ⟨(network.ofRole .audioMixer)[i], List.getElem_mem _, ?_⟩
  simp

variable {s} in
theorem mixer_of_speaks {network : Directory} {pose : Pose} {packets : List (Nat × List UInt8)}
    (hspeaks : s.Speaks network pose packets) {packet : Nat × List UInt8}
    (hmem : packet ∈ packets) : ∃ entry ∈ network.ofRole .audioMixer, entry.id = packet.1 := by
  rw [Speaks] at hspeaks
  split at hspeaks
  · exact mixer_of_casts hspeaks hmem
  · split at hspeaks
    · obtain ⟨count, -, hcasts⟩ := hspeaks
      exact mixer_of_casts hcasts hmem
    · simp [hspeaks] at hmem

theorem packetsOf_slow (avatar : Avatar) (now : Nat) :
    packetsOf (s.slowPackets avatar now) = [] := by
  rw [packetsOf, List.filterMap_eq_nil_iff]
  intro packet hmem
  obtain ⟨name, rfl | rfl⟩ := slow_of_mem hmem <;> rfl

theorem packetsOf_states (network : Directory) (avatar : Avatar) :
    packetsOf (statePackets network avatar) = (network.ofRole .avatarMixer).map fun entry =>
      (entry.id, network.headerOf .avatarData ++ avatar.state) := by
  simp [packetsOf, statePackets, Function.comp_def]

/-- What a tick in avatar mode sends to mixers. -/
theorem tick_packets (network : Directory) (avatar : Avatar) (now : Nat)
    (hmode : s.isAvatar = true) (hsamples : s.samplesPerTick < 65536) :
    ∃ audio, packetsOf (s.tick network (some avatar) now).2.1 =
        (network.ofRole .avatarMixer).map (fun entry =>
          (entry.id, network.headerOf .avatarData ++ avatar.state)) ++ audio ∧
      s.Speaks network avatar.pose audio := by
  rw [tick_parts s network avatar now hmode]
  have hahead : packetsOf (s.slowPackets avatar now ++ statePackets network avatar) =
      (network.ofRole .avatarMixer).map fun entry =>
        (entry.id, network.headerOf .avatarData ++ avatar.state) := by
    rw [packetsOf, List.filterMap_append, ← packetsOf, ← packetsOf, packetsOf_slow,
      packetsOf_states, List.nil_append]
  have hsplit : ∀ audio : List Sent,
      packetsOf (s.slowPackets avatar now ++ statePackets network avatar ++ audio) =
        (network.ofRole .avatarMixer).map (fun entry =>
          (entry.id, network.headerOf .avatarData ++ avatar.state)) ++ packetsOf audio := by
    intro audio
    rw [← hahead, packetsOf, List.filterMap_append]
    rfl
  refine ⟨_, hsplit _, ?_⟩
  rw [nextFrame_eq]
  by_cases haudible : s.Audible
  · rw [Speaks, if_pos haudible, if_pos haudible]
    exact sendTo_casts ..
  · rw [Speaks, if_neg haudible, if_neg haudible]
    cases hlistening : s.listening with
    | true => exact ⟨_, UInt16.toNat_ofNat_of_lt hsamples, sendTo_casts ..⟩
    | false => rfl

end Packets

/-- What a tick puts on the wire, in any state that a streamer can come to, for any directory and at
any time. Without avatar mode or a living avatar nothing is sent, identity and billboard included,
and the streamer stays as it is: the sound and its cursor, the counters, and both schedules.
Otherwise the packets are the state of the avatar behind a header, one for each avatar mixer in the
order of the directory, and then the audio, one datagram for each audio mixer in that order: voiced
if the slice of this tick has a sample that is not zero, silent with the number of samples of a tick
if it has none and somebody listens, and else no audio at all. Nobody but mixers gets a packet. -/
theorem wire_of_tick (settings : HostSettings) (operations : List Operation)
    (network : Directory) (avatar? : Option Avatar) (now : Nat) :
    let s := (new settings).run operations
    let (report, sent, next) := s.tick network avatar? now
    (match s.isAvatar, avatar? with
      | true, some avatar =>
          ∃ audio, packetsOf sent = (network.ofRole .avatarMixer).map (fun entry =>
              (entry.id, network.headerOf .avatarData ++ avatar.state)) ++ audio ∧
            s.Speaks network avatar.pose audio
      | _, _ => sent = [] ∧ next = s ∧ report = ⟨0, 0⟩) ∧
    ∀ packet ∈ packetsOf sent, ∃ entry ∈ network.peers, entry.id = packet.1 ∧
      (entry.role = .avatarMixer ∨ entry.role = .audioMixer) := by
  intro s
  have hsamples : s.samplesPerTick < 65536 := by
    rw [run_samplesPerTick]
    exact Nat.lt_succ_of_le (Nat.min_le_right _ _)
  cases hasks : s.asks? (.tick network avatar? now) with
  | none =>
      rw [tick_of_none s network avatar? now hasks]
      cases hmode : s.isAvatar with
      | false => exact ⟨⟨rfl, rfl, rfl⟩, nofun⟩
      | true =>
          cases havatar : avatar? with
          | none => exact ⟨⟨rfl, rfl, rfl⟩, nofun⟩
          | some avatar => simp [asks?, hmode, havatar] at hasks
  | some pose =>
      obtain ⟨hmode, avatar, rfl, -⟩ := asks_tick_iff.mp hasks
      obtain ⟨audio, hpackets, hspeaks⟩ := s.tick_packets network avatar now hmode hsamples
      rcases htick : s.tick network (some avatar) now with ⟨report, sent, next⟩
      rw [htick] at hpackets
      refine ⟨?_, ?_⟩
      · rw [hmode]
        exact ⟨audio, hpackets, hspeaks⟩
      · intro packet hmem
        rw [hpackets] at hmem
        rcases List.mem_append.mp hmem with hstate | haudio
        · obtain ⟨entry, hentry, rfl⟩ := List.mem_map.mp hstate
          obtain ⟨hlisted, hrole⟩ := List.mem_filter.mp hentry
          exact ⟨entry, hlisted, rfl, .inl (by simpa using hrole)⟩
        · obtain ⟨entry, hentry, hid⟩ := mixer_of_speaks hspeaks haudio
          obtain ⟨hlisted, hrole⟩ := List.mem_filter.mp hentry
          exact ⟨entry, hlisted, hid, .inr (by simpa using hrole)⟩

end TickHost.Streamer
