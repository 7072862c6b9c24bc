import TickHost.Proofs.Numbering

/-!
How audio datagrams are read. Who knows the kind of a packet and the length of its header gets back
the header, the number and the frame, down to the bits of the pose, and only datagrams of the frame
are read as it. A frame is written once for all mixers, with an empty place behind the header, and
each number is written over the one before it; what comes out are the datagrams of the mixers, and
nothing else of the packet changes on the way from one to the next.
-/

namespace TickHost

open Binary

/-! ### Numbers -/

/-- A number of two bytes, the least significant first, and what follows. -/
def readShort? : List UInt8 → Option (UInt16 × List UInt8)
  | low :: high :: rest => some (UInt16.ofNat (low.toNat + 256 * high.toNat), rest)
  | _ => none

/-- A pattern of four bytes, the least significant first, and what follows. -/
def readSingle? : List UInt8 → Option (Single × List UInt8)
  | a :: b :: c :: d :: rest =>
      some (⟨UInt32.ofNat (a.toNat + 256 * b.toNat + 65536 * c.toNat + 16777216 * d.toNat)⟩, rest)
  | _ => none

/-- So many patterns one after the other. -/
def readSingles? : Nat → List UInt8 → Option (List Single × List UInt8)
  | 0, bytes => some ([], bytes)
  | n + 1, bytes => (readSingle? bytes).bind fun (x, bytes) =>
      (readSingles? n bytes).map fun (xs, rest) => (x :: xs, rest)

/-- The position by x, y and z, and the orientation by x, y, z and w. -/
def readPose? (bytes : List UInt8) : Option (Pose × List UInt8) :=
  match readSingles? 7 bytes with
  | some ([x, y, z, a, b, c, d], rest) => some (⟨⟨x, y, z⟩, ⟨a, b, c, d⟩⟩, rest)
  | _ => none

theorem shortBytes_eq (n : UInt16) :
    shortBytes n = [UInt8.ofNat n.toNat, UInt8.ofNat (n.toNat / 256)] := by
  have hhigh : (n >>> 8).toNat = n.toNat / 256 := by
    simp [UInt16.toNat_shiftRight, Nat.shiftRight_eq_div_pow]
  rw [shortBytes, ← hhigh]
  rfl

theorem toBytes_eq (x : Single) :
    x.toBytes = [UInt8.ofNat x.bits.toNat, UInt8.ofNat (x.bits.toNat / 256),
      UInt8.ofNat (x.bits.toNat / 65536), UInt8.ofNat (x.bits.toNat / 16777216)] := by
  have hplace : ∀ place : UInt32, (x.bits >>> place).toUInt8 =
      UInt8.ofNat (x.bits.toNat / 2 ^ (place.toNat % 32)) := by
    intro place
    rw [← Nat.shiftRight_eq_div_pow, ← UInt32.toNat_shiftRight]
    rfl
  simp [Single.toBytes, hplace]

theorem ofNat_of_mod {n : Nat} {byte : UInt8} (h : n % 256 = byte.toNat) :
    UInt8.ofNat n = byte := by
  rw [← UInt8.toNat_inj, UInt8.toNat_ofNat', h]

theorem readShort_iff {bytes rest : List UInt8} {n : UInt16} :
    readShort? bytes = some (n, rest) ↔ bytes = shortBytes n ++ rest := by
  rw [shortBytes_eq]
  constructor
  · intro h
    match bytes, h with
    | low :: high :: tail, h =>
        cases h
        have hlow := low.toNat_lt
        have hhigh := high.toNat_lt
        have hvalue : (UInt16.ofNat (low.toNat + 256 * high.toNat)).toNat =
            low.toNat + 256 * high.toNat :=
          UInt16.toNat_ofNat_of_lt (by simp only [UInt16.size]; omega)
        have hfirst : UInt8.ofNat (low.toNat + 256 * high.toNat) = low := ofNat_of_mod (by omega)
        have hsecond : UInt8.ofNat ((low.toNat + 256 * high.toNat) / 256) = high :=
          ofNat_of_mod (by omega)
        rw [hvalue, hfirst, hsecond]
        rfl
  · rintro rfl
    have hbound := n.toNat_lt
    have hvalue : n.toNat % 256 + 256 * (n.toNat / 256 % 256) = n.toNat := by omega
    simp only [readShort?, List.cons_append, List.nil_append, UInt8.toNat_ofNat']
    rw [hvalue, UInt16.ofNat_toNat]

theorem readSingle_iff {bytes rest : List UInt8} {x : Single} :
    readSingle? bytes = some (x, rest) ↔ bytes = x.toBytes ++ rest := by
  rw [toBytes_eq]
  constructor
  · intro h
    match bytes, h with
    | a :: b :: c :: d :: tail, h =>
        cases h
        have ha := a.toNat_lt
        have hb := b.toNat_lt
        have hc := c.toNat_lt
        have hd := d.toNat_lt
        generalize hn : a.toNat + 256 * b.toNat + 65536 * c.toNat + 16777216 * d.toNat = n
        have hvalue : (UInt32.ofNat n).toNat = n :=
          UInt32.toNat_ofNat_of_lt (by simp only [UInt32.size]; omega)
        have hfirst : UInt8.ofNat n = a := ofNat_of_mod (by omega)
        have hsecond : UInt8.ofNat (n / 256) = b := ofNat_of_mod (by omega)
        have hthird : UInt8.ofNat (n / 65536) = c := ofNat_of_mod (by omega)
        have hfourth : UInt8.ofNat (n / 16777216) = d := ofNat_of_mod (by omega)
        rw [hvalue, hfirst, hsecond, hthird, hfourth]
        rfl
  · rintro rfl
    obtain ⟨bits⟩ := x
    have hbound := bits.toNat_lt
    have hvalue : bits.toNat % 256 + 256 * (bits.toNat / 256 % 256) +
        65536 * (bits.toNat / 65536 % 256) + 16777216 * (bits.toNat / 16777216 % 256) =
          bits.toNat := by omega
    simp only [readSingle?, List.cons_append, List.nil_append, UInt8.toNat_ofNat']
    rw [hvalue, UInt32.ofNat_toNat]

theorem readSingles_iff {n : Nat} {bytes rest : List UInt8} {xs : List Single} :
    readSingles? n bytes = some (xs, rest) ↔
      xs.length = n ∧ bytes = xs.flatMap Single.toBytes ++ rest := by
  induction n generalizing bytes rest xs with
  | zero =>
      constructor
      · intro h
        cases h
        exact ⟨rfl, rfl⟩
      · rintro ⟨hlength, rfl⟩
        rw [List.length_eq_zero_iff.mp hlength]
        rfl
  | succ n ih =>
      simp only [readSingles?, Option.bind_eq_some_iff, Option.map_eq_some_iff, Prod.exists,
        readSingle_iff, ih, Prod.mk.injEq]
      constructor
      · rintro ⟨x, tail, rfl, ys, rest', ⟨hlength, rfl⟩, rfl, rfl⟩
        simp [hlength]
      · rintro ⟨hlength, rfl⟩
        cases xs with
        | nil => cases hlength
        | cons x xs =>
            refine ⟨x, xs.flatMap Single.toBytes ++ rest, by simp, xs, rest, ⟨?_, rfl⟩, rfl, rfl⟩
            simpa using hlength

theorem readPose_iff {bytes rest : List UInt8} {pose : Pose} :
    readPose? bytes = some (pose, rest) ↔ bytes = pose.toBytes ++ rest := by
  have hsingles : readSingles? 7 bytes = some (pose.components, rest) ↔
      pose.components.length = 7 ∧ bytes = pose.components.flatMap Single.toBytes ++ rest :=
    readSingles_iff
  rw [Pose.toBytes]
  constructor
  · intro h
    unfold readPose? at h
    split at h
    · rename_i x y z a b c d rest' hread
      cases h
      exact (hsingles.mp hread).2
    · cases h
  · intro h
    rw [readPose?, hsingles.mpr ⟨rfl, h⟩]
    rfl

/-! ### Frames -/

namespace AudioFrame

/-- A frame of a kind. A silent one ends after the pose, and a voiced one has its samples there. -/
def read? : PacketKind → List UInt8 → Option AudioFrame
  | .silentAudio, bytes => (readShort? bytes).bind fun (samples, bytes) =>
      (readPose? bytes).bind fun (pose, rest) =>
        if rest = [] then some (.silent samples pose) else none
  | .microphoneAudio, channel :: bytes =>
      if channel = 0 then (readPose? bytes).map fun (pose, pcm) => .voiced pose pcm else none
  | _, _ => none

theorem read_iff {kind : PacketKind} {bytes : List UInt8} {frame : AudioFrame} :
    read? kind bytes = some frame ↔ frame.kind = kind ∧ bytes = frame.body := by
  cases kind with
  | silentAudio =>
      simp only [read?, Option.bind_eq_some_iff, Prod.exists, readShort_iff, readPose_iff]
      constructor
      · rintro ⟨samples, _, rfl, pose, rest, rfl, heq⟩
        split at heq
        · rename_i hrest
          cases heq
          exact ⟨rfl, by simp [hrest, body]⟩
        · cases heq
      · rintro ⟨hkind, rfl⟩
        cases frame with
        | silent samples pose => exact ⟨samples, pose.toBytes, rfl, pose, [], by simp, rfl⟩
        | voiced pose pcm => cases hkind
  | microphoneAudio =>
      constructor
      · intro h
        cases bytes with
        | nil => cases h
        | cons channel bytes =>
            simp only [read?] at h
            split at h
            · rename_i hchannel
              obtain ⟨⟨pose, pcm⟩, hpose, rfl⟩ := Option.map_eq_some_iff.mp h
              rw [readPose_iff] at hpose
              exact ⟨rfl, by rw [hchannel, hpose]; rfl⟩
            · cases h
      · rintro ⟨hkind, rfl⟩
        cases frame with
        | silent samples pose => cases hkind
        | voiced pose pcm =>
            have hpose : readPose? (pose.toBytes ++ pcm) = some (pose, pcm) := readPose_iff.mpr rfl
            simp [read?, body, hpose]
  | avatarData =>
      constructor
      · intro h
        cases h
      · rintro ⟨hkind, -⟩
        cases frame <;> cases hkind

/-- The header, the number and the frame of a datagram, for whoever knows the length of the header
and the kind of the packet. -/
def decode? (headerLength : Nat) (kind : PacketKind) (bytes : List UInt8) :
    Option (List UInt8 × UInt16 × AudioFrame) :=
  if headerLength ≤ bytes.length then
    (readShort? (bytes.drop headerLength)).bind fun (sequence, bytes') =>
      (read? kind bytes').map fun frame => (bytes.take headerLength, sequence, frame)
  else none

theorem decode_iff {headerLength : Nat} {kind : PacketKind} {bytes header : List UInt8}
    {sequence : UInt16} {frame : AudioFrame} :
    decode? headerLength kind bytes = some (header, sequence, frame) ↔
      header.length = headerLength ∧ frame.kind = kind ∧
        bytes = frame.datagram header sequence := by
  unfold decode?
  constructor
  · intro h
    split at h
    · rename_i hlength
      obtain ⟨⟨sequence', rest⟩, hnumber, hframe⟩ := Option.bind_eq_some_iff.mp h
      obtain ⟨frame', hread, heq⟩ := Option.map_eq_some_iff.mp hframe
      cases heq
      obtain ⟨hkind, rfl⟩ := read_iff.mp hread
      refine ⟨List.length_take_of_le hlength, hkind, ?_⟩
      rw [datagram, List.append_assoc, ← readShort_iff.mp hnumber, List.take_append_drop]
    · cases h
  · rintro ⟨rfl, hkind, rfl⟩
    have hnumber : readShort? ((frame.datagram header sequence).drop header.length) =
        some (sequence, frame.body) := by
      rw [readShort_iff, datagram, List.append_assoc, List.drop_left]
    have hheader : (frame.datagram header sequence).take header.length = header := by
      rw [datagram, List.append_assoc, List.take_left]
    have hread : read? kind frame.body = some frame := read_iff.mpr ⟨hkind, rfl⟩
    rw [if_pos (by simp [datagram]), hnumber]
    simp [hread, hheader]

/-- The frame behind a header, with an empty place for the number. -/
def blank (frame : AudioFrame) (header : List UInt8) : List UInt8 :=
  header ++ [0, 0] ++ frame.body

end AudioFrame

/-! ### One packet for all mixers -/

/-- Write a number into its place in a packet. -/
def stamp (packet : List UInt8) (offset : Nat) (sequence : UInt16) : List UInt8 :=
  (packet.set offset sequence.toUInt8).set (offset + 1) (sequence >>> 8).toUInt8

theorem blank_eq (frame : AudioFrame) (header : List UInt8) :
    frame.blank header = frame.datagram header 0 := rfl

/-- A number replaces the one before it. -/
theorem stamp_datagram (frame : AudioFrame) (header : List UInt8) (old new : UInt16) :
    stamp (frame.datagram header old) header.length new = frame.datagram header new := by
  simp only [stamp, AudioFrame.datagram, shortBytes, List.append_assoc]
  rw [List.set_append_right _ _ (Nat.le_refl _), List.set_append_right _ _ (Nat.le_succ _)]
  simp

/-- Datagrams of one frame differ in the place of the number only. -/
theorem datagram_get {frame : AudioFrame} {header : List UInt8} {first second : UInt16} {i : Nat}
    (hlow : i ≠ header.length) (hhigh : i ≠ header.length + 1) :
    (frame.datagram header first)[i]? = (frame.datagram header second)[i]? := by
  rw [← stamp_datagram frame header first second, stamp, List.getElem?_set_ne (by omega),
    List.getElem?_set_ne (by omega)]

namespace Streamer

/-- Send one packet to peers one after the other, each number written over the last. -/
def sendStamped (offset : Nat) : List Peer → List UInt8 → Streamer → List Sent × Streamer
  | [], _, s => ([], s)
  | peer :: rest, packet, s =>
      let (sequence, s) := s.takeSequence peer.id
      let packet := stamp packet offset sequence
      let (sent, s) := sendStamped offset rest packet s
      (.packet peer.id packet :: sent, s)

theorem sendStamped_eq (frame : AudioFrame) (header : List UInt8) (peers : List Peer)
    (last : UInt16) (s : Streamer) :
    sendStamped header.length peers (frame.datagram header last) s =
      sendTo frame header peers s := by
  induction peers generalizing last s with
  | nil => rfl
  | cons peer rest ih =>
      simp only [sendStamped, sendTo, stamp_datagram]
      rw [ih]

/-- The number under which an entry of a list of peers gets its datagram. -/
def numberAt (s : Streamer) (peers : List Peer) (i peer : Nat) : UInt16 :=
  s.nextSequence peer + UInt16.ofNat ((peers.take i).countP fun entry => entry.id = peer)

theorem sendTo_get (frame : AudioFrame) (header : List UInt8) (peers : List Peer) (s : Streamer)
    (i : Nat) : (sendTo frame header peers s).1[i]? = peers[i]?.map fun peer =>
      .packet peer.id (frame.datagram header (s.numberAt peers i peer.id)) := by
  induction peers generalizing s i with
  | nil => rfl
  | cons first rest ih =>
      cases i with
      | zero => simp [sendTo, numberAt, takeSequence]
      | succ i =>
          have hnumber : ∀ peer, (s.takeSequence first.id).2.numberAt rest i peer =
              s.numberAt (first :: rest) (i + 1) peer := by
            intro peer
            rw [numberAt, nextSequence_takeSequence, numberAt, List.take_succ_cons,
              List.countP_cons, UInt16.add_assoc]
            by_cases hpeer : first.id = peer
            · simp only [hpeer, decide_true, if_true, ofNat_succ, UInt16.add_assoc]
            · simp only [hpeer, decide_false, if_false, Bool.false_eq_true, UInt16.zero_add,
                Nat.add_zero]
          simp only [sendTo, List.getElem?_cons_succ, ih, hnumber]

/-- What is sent is one datagram of the frame for some entry. -/
theorem mem_sendTo {frame : AudioFrame} {header : List UInt8} {peers : List Peer} {s : Streamer}
    {peer : Nat} {bytes : List UInt8}
    (hmem : Sent.packet peer bytes ∈ (sendTo frame header peers s).1) :
    ∃ sequence, bytes = frame.datagram header sequence := by
  obtain ⟨i, hi⟩ := List.mem_iff_getElem?.mp hmem
  rw [sendTo_get] at hi
  obtain ⟨entry, -, heq⟩ := Option.map_eq_some_iff.mp hi
  cases heq
  exact ⟨_, rfl⟩

/-- The audio of a tick is a frame that is sent to the mixers, if there is one. -/
theorem tick_audio (s : Streamer) (network : Directory) (avatar? : Option Avatar) (now : Nat) :
    let (report, packets, _) := s.tick network avatar? now
    let audio := packets.drop (packets.length - report.audioPackets)
    match s.frame? (.tick network avatar? now) with
    | none => audio = []
    | some frame => ∃ t : Streamer, (∀ peer, t.nextSequence peer = s.nextSequence peer) ∧
        audio = (sendTo frame (network.headerOf frame.kind) (network.ofRole .audioMixer) t).1 := by
  cases hasks : s.asks? (.tick network avatar? now) with
  | none => simp [frame?, hasks, tick_of_none s network avatar? now hasks]
  | some pose =>
      obtain ⟨hmode, avatar, rfl, rfl⟩ := asks_tick_iff.mp hasks
      rw [tick_parts s network avatar now hmode]
      simp only [frame?, hasks, Option.bind_some]
      cases hframe : (s.nextFrame avatar.pose).1 with
      | none => simp
      | some frame =>
          refine ⟨s.spend.passSlow now, fun peer => ?_, ?_⟩
          · simp only [nextSequence, passSlow, spend_sequences]
          · dsimp only
            rw [List.length_append, Nat.add_sub_cancel, List.drop_left]

end Streamer

open Streamer AudioFrame

/-- Audio datagrams can be read. Each mixer gets the header as it is, the number that is next for it
and the body of the frame; who knows the length of the header and the kind of the packet gets these
back, with the count or the samples and all bits of the pose, and reads nothing else as the same.
It is as if one packet were written for all mixers and only the number in it exchanged, so two
datagrams differ in these two bytes at most. The audio of a tick is such a frame. -/
theorem audio_datagrams_decode (frame : AudioFrame) (header : List UInt8) (peers : List Peer)
    (s : Streamer) :
    let sent := (sendTo frame header peers s).1
    sent.length = peers.length ∧
    (∀ i peer, peers[i]? = some peer →
      sent[i]? = some (Sent.packet peer.id
        (header ++ shortBytes (s.numberAt peers i peer.id) ++ frame.body))) ∧
    (∀ bytes sequence, bytes = header ++ shortBytes sequence ++ frame.body ↔
      decode? header.length frame.kind bytes = some (header, sequence, frame)) ∧
    sendStamped header.length peers (frame.blank header) s = sendTo frame header peers s ∧
    (∀ peer other first second, Sent.packet peer first ∈ sent →
      Sent.packet other second ∈ sent →
      first.length = second.length ∧ ∀ i, i ≠ header.length → i ≠ header.length + 1 →
        first[i]? = second[i]?) ∧
    ∀ network avatar? now,
      let (report, packets, _) := s.tick network avatar? now
      let audio := packets.drop (packets.length - report.audioPackets)
      match s.frame? (.tick network avatar? now) with
      | none => audio = []
      | some frame => ∃ t : Streamer, (∀ peer, t.nextSequence peer = s.nextSequence peer) ∧
          audio =
            (sendTo frame (network.headerOf frame.kind) (network.ofRole .audioMixer) t).1 := by
  refine ⟨sendTo_length s frame header peers, ?_, ?_,
    (blank_eq frame header) ▸ sendStamped_eq frame header peers 0 s, ?_, s.tick_audio⟩
  · intro i peer hpeer
    rw [sendTo_get, hpeer]
    rfl
  · intro bytes sequence
    rw [decode_iff]
    simp [datagram]
  · intro peer other first second hfirst hsecond
    obtain ⟨number, rfl⟩ := mem_sendTo hfirst
    obtain ⟨number', rfl⟩ := mem_sendTo hsecond
    exact ⟨by simp [datagram, shortBytes], fun i hlow hhigh => datagram_get hlow hhigh⟩

/-- Two mixers, one of which is numbered from seven on, behind a header of three bytes. -/
example :
    let frame := AudioFrame.voiced default [1, 0, 2, 0]
    let s : Streamer := { new .standard with sequences := [(9, 7)] }
    ((sendTo frame [3, 4, 5] [⟨8, .audioMixer⟩, ⟨9, .audioMixer⟩] s).1.map fun
      | .packet _ bytes => decode? 3 .microphoneAudio bytes
      | _ => none) = [some ([3, 4, 5], 0, frame), some ([3, 4, 5], 7, frame)] := by
  decide +kernel

end TickHost
