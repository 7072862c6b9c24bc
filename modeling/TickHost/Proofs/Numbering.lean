import TickHost.Proofs.Slices

/-!
How audio datagrams are numbered. Each peer has a counter of its own, which is read and moved on
with every datagram that goes to the peer and is forgotten when the peer is gone. Frames may be
voiced or silent, headers may change, and a peer may come and go, change its role or be listed
twice: its datagrams are numbered on all the same, and nothing that concerns other peers only makes
a difference to them.
-/

namespace TickHost

/-- The header of every packet is as long. -/
def Directory.headerLength (d : Directory) : Nat :=
  (d.headerOf .silentAudio).length

theorem Directory.length_headerOf (d : Directory) (kind : PacketKind) :
    (d.headerOf kind).length = d.headerLength := by
  cases hheader : d.header <;> simp [headerLength, headerOf, hheader]

/-- The entries of one peer. -/
def Directory.only (d : Directory) (peer : Nat) : Directory :=
  { d with peers := d.peers.filter fun p => p.id = peer }

namespace Streamer

/-- A datagram on its way to a peer, and where its number stands, which is behind the header. -/
structure Datagram where
  peer : Nat
  offset : Nat
  bytes : List UInt8
deriving DecidableEq, Repr

/-- The number that a datagram carries in two bytes, the least significant first. -/
def Datagram.number? (d : Datagram) : Option UInt16 :=
  match d.bytes.drop d.offset with
  | low :: high :: _ => some (UInt16.ofNat (low.toNat + 256 * high.toNat))
  | _ => none

/-- A packet as a datagram with a header of this length. -/
def datagram? (offset : Nat) : Sent → Option Datagram
  | .packet peer bytes => some ⟨peer, offset, bytes⟩
  | .identity _ | .billboard _ => none

/-- The audio datagrams that an operation sends to a peer. They are the last that a tick sends, as
many as it reports. -/
def audioTo (peer : Nat) (s : Streamer) : Operation → List Datagram
  | .tick network avatar? now =>
      let (report, sent, _) := s.tick network avatar? now
      ((sent.drop (sent.length - report.audioPackets)).filterMap
        (datagram? network.headerLength)).filter fun d => d.peer = peer
  | _ => []

def Operation.endsPeer (peer : Nat) : Operation → Bool
  | .peerGone id => id = peer
  | _ => false

/-- What the operations send to a peer after it was last gone, in addition to what they found. -/
def recentFrom (peer : Nat) : Streamer → List Operation → List Datagram → List Datagram
  | _, [], sent => sent
  | s, operation :: rest, sent =>
      recentFrom peer (s.apply operation) rest
        (if operation.endsPeer peer then [] else sent ++ s.audioTo peer operation)

/-- The audio datagrams that were sent to a peer since it was last gone, or from the start. -/
def recent (peer : Nat) (s : Streamer) (operations : List Operation) : List Datagram :=
  recentFrom peer s operations []

/-- An operation without what it has to do with other peers. -/
def Operation.about? (peer : Nat) : Operation → Option Operation
  | .tick network avatar? now => some (.tick (network.only peer) avatar? now)
  | .peerGone id => if id = peer then some (.peerGone id) else none
  | operation => some operation

section Numbering

variable (s : Streamer) (peer : Nat)

/-! ### One datagram -/

theorem number_datagram (frame : AudioFrame) (header : List UInt8) (sequence : UInt16) :
    (Datagram.mk peer header.length (frame.datagram header sequence)).number? = some sequence := by
  have hlow : sequence.toUInt8.toNat = sequence.toNat % 256 := by simp
  have hhigh : (sequence >>> 8).toUInt8.toNat = sequence.toNat / 256 % 256 := by
    simp [UInt16.toNat_shiftRight, Nat.shiftRight_eq_div_pow]
  have hbound := sequence.toNat_lt
  have hvalue : sequence.toUInt8.toNat + 256 * (sequence >>> 8).toUInt8.toNat =
      sequence.toNat := by
    rw [hlow, hhigh]
    omega
  simp only [Datagram.number?, AudioFrame.datagram, shortBytes, List.append_assoc, List.drop_left,
    List.cons_append]
  rw [hvalue, UInt16.ofNat_toNat]

/-! ### One counter -/

theorem lookup_forget {α : Type} (entries : List (Nat × α)) (id : Nat) :
    (entries.filter fun (key, _) => key ≠ id).lookup peer =
      if id = peer then none else entries.lookup peer := by
  induction entries with
  | nil => simp
  | cons entry rest ih =>
      obtain ⟨key, value⟩ := entry
      by_cases hkey : key = id
      · subst hkey
        rw [List.filter_cons_of_neg (by simp), ih]
        by_cases hpeer : key = peer
        · rw [if_pos hpeer, if_pos hpeer]
        · rw [if_neg hpeer, if_neg hpeer, List.lookup_cons, beq_false_of_ne (Ne.symm hpeer)]
      · rw [List.filter_cons_of_pos (by simpa using hkey), List.lookup_cons, ih, List.lookup_cons]
        by_cases hpeer : peer = key
        · subst hpeer
          simp [Ne.symm hkey]
        · rw [beq_false_of_ne hpeer]

theorem nextSequence_peerGone (id : Nat) :
    (s.peerGone id).nextSequence peer = if id = peer then 0 else s.nextSequence peer := by
  rw [nextSequence, peerGone, lookup_forget]
  split <;> rfl

theorem nextSequence_takeSequence (id : Nat) :
    (s.takeSequence id).2.nextSequence peer =
      s.nextSequence peer + if id = peer then 1 else 0 := by
  rw [nextSequence, takeSequence]
  dsimp only
  rw [List.lookup_cons]
  by_cases hpeer : id = peer
  · subst hpeer
    simp
  · rw [beq_false_of_ne (Ne.symm hpeer), if_neg hpeer, lookup_forget, if_neg hpeer]
    simp [nextSequence]

/-! ### One frame -/

/-- So many numbers, beginning with this one. -/
def countFrom (first : UInt16) (n : Nat) : List UInt16 :=
  (List.range n).map fun i => first + UInt16.ofNat i

theorem ofNat_succ (first : UInt16) (n : Nat) :
    first + UInt16.ofNat (n + 1) = first + 1 + UInt16.ofNat n := by
  rw [UInt16.ofNat_add, UInt16.add_assoc, UInt16.add_comm (UInt16.ofNat n)]
  rfl

theorem countFrom_succ (first : UInt16) (n : Nat) :
    countFrom first (n + 1) = first :: countFrom (first + 1) n := by
  rw [countFrom, List.range_succ_eq_map, List.map_cons, List.map_map]
  simp only [countFrom, List.cons.injEq, List.map_inj_left]
  exact ⟨UInt16.add_zero first, fun i _ => ofNat_succ first i⟩

theorem countFrom_append (first : UInt16) (m n : Nat) :
    countFrom first m ++ countFrom (first + UInt16.ofNat m) n = countFrom first (m + n) := by
  induction m generalizing first with
  | zero => simp [countFrom]
  | succ m ih =>
      have hcount : m + 1 + n = m + n + 1 := by omega
      rw [hcount, countFrom_succ, countFrom_succ, List.cons_append, ofNat_succ, ih]

/-- What the datagrams of a frame are to one peer: one for each of its entries, numbered on. -/
theorem sendTo_peer (frame : AudioFrame) (header : List UInt8) (peers : List Peer) :
    let entries := (peers.filter fun p => p.id = peer).length
    (((sendTo frame header peers s).1.filterMap (datagram? header.length)).filter
        fun d => d.peer = peer) =
      (countFrom (s.nextSequence peer) entries).map (fun sequence =>
        ⟨peer, header.length, frame.datagram header sequence⟩) ∧
      (sendTo frame header peers s).2.nextSequence peer =
        s.nextSequence peer + UInt16.ofNat entries := by
  induction peers generalizing s with
  | nil => simp [sendTo, countFrom]
  | cons first rest ih =>
      obtain ⟨hsent, hnext⟩ := ih (s.takeSequence first.id).2
      rw [nextSequence_takeSequence] at hsent hnext
      simp only [sendTo, List.filterMap_cons, datagram?]
      by_cases hpeer : first.id = peer
      · subst hpeer
        simp only [ite_true] at hsent hnext
        refine ⟨?_, ?_⟩
        · rw [List.filter_cons_of_pos (by simp), List.filter_cons_of_pos (by simp),
            List.length_cons, countFrom_succ, List.map_cons, hsent]
          rfl
        · rw [hnext, List.filter_cons_of_pos (by simp), List.length_cons, ofNat_succ]
      · simp only [if_neg hpeer, UInt16.add_zero] at hsent hnext
        rw [List.filter_cons_of_neg (by simpa using hpeer),
          List.filter_cons_of_neg (by simpa using hpeer)]
        exact ⟨hsent, hnext⟩

/-! ### One operation -/

/-- The audio frame that a tick sends to the mixers, if there is one. -/
def frame? (s : Streamer) (operation : Operation) : Option AudioFrame :=
  (s.asks? operation).bind fun pose => (s.nextFrame pose).1

/-- Only the sound and the listening decide about the frame. -/
theorem nextFrame_congr {s t : Streamer} (hplayback : t.playback = s.playback)
    (hlistening : t.listening = s.listening) (pose : Pose) :
    (t.nextFrame pose).1 = (s.nextFrame pose).1 := by
  simp only [playback, Prod.mk.injEq] at hplayback
  obtain ⟨hsound, hsent, hsamples⟩ := hplayback
  have hvoice : t.voice? = s.voice? := by
    simp only [voice?, slice, available, hsound, hsent, hsamples]
    rfl
  simp only [nextFrame, hvoice, hlistening, hsamples]
  split
  · rfl
  · split <;> rfl

theorem spend_passSlow (now : Nat) : (s.passSlow now).spend = s.spend.passSlow now := by
  cases hsound : s.sound with
  | none => simp [spend, passSlow, hsound]
  | some pcm =>
      have havailable : (s.passSlow now).available pcm = s.available pcm := rfl
      simp only [spend, passSlow, hsound] at havailable ⊢
      rw [havailable]
      split <;> rfl

theorem spend_renumber (sequences : List (Nat × UInt16)) :
    { s with sequences }.spend = { s.spend with sequences } := by
  cases hsound : s.sound with
  | none => simp [spend, hsound]
  | some pcm =>
      have havailable : { s with sequences }.available pcm = s.available pcm := rfl
      simp only [spend, hsound] at havailable ⊢
      rw [havailable]
      split <;> rfl

theorem spend_sequences : s.spend.sequences = s.sequences := by
  unfold spend
  split
  · rfl
  · dsimp only
    split <;> rfl

/-- The slow packets have no part in the frame. -/
theorem passSlow_nextFrame (now : Nat) (pose : Pose) :
    (s.passSlow now).nextFrame pose = ((s.nextFrame pose).1, s.spend.passSlow now) := by
  have hframe : ((s.passSlow now).nextFrame pose).1 = (s.nextFrame pose).1 :=
    nextFrame_congr (s := s) (t := s.passSlow now) rfl rfl pose
  rw [← hframe, ← spend_passSlow, ← nextFrame_snd _ pose]

/-- How many datagrams a tick sends of its frame to one peer. -/
def mixersOf (network : Directory) (peer : Nat) : Nat :=
  ((network.ofRole .audioMixer).filter fun p => p.id = peer).length

theorem sendTo_length (frame : AudioFrame) (header : List UInt8) (peers : List Peer) :
    (sendTo frame header peers s).1.length = peers.length := by
  induction peers generalizing s with
  | nil => rfl
  | cons first rest ih => exact congrArg (· + 1) (ih (s.takeSequence first.id).2)

variable {s} in
theorem slow_of_mem {avatar : Avatar} {now : Nat} {packet : Sent}
    (hmem : packet ∈ s.slowPackets avatar now) :
    ∃ name, packet = .identity name ∨ packet = .billboard name := by
  refine ⟨avatar.name, ?_⟩
  rcases List.mem_append.mp hmem with hidentity | hbillboard
  · left
    split at hidentity
    · exact List.mem_singleton.mp hidentity
    · simp at hidentity
  · right
    split at hbillboard
    · exact List.mem_singleton.mp hbillboard
    · simp at hbillboard

/-- The state packets of a tick. -/
def statePackets (network : Directory) (avatar : Avatar) : List Sent :=
  (network.ofRole .avatarMixer).map fun p =>
    .packet p.id (network.headerOf .avatarData ++ avatar.state)

/-- What a tick in avatar mode comes to: slow packets, state packets, and the frame if there is
one. -/
theorem tick_parts (network : Directory) (avatar : Avatar) (now : Nat)
    (hmode : s.isAvatar = true) :
    let spent := s.spend.passSlow now
    let (audio, next) := match (s.nextFrame avatar.pose).1 with
      | none => ([], spent)
      | some frame =>
          sendTo frame (network.headerOf frame.kind) (network.ofRole .audioMixer) spent
    s.tick network (some avatar) now = (⟨1, audio.length⟩,
      s.slowPackets avatar now ++ statePackets network avatar ++ audio, next) := by
  have htick := tick_eq s network avatar now hmode
  simp only [passSlow_nextFrame, Directory.broadcast, List.map_map, Function.comp_def] at htick
  cases hframe : (s.nextFrame avatar.pose).1 with
  | none =>
      rw [hframe] at htick
      exact htick
  | some frame =>
      rw [hframe] at htick
      simp only [sendTo_length]
      exact htick

/-- The audio of a tick is what it sends last. -/
theorem audioTo_eq {network : Directory} {avatar? : Option Avatar} {now states : Nat}
    {ahead audio : List Sent} {next : Streamer}
    (htick : s.tick network avatar? now = (⟨states, audio.length⟩, ahead ++ audio, next)) :
    s.audioTo peer (.tick network avatar? now) =
      (audio.filterMap (datagram? network.headerLength)).filter fun d => d.peer = peer := by
  simp only [audioTo, htick, List.length_append, Nat.add_sub_cancel, List.drop_left]

/-- What a tick sends of its frame to one peer, and how far that moves the counter. -/
theorem tick_to (network : Directory) (avatar? : Option Avatar) (now : Nat) :
    let frames := (s.frame? (.tick network avatar? now)).toList
    s.audioTo peer (.tick network avatar? now) = (frames.flatMap fun frame =>
        (countFrom (s.nextSequence peer) (mixersOf network peer)).map fun sequence =>
          ⟨peer, network.headerLength, frame.datagram (network.headerOf frame.kind) sequence⟩) ∧
      (s.apply (.tick network avatar? now)).nextSequence peer =
        s.nextSequence peer + UInt16.ofNat (frames.length * mixersOf network peer) := by
  cases hasks : s.asks? (.tick network avatar? now) with
  | none => simp [frame?, hasks, audioTo, apply, tick_of_none s network avatar? now hasks]
  | some pose =>
      obtain ⟨hmode, avatar, rfl, rfl⟩ := asks_tick_iff.mp hasks
      have hkept : (s.spend.passSlow now).nextSequence peer = s.nextSequence peer := by
        simp only [nextSequence, passSlow, spend_sequences]
      have htick := tick_parts s network avatar now hmode
      have haudio := audioTo_eq s peer htick
      cases hframe : (s.nextFrame avatar.pose).1 with
      | none =>
          simp only [hframe] at htick haudio
          simp only [frame?, hasks, hframe, Option.bind_some, Option.toList_none]
          refine ⟨haudio, ?_⟩
          rw [apply, htick]
          simpa using hkept
      | some frame =>
          obtain ⟨hsent, hnext⟩ := sendTo_peer (s.spend.passSlow now) peer frame
            (network.headerOf frame.kind) (network.ofRole .audioMixer)
          rw [network.length_headerOf, hkept] at hsent
          rw [hkept] at hnext
          simp only [hframe] at htick haudio
          simp only [frame?, hasks, hframe, Option.bind_some, Option.toList_some,
            List.flatMap_singleton, List.length_singleton, Nat.one_mul]
          refine ⟨haudio.trans hsent, ?_⟩
          rw [apply, htick]
          exact hnext

/-- One more operation: the datagrams to a peer are numbered on, and the number for the next one is
kept, unless the peer is gone. -/
theorem apply_numbers (operation : Operation) :
    (s.audioTo peer operation).map Datagram.number? =
        (countFrom (s.nextSequence peer) (s.audioTo peer operation).length).map some ∧
      (s.apply operation).nextSequence peer =
        if operation.endsPeer peer then 0
        else s.nextSequence peer + UInt16.ofNat (s.audioTo peer operation).length := by
  cases operation with
  | tick network avatar? now =>
      obtain ⟨hsent, hnext⟩ := tick_to s peer network avatar? now
      rw [hsent, hnext]
      cases hframe : s.frame? (.tick network avatar? now) with
      | none => simp [countFrom, Operation.endsPeer]
      | some frame =>
          have hnumber : ∀ sequence, (Datagram.mk peer network.headerLength
              (frame.datagram (network.headerOf frame.kind) sequence)).number? = some sequence := by
            intro sequence
            rw [← network.length_headerOf frame.kind]
            exact number_datagram peer frame _ sequence
          simp [Function.comp_def, hnumber, countFrom, Operation.endsPeer]
  | peerGone id =>
      simp [audioTo, countFrom, apply, nextSequence_peerGone, Operation.endsPeer]
  | nextFrame pose =>
      simp [audioTo, countFrom, apply, nextFrame_snd, nextSequence, spend_sequences,
        Operation.endsPeer]
  | setAvatarMode on now =>
      cases on <;>
        simp [audioTo, countFrom, apply, nextSequence, Operation.endsPeer, setAvatarMode]
  | setAvatar | setListening | setSound =>
      simp [audioTo, countFrom, apply, nextSequence, Operation.endsPeer, setAvatar, setListening,
        setSound]

/-- What was sent to a peer since it was last gone is numbered from zero, and the next number
follows. -/
def Numbered (sent : List Datagram) : Prop :=
  sent.map Datagram.number? = (countFrom 0 sent.length).map some ∧
    s.nextSequence peer = UInt16.ofNat sent.length

variable {s peer} in
theorem Numbered.recentFrom {sent : List Datagram} (h : s.Numbered peer sent)
    (operations : List Operation) :
    (s.run operations).Numbered peer (recentFrom peer s operations sent) := by
  induction operations generalizing s sent with
  | nil => exact h
  | cons operation rest ih =>
      obtain ⟨hsent, hnext⟩ := h
      obtain ⟨hmore, hafter⟩ := apply_numbers s peer operation
      refine ih (s := s.apply operation) ?_
      cases hends : operation.endsPeer peer with
      | true =>
          rw [hends] at hafter
          exact ⟨rfl, hafter⟩
      | false =>
          simp only [hends, Bool.false_eq_true, ite_false] at hafter ⊢
          rw [hnext] at hmore hafter
          refine ⟨?_, ?_⟩
          · have hjoin := countFrom_append 0 sent.length (s.audioTo peer operation).length
            rw [UInt16.zero_add] at hjoin
            rw [List.map_append, hsent, hmore, List.length_append, ← hjoin, List.map_append]
          · rw [hafter, List.length_append, UInt16.ofNat_add]

/-! ### Other peers -/

/-- Two streamers that differ in the counters of other peers only. -/
def Agrees (s t : Streamer) : Prop :=
  ∃ sequences, t = { s with sequences } ∧ t.nextSequence peer = s.nextSequence peer

theorem sendTo_rest (frame : AudioFrame) (header : List UInt8) (peers : List Peer) :
    (sendTo frame header peers s).2 =
      { s with sequences := (sendTo frame header peers s).2.sequences } := by
  induction peers generalizing s with
  | nil => rfl
  | cons first rest ih => exact ih (s.takeSequence first.id).2

/-- What a tick makes of a streamer, but for the counters. -/
theorem tick_rest (network : Directory) (avatar? : Option Avatar) (now : Nat) :
    ∃ sequences, s.apply (.tick network avatar? now) =
      { (if (s.asks? (.tick network avatar? now)).isSome then s.spend.passSlow now else s) with
        sequences } := by
  cases hasks : s.asks? (.tick network avatar? now) with
  | none => exact ⟨s.sequences, by simp [apply, tick_of_none s network avatar? now hasks]⟩
  | some pose =>
      obtain ⟨hmode, avatar, rfl, rfl⟩ := asks_tick_iff.mp hasks
      rw [apply, tick_parts s network avatar now hmode]
      cases hframe : (s.nextFrame avatar.pose).1 with
      | none => exact ⟨_, rfl⟩
      | some frame => exact ⟨_, sendTo_rest ..⟩

theorem mixersOf_only (network : Directory) :
    mixersOf (network.only peer) peer = mixersOf network peer := by
  simp only [mixersOf, Directory.ofRole, Directory.only, List.filter_filter]
  congr 2
  funext p
  cases decide (p.id = peer) <;> simp

theorem frame_renumber (sequences : List (Nat × UInt16)) (network network' : Directory)
    (avatar? : Option Avatar) (now : Nat) :
    { s with sequences }.frame? (.tick network' avatar? now) =
      s.frame? (.tick network avatar? now) := by
  have hframe : ∀ pose, ({ s with sequences }.nextFrame pose).1 = (s.nextFrame pose).1 :=
    nextFrame_congr rfl rfl
  simp only [frame?, hframe]
  rfl

variable {s peer} in
theorem Agrees.tick {t : Streamer} (h : Agrees peer s t) (network : Directory)
    (avatar? : Option Avatar) (now : Nat) :
    Agrees peer (s.apply (.tick network avatar? now))
        (t.apply (.tick (network.only peer) avatar? now)) ∧
      t.audioTo peer (.tick (network.only peer) avatar? now) =
        s.audioTo peer (.tick network avatar? now) := by
  obtain ⟨sequences, rfl, hnext⟩ := h
  obtain ⟨hsent, hafter⟩ := tick_to s peer network avatar? now
  obtain ⟨hsent', hafter'⟩ := tick_to { s with sequences } peer (network.only peer) avatar? now
  rw [frame_renumber s sequences network, mixersOf_only, hnext] at hsent' hafter'
  refine ⟨?_, hsent'.trans hsent.symm⟩
  rw [← hafter] at hafter'
  obtain ⟨first, hfirst⟩ := tick_rest s network avatar? now
  obtain ⟨second, hsecond⟩ := tick_rest { s with sequences } (network.only peer) avatar? now
  rw [hfirst, hsecond] at hafter' ⊢
  refine ⟨second, ?_, hafter'⟩
  rw [spend_renumber]
  have hasks : { s with sequences }.asks? (.tick (network.only peer) avatar? now) =
      s.asks? (.tick network avatar? now) := rfl
  rw [hasks]
  split <;> rfl

/-- What is done to a streamer between ticks does not look at counters, unless a peer is gone. -/
theorem apply_renumber (sequences : List (Nat × UInt16)) {operation : Operation}
    (hother : ∀ peer, operation.endsPeer peer = false)
    (htick : ∀ network avatar? now, operation ≠ .tick network avatar? now) :
    { s with sequences }.apply operation = { s.apply operation with sequences } ∧
      (s.apply operation).sequences = s.sequences := by
  cases operation with
  | tick network avatar? now => exact absurd rfl (htick network avatar? now)
  | peerGone id => simpa [Operation.endsPeer] using hother id
  | nextFrame pose => simp only [apply, nextFrame_snd, spend_renumber, spend_sequences, and_self]
  | setAvatarMode on now => cases on <;> exact ⟨rfl, rfl⟩
  | setAvatar | setListening | setSound => exact ⟨rfl, rfl⟩

variable {s peer} in
/-- An operation without what it has to do with other peers does as much for a peer. -/
theorem Agrees.apply {t : Streamer} (h : Agrees peer s t) (operation : Operation) :
    match operation.about? peer with
    | some own => Agrees peer (s.apply operation) (t.apply own) ∧
        own.endsPeer peer = operation.endsPeer peer ∧ t.audioTo peer own = s.audioTo peer operation
    | none => Agrees peer (s.apply operation) t ∧
        operation.endsPeer peer = false ∧ s.audioTo peer operation = [] := by
  have hkept : (∀ peer, operation.endsPeer peer = false) →
      (∀ network avatar? now, operation ≠ .tick network avatar? now) →
      Agrees peer (s.apply operation) (t.apply operation) := by
    intro hother htick
    obtain ⟨sequences, rfl, hnext⟩ := h
    obtain ⟨happly, hsame⟩ := apply_renumber s sequences hother htick
    rw [happly]
    exact ⟨sequences, rfl, by simpa only [nextSequence, hsame] using hnext⟩
  cases operation with
  | tick network avatar? now =>
      obtain ⟨hagrees, hsent⟩ := h.tick network avatar? now
      exact ⟨hagrees, rfl, hsent⟩
  | peerGone id =>
      obtain ⟨sequences, rfl, hnext⟩ := h
      simp only [Operation.about?]
      by_cases hid : id = peer
      · rw [if_pos hid]
        refine ⟨⟨_, rfl, ?_⟩, rfl, rfl⟩
        simp only [Streamer.apply, nextSequence_peerGone, hid, ite_true]
      · rw [if_neg hid]
        refine ⟨⟨sequences, rfl, ?_⟩, by simpa [Operation.endsPeer] using hid, rfl⟩
        simpa only [Streamer.apply, nextSequence_peerGone, hid, ite_false] using hnext
  | setAvatarMode | nextFrame | setAvatar | setListening | setSound =>
      refine ⟨hkept (fun _ => rfl) fun _ _ _ htick => ?_, rfl, rfl⟩
      cases htick

variable {s peer} in
theorem Agrees.recentFrom {t : Streamer} (h : Agrees peer s t) (operations : List Operation)
    (sent : List Datagram) :
    Agrees peer (s.run operations) (t.run (operations.filterMap (Operation.about? peer))) ∧
      recentFrom peer t (operations.filterMap (Operation.about? peer)) sent =
        recentFrom peer s operations sent := by
  induction operations generalizing s t sent with
  | nil => exact ⟨h, rfl⟩
  | cons operation rest ih =>
      have happly := h.apply operation
      cases habout : operation.about? peer with
      | none =>
          rw [habout] at happly
          obtain ⟨hagrees, hends, hnone⟩ := happly
          rw [List.filterMap_cons_none habout, Streamer.recentFrom, hends, hnone, List.append_nil]
          exact ih hagrees sent
      | some own =>
          rw [habout] at happly
          obtain ⟨hagrees, hends, hsame⟩ := happly
          rw [List.filterMap_cons_some habout, Streamer.recentFrom, hends, hsame,
            Streamer.recentFrom]
          exact ih hagrees _

end Numbering

/-- Audio datagrams are numbered for each peer. Whatever is done to a streamer, what was sent to a
peer since it was last gone, or from the start, carries the numbers from zero on, modulo 2^16, in
the order of sending, voiced and silent frames alike, and the number of the next datagram follows.
What is done to other peers does not matter: without their entries in the directories, and without
their going, the same datagrams are sent to the peer and the same number comes next. What a tick
sends besides is no audio: identity and billboard, and the state of the avatar. -/
theorem audio_is_numbered (settings : HostSettings) (operations : List Operation) (peer : Nat) :
    let s := (new settings).run operations
    let sent := (new settings).recent peer operations
    let own := operations.filterMap (Operation.about? peer)
    (sent.map Datagram.number? =
        (List.range sent.length).map (fun i => some (UInt16.ofNat i)) ∧
      s.nextSequence peer = UInt16.ofNat sent.length) ∧
    ((new settings).recent peer own = sent ∧
      ((new settings).run own).nextSequence peer = s.nextSequence peer) ∧
    ∀ network avatar? now,
      let (report, packets, _) := s.tick network avatar? now
      ∀ packet ∈ packets.take (packets.length - report.audioPackets),
        (∃ name, packet = .identity name ∨ packet = .billboard name) ∨
          ∃ avatar entry, avatar? = some avatar ∧ entry ∈ network.ofRole .avatarMixer ∧
            packet = .packet entry.id (network.headerOf .avatarData ++ avatar.state) := by
  intro s sent own
  refine ⟨?_, ?_, ?_⟩
  · have hnumbered : s.Numbered peer sent := Numbered.recentFrom ⟨rfl, rfl⟩ operations
    refine ⟨?_, hnumbered.2⟩
    rw [hnumbered.1, countFrom, List.map_map]
    simp
  · have hagrees : Agrees peer (new settings) (new settings) := ⟨[], rfl, rfl⟩
    obtain ⟨⟨_, -, hnext⟩, hsame⟩ := hagrees.recentFrom operations []
    exact ⟨hsame, hnext⟩
  · intro network avatar? now
    cases hasks : s.asks? (.tick network avatar? now) with
    | none => simp [tick_of_none s network avatar? now hasks]
    | some pose =>
        obtain ⟨hmode, avatar, rfl, -⟩ := asks_tick_iff.mp hasks
        rw [tick_parts s network avatar now hmode]
        dsimp only
        intro packet hpacket
        rw [List.length_append, Nat.add_sub_cancel, List.take_left] at hpacket
        rcases List.mem_append.mp hpacket with hslow | hstate
        · left
          exact slow_of_mem hslow
        · right
          obtain ⟨entry, hentry, rfl⟩ := List.mem_map.mp hstate
          exact ⟨avatar, entry, rfl, hentry, rfl⟩

/-- A peer that is listed twice gets two numbers a tick. Another peer that comes and goes takes none
of them. -/
example :
    let avatar : Avatar := ⟨"a", [], default⟩
    let pair : Directory := ⟨[⟨7, .audioMixer⟩, ⟨8, .audioMixer⟩, ⟨7, .audioMixer⟩], none⟩
    let alone : Directory := ⟨[⟨7, .audioMixer⟩, ⟨8, .other⟩], some [1, 2, 3]⟩
    let operations : List Operation := [.setAvatarMode true 0, .setListening true,
      .tick pair (some avatar) 1, .setSound (some [1, 0]), .peerGone 8, .tick alone (some avatar) 2]
    ((new .standard).recent 7 operations).map Datagram.number? = [some 0, some 1, some 2] := by
  decide +kernel

end Streamer

end TickHost
