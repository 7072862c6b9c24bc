import TickHost.Session.Stream

/-!
How a streamer cuts its sound. Every operation leaves the sound and the cursor alone, or spends the
next slice, or attaches a sound anew. So the slices that are spent since then follow each other from
the first byte on, each as long as a tick, and the one that reaches the end detaches the sound.
-/

namespace TickHost.Streamer

/-- What can be done to a streamer. A tick is told which avatar is alive. -/
inductive Operation where
  | setAvatarMode (on : Bool) (now : Nat)
  | setAvatar (avatar : Option Nat)
  | setListening (on : Bool)
  | setSound (sound : Option (List UInt8))
  | peerGone (peer : Nat)
  | nextFrame (pose : Pose)
  | tick (network : Directory) (avatar? : Option Avatar) (now : Nat)

/-- The sound is attached or detached. -/
def Operation.isSetSound : Operation → Bool
  | .setSound _ => true
  | _ => false

def apply (s : Streamer) : Operation → Streamer
  | .setAvatarMode on now => s.setAvatarMode on now
  | .setAvatar avatar => s.setAvatar avatar
  | .setListening on => s.setListening on
  | .setSound sound => s.setSound sound
  | .peerGone peer => s.peerGone peer
  | .nextFrame pose => (s.nextFrame pose).2
  | .tick network avatar? now => (s.tick network avatar? now).2.2

def run (s : Streamer) (operations : List Operation) : Streamer :=
  operations.foldl apply s

/-- The pose under which an operation asks for an audio frame. A tick asks for one if avatar mode is
on and the avatar is alive. -/
def asks? (s : Streamer) : Operation → Option Pose
  | .nextFrame pose => some pose
  | .tick _ avatar? _ => if s.isAvatar then avatar?.map Avatar.pose else none
  | _ => none

/-- What a request for an audio frame comes to. -/
structure Cut where
  pose : Pose
  /-- The bytes of the attached sound that are spent: the first one, and the first one not. -/
  range? : Option (Nat × Nat)
  frame? : Option AudioFrame
deriving DecidableEq, Repr

def cut (s : Streamer) (pose : Pose) : Cut where
  pose := pose
  range? := s.sound.map fun pcm => (s.sentBytes, s.sentBytes + s.available pcm)
  frame? := (s.nextFrame pose).1

/-- The requests for audio frames that the operations make, in order. -/
def cuts : Streamer → List Operation → List Cut
  | _, [] => []
  | s, operation :: rest =>
      match s.asks? operation with
      | some pose => s.cut pose :: cuts (s.apply operation) rest
      | none => cuts (s.apply operation) rest

/-- The bytes of a sound from one place up to another. -/
def bytesIn (pcm : List UInt8) (range : Nat × Nat) : List UInt8 :=
  (pcm.drop range.1).take (range.2 - range.1)

/-- The bytes without half a sample at the end. -/
def wholeSamples (bytes : List UInt8) : List UInt8 :=
  bytes.take (bytes.length / 2 * 2)

/-- A voiced frame carries the slice that is spent with it, and there is one where a byte of the
slice's whole samples is not zero. -/
def Cut.Carries (pcm : List UInt8) (c : Cut) : Prop :=
  ∀ pose samples, c.frame? = some (.voiced pose samples) ↔ pose = c.pose ∧ ∃ range,
    c.range? = some range ∧ samples = wholeSamples (bytesIn pcm range) ∧ ∃ byte ∈ samples, byte ≠ 0

/-- The range of the slice that is spent after so many others, in a sound of this length. There is
one while bytes are left, and also, though it may be empty, right after the sound was attached. -/
def rangeAfter (length size calls : Nat) : Option (Nat × Nat) :=
  if calls = 0 ∨ size * calls < length then
    some (size * calls, min (size * (calls + 1)) length)
  else none

/-- Send the frame to every audio mixer, if there is one. -/
def sendFrame (network : Directory) : Option AudioFrame × Streamer → Nat × List Sent × Streamer
  | (none, s) => (0, [], s)
  | (some frame, s) =>
      let mixers := network.ofRole .audioMixer
      (mixers.length, sendTo frame (network.headerOf frame.kind) mixers s)

/-- The slow packets are counted as sent. -/
def passSlow (s : Streamer) (now : Nat) : Streamer :=
  { s with identity := s.identity.advance now, billboard := s.billboard.advance now }

section Slices

variable {s : Streamer} {pcm : List UInt8}

/-! ### What one operation does -/

theorem nextFrame_snd (s : Streamer) (pose : Pose) : (s.nextFrame pose).2 = s.spend := by
  unfold nextFrame
  split
  · rfl
  · split <;> rfl

/-- A tick asks for its frame whether or not it would be sent: without a sound and without a
listener there is none, and asking changes nothing. -/
theorem audioTick_eq (s : Streamer) (network : Directory) (pose : Pose) :
    s.audioTick network pose = sendFrame network (s.nextFrame pose) := by
  unfold audioTick
  split
  · rcases s.nextFrame pose with ⟨_ | frame, t⟩ <;> rfl
  · rename_i hidle
    simp only [Bool.or_eq_true, hasSound, Option.isSome_iff_ne_none, not_or, ne_eq,
      Decidable.not_not] at hidle
    simp [nextFrame, voice?, spend, sendFrame, hidle]

theorem tick_eq (s : Streamer) (network : Directory) (avatar : Avatar) (now : Nat)
    (hmode : s.isAvatar = true) :
    let audio := sendFrame network ((s.passSlow now).nextFrame avatar.pose)
    let state := network.headerOf .avatarData ++ avatar.state
    s.tick network (some avatar) now =
      (⟨1, audio.1⟩,
        s.slowPackets avatar now ++ ((network.broadcast .avatarMixer state).map fun (id, bytes) =>
          Sent.packet id bytes) ++ audio.2.1,
        audio.2.2) := by
  simp [tick, hmode, audioTick_eq, passSlow]

theorem asks_tick_iff {network : Directory} {avatar? : Option Avatar} {now : Nat} {pose : Pose} :
    s.asks? (.tick network avatar? now) = some pose ↔
      s.isAvatar = true ∧ ∃ avatar, avatar? = some avatar ∧ avatar.pose = pose := by
  cases hmode : s.isAvatar <;> simp [asks?, hmode]

theorem tick_of_none (s : Streamer) (network : Directory) (avatar? : Option Avatar) (now : Nat)
    (hnone : s.asks? (.tick network avatar? now) = none) :
    s.tick network avatar? now = (⟨0, 0⟩, [], s) := by
  cases hmode : s.isAvatar <;> cases avatar? <;> simp_all [tick, asks?]

/-- What of a streamer decides how it cuts its sound. -/
def playback (s : Streamer) : Option (List UInt8) × Nat × Nat :=
  (s.sound, s.sentBytes, s.samplesPerTick)

theorem sendTo_playback (frame : AudioFrame) (header : List UInt8) (peers : List Peer)
    (s : Streamer) : (sendTo frame header peers s).2.playback = s.playback := by
  induction peers generalizing s with
  | nil => rfl
  | cons peer rest ih => exact ih (s.takeSequence peer.id).2

theorem sendFrame_playback (network : Directory) (asked : Option AudioFrame × Streamer) :
    (sendFrame network asked).2.2.playback = asked.2.playback := by
  rcases asked with ⟨_ | frame, t⟩
  · rfl
  · exact sendTo_playback ..

/-- A sound that is spent is detached, and the cursor goes back. -/
theorem spend_playback (s : Streamer) :
    s.spend.playback =
      match s.sound with
      | none => s.playback
      | some pcm =>
          let sent := s.sentBytes + s.available pcm
          if sent = pcm.length then (none, 0, s.samplesPerTick)
          else (some pcm, sent, s.samplesPerTick) := by
  unfold spend
  cases hsound : s.sound with
  | none => rfl
  | some pcm =>
      dsimp only
      split
      · rfl
      · rfl

/-- An operation that asks for a frame spends a slice, and one that does not leaves the sound as it
is, unless it attaches or detaches one. -/
theorem apply_playback (s : Streamer) (operation : Operation)
    (hother : operation.isSetSound = false) :
    (s.apply operation).playback =
      if (s.asks? operation).isSome then s.spend.playback else s.playback := by
  cases operation with
  | setSound sound => cases hother
  | setAvatarMode on now => cases on <;> rfl
  | setAvatar avatar => rfl
  | setListening on => rfl
  | peerGone peer => rfl
  | nextFrame pose => simp [apply, asks?, nextFrame_snd]
  | tick network avatar? now =>
      cases hasks : s.asks? (.tick network avatar? now) with
      | none => simp [apply, tick_of_none s network avatar? now hasks]
      | some pose =>
          obtain ⟨hmode, avatar, rfl, -⟩ := asks_tick_iff.mp hasks
          have hspend : (s.passSlow now).spend.playback = s.spend.playback := by
            rw [spend_playback, spend_playback]
            rfl
          simp only [apply, tick_eq s network avatar now hmode, sendFrame_playback, nextFrame_snd,
            hspend, Option.isSome_some, ite_true]

/-! ### What is kept -/

/-- The cursor stays within the sound, and is back at its start without one. -/
def InBounds (s : Streamer) : Prop :=
  match s.sound with
  | none => s.sentBytes = 0
  | some pcm => s.sentBytes ≤ pcm.length

theorem InBounds.of_playback {s t : Streamer} (h : s.InBounds) (heq : t.playback = s.playback) :
    t.InBounds := by
  simp only [playback, Prod.mk.injEq] at heq
  obtain ⟨hsound, hsent, -⟩ := heq
  simpa only [InBounds, hsound, hsent] using h

theorem InBounds.spend (h : s.InBounds) : s.spend.InBounds := by
  unfold Streamer.spend
  cases hsound : s.sound with
  | none => exact h
  | some pcm =>
      dsimp only
      split
      · simp [InBounds]
      · simp only [InBounds, hsound] at h ⊢
        simp only [available]
        omega

theorem InBounds.apply (h : s.InBounds) (operation : Operation) : (s.apply operation).InBounds := by
  cases hset : operation.isSetSound with
  | true =>
      cases operation with
      | setSound sound => cases sound <;> simp [Streamer.apply, setSound, InBounds]
      | _ => cases hset
  | false =>
      have hnext := apply_playback s operation hset
      split at hnext
      · exact h.spend.of_playback hnext
      · exact h.of_playback hnext

theorem InBounds.run (h : s.InBounds) (operations : List Operation) :
    (s.run operations).InBounds := by
  induction operations generalizing s with
  | nil => exact h
  | cons operation rest ih => exact ih (h.apply operation)

theorem new_inBounds (settings : HostSettings) : (new settings).InBounds :=
  rfl

/-- The length of a tick is set once and for all. -/
theorem apply_samplesPerTick (s : Streamer) (operation : Operation) :
    (s.apply operation).samplesPerTick = s.samplesPerTick := by
  cases hset : operation.isSetSound with
  | true =>
      cases operation with
      | setSound sound => rfl
      | _ => cases hset
  | false =>
      have hnext : (s.apply operation).playback.2.2 = s.playback.2.2 := by
        rw [apply_playback s operation hset, spend_playback]
        split
        · cases s.sound with
          | none => rfl
          | some pcm => dsimp only; split <;> rfl
        · rfl
      exact hnext

theorem run_samplesPerTick (s : Streamer) (operations : List Operation) :
    (s.run operations).samplesPerTick = s.samplesPerTick := by
  induction operations generalizing s with
  | nil => rfl
  | cons operation rest ih =>
      exact (ih (s.apply operation)).trans (apply_samplesPerTick s operation)

/-! ### From a sound on -/

/-- The sound was attached, and since then so many slices were asked for. -/
structure Plays (pcm : List UInt8) (size calls : Nat) (s : Streamer) : Prop where
  size_eq : 2 * s.samplesPerTick = size
  cursor : (s.sound, s.sentBytes) =
    if calls = 0 ∨ size * calls < pcm.length then (some pcm, size * calls) else (none, 0)

theorem plays_setSound (s : Streamer) (pcm : List UInt8) :
    Plays pcm (2 * s.samplesPerTick) 0 (s.setSound (some pcm)) :=
  ⟨rfl, by simp [setSound]⟩

variable {size calls : Nat}

theorem Plays.of_playback {s t : Streamer} (h : Plays pcm size calls s)
    (heq : t.playback = s.playback) : Plays pcm size calls t := by
  simp only [playback, Prod.mk.injEq] at heq
  obtain ⟨hsound, hsent, hsamples⟩ := heq
  exact ⟨by rw [hsamples, h.size_eq], by rw [hsound, hsent, h.cursor]⟩

/-- Either a slice is left, which begins at the cursor, or the sound was detached. -/
theorem Plays.cases (h : Plays pcm size calls s) :
    (s.sound = some pcm ∧ s.sentBytes = size * calls ∧
      s.sentBytes + s.available pcm = min (size * (calls + 1)) pcm.length ∧
      rangeAfter pcm.length size calls = some (s.sentBytes, s.sentBytes + s.available pcm)) ∨
    (s.sound = none ∧ s.sentBytes = 0 ∧ calls ≠ 0 ∧ pcm.length ≤ size * calls ∧
      rangeAfter pcm.length size calls = none) := by
  have hcursor := h.cursor
  by_cases hleft : calls = 0 ∨ size * calls < pcm.length
  · left
    simp only [hleft, ite_true, Prod.mk.injEq] at hcursor
    have hle : size * calls ≤ pcm.length := by
      rcases hleft with hzero | hlt
      · simp [hzero]
      · omega
    have hsize := h.size_eq
    have hstep : size * (calls + 1) = size * calls + size := Nat.mul_succ ..
    have hstop : s.sentBytes + s.available pcm = min (size * (calls + 1)) pcm.length := by
      rw [available, hcursor.2]
      omega
    exact ⟨hcursor.1, hcursor.2, hstop, by rw [rangeAfter, if_pos hleft, hstop, hcursor.2]⟩
  · right
    simp only [hleft, ite_false, Prod.mk.injEq] at hcursor
    simp only [not_or, Nat.not_lt] at hleft
    exact ⟨hcursor.1, hcursor.2, hleft.1, hleft.2, by rw [rangeAfter, if_neg (by omega)]⟩

theorem Plays.spend (h : Plays pcm size calls s) : Plays pcm size (calls + 1) s.spend := by
  have hnext := spend_playback s
  rcases h.cases with ⟨hsound, hsent, hstop, -⟩ | ⟨hsound, hsent, -, hover, -⟩
  · simp only [hsound, hstop] at hnext
    split at hnext
    · rename_i hend
      simp only [playback, Prod.mk.injEq] at hnext
      refine ⟨by rw [hnext.2.2, h.size_eq], ?_⟩
      rw [hnext.1, hnext.2.1, if_neg (by omega)]
    · rename_i hleft
      simp only [playback, Prod.mk.injEq] at hnext
      refine ⟨by rw [hnext.2.2, h.size_eq], ?_⟩
      rw [hnext.1, hnext.2.1, if_pos (by omega), Nat.min_eq_left (by omega)]
  · simp only [hsound, playback, Prod.mk.injEq] at hnext
    refine ⟨by rw [hnext.2.2, h.size_eq], ?_⟩
    have hstep : size * (calls + 1) = size * calls + size := Nat.mul_succ ..
    rw [hnext.1, hnext.2.1, hsent, if_neg (by omega)]

theorem Plays.cut_range (h : Plays pcm size calls s) (pose : Pose) :
    (s.cut pose).range? = rangeAfter pcm.length size calls := by
  rcases h.cases with ⟨hsound, -, -, hrange⟩ | ⟨hsound, -, -, -, hrange⟩ <;>
    simp [cut, hsound, hrange]

/-- What is sent of a slice are its whole samples. -/
theorem slice_eq (s : Streamer) (pcm : List UInt8) :
    s.slice pcm = wholeSamples (bytesIn pcm (s.sentBytes, s.sentBytes + s.available pcm)) := by
  have hlength : ((pcm.drop s.sentBytes).take (s.available pcm)).length = s.available pcm := by
    simp only [List.length_take, List.length_drop, available]
    omega
  rw [slice, wholeSamples, bytesIn, Nat.add_sub_cancel_left, hlength, List.take_take,
    Nat.min_eq_left (by omega)]

theorem Plays.cut_carries (h : Plays pcm size calls s) (pose : Pose) :
    (s.cut pose).Carries pcm := by
  intro pose' samples
  rcases h.cases with ⟨hsound, -, -, -⟩ | ⟨hsound, -, -, -, -⟩
  · have hrange : (s.cut pose).range? = some (s.sentBytes, s.sentBytes + s.available pcm) := by
      simp [cut, hsound]
    by_cases hsilent : (s.slice pcm).all (· = 0) = true
    · have hvoice : s.voice? = none := by simp [voice?, hsound, hsilent]
      constructor
      · intro hframe
        simp only [cut, nextFrame, hvoice] at hframe
        split at hframe <;> simp at hframe
      · rintro ⟨-, range, hrange', hsamples, byte, hbyte, haudible⟩
        rw [hrange, Option.some.injEq] at hrange'
        rw [hsamples, ← hrange', ← slice_eq] at hbyte
        simp only [List.all_eq_true, decide_eq_true_eq] at hsilent
        exact absurd (hsilent byte hbyte) haudible
    · have hvoice : s.voice? = some (s.slice pcm) := by simp [voice?, hsound, hsilent]
      have hframe : (s.cut pose).frame? = some (.voiced pose (s.slice pcm)) := by
        simp [cut, nextFrame, hvoice]
      have haudible : ∃ byte ∈ s.slice pcm, byte ≠ 0 := by simpa using hsilent
      rw [hframe, Option.some.injEq, AudioFrame.voiced.injEq]
      constructor
      · rintro ⟨rfl, rfl⟩
        exact ⟨rfl, _, hrange, slice_eq s pcm, haudible⟩
      · rintro ⟨rfl, range, hrange', hsamples, -⟩
        rw [hrange, Option.some.injEq] at hrange'
        exact ⟨rfl, by rw [hsamples, ← hrange', slice_eq]⟩
  · have hvoice : s.voice? = none := by simp [voice?, hsound]
    have hrange : (s.cut pose).range? = none := by simp [cut, hsound]
    constructor
    · intro hframe
      simp only [cut, nextFrame, hvoice] at hframe
      split at hframe <;> simp at hframe
    · rintro ⟨-, range, hrange', -⟩
      rw [hrange] at hrange'
      cases hrange'

/-- One more operation: it asks for a frame and spends a slice, or all is as before. -/
theorem Plays.apply (h : Plays pcm size calls s) {operation : Operation}
    (hother : operation.isSetSound = false) :
    Plays pcm size (calls + (s.asks? operation).toList.length) (s.apply operation) := by
  have hnext := apply_playback s operation hother
  cases hasks : s.asks? operation with
  | none =>
      simp only [hasks, Option.isSome_none, Bool.false_eq_true, ite_false] at hnext
      exact h.of_playback hnext
  | some pose =>
      simp only [hasks, Option.isSome_some, ite_true] at hnext
      exact h.spend.of_playback hnext

theorem bytesIn_append (pcm : List UInt8) {a b c : Nat} (hab : a ≤ b) (hbc : b ≤ c) :
    bytesIn pcm (a, b) ++ bytesIn pcm (b, c) = bytesIn pcm (a, c) := by
  have hlength : c - a = (b - a) + (c - b) := by omega
  have hdrop : pcm.drop b = (pcm.drop a).drop (b - a) := by
    rw [List.drop_drop, Nat.add_sub_cancel' hab]
  simp only [bytesIn]
  rw [hlength, List.take_add, hdrop]

theorem bytesIn_min (pcm : List UInt8) (a b : Nat) :
    bytesIn pcm (a, min b pcm.length) = bytesIn pcm (a, b) := by
  simp only [bytesIn]
  rw [List.take_eq_take_iff, List.length_drop]
  omega

theorem bytesIn_rangeAfter (pcm : List UInt8) (size calls : Nat) :
    ((rangeAfter pcm.length size calls).map (bytesIn pcm)).getD [] =
      bytesIn pcm (size * calls, size * (calls + 1)) := by
  unfold rangeAfter
  split
  · exact bytesIn_min pcm (size * calls) (size * (calls + 1))
  · have hover : pcm.length ≤ size * calls := by omega
    simp [bytesIn, List.drop_eq_nil_of_le hover]

/-- What a run comes to while the sound is not exchanged: the slices follow each other. -/
theorem Plays.run (h : Plays pcm size calls s) (operations : List Operation)
    (hother : ∀ operation ∈ operations, operation.isSetSound = false) :
    let cuts := s.cuts operations
    Plays pcm size (calls + cuts.length) (s.run operations) ∧
      cuts.map Cut.range? = (List.range' calls cuts.length).map (rangeAfter pcm.length size) ∧
      (cuts.flatMap fun c => (c.range?.map (bytesIn pcm)).getD []) =
        bytesIn pcm (size * calls, size * (calls + cuts.length)) ∧
      ∀ c ∈ cuts, c.Carries pcm := by
  induction operations generalizing s calls with
  | nil => exact ⟨h, rfl, by simp [cuts, bytesIn], by simp [cuts]⟩
  | cons operation rest ih =>
      have happly := h.apply (hother operation List.mem_cons_self)
      have hrest := ih happly fun other hmem => hother other (List.mem_cons_of_mem _ hmem)
      cases hasks : s.asks? operation with
      | none =>
          simp only [cuts, hasks]
          simpa [hasks, run] using hrest
      | some pose =>
          simp only [cuts, hasks]
          simp only [hasks, Option.toList_some, List.length_singleton] at hrest
          obtain ⟨hplays, hranges, hbytes, hcarries⟩ := hrest
          have hcount : calls + (((s.apply operation).cuts rest).length + 1) =
              calls + 1 + ((s.apply operation).cuts rest).length := by omega
          refine ⟨?_, ?_, ?_, ?_⟩
          · rw [List.length_cons, hcount]
            exact hplays
          · rw [List.map_cons, List.length_cons, List.range'_succ, List.map_cons, hranges,
              h.cut_range pose]
          · rw [List.flatMap_cons, hbytes, h.cut_range pose, bytesIn_rangeAfter,
              bytesIn_append pcm (Nat.mul_le_mul_left _ (by omega))
                (Nat.mul_le_mul_left _ (by omega)), List.length_cons, hcount]
          · intro c hc
            rcases List.mem_cons.mp hc with rfl | hlater
            · exact h.cut_carries pose
            · exact hcarries c hlater

end Slices

/-- A streamed sound is cut without loss, repetition or misalignment. Whatever was done to the
streamer before a sound is attached and whatever but another sound comes after that: the slices that
were spent are the ranges of the sound one after the other, a tick long each, and together the bytes
up to as many ticks; a voiced frame carries the whole samples of its own slice; and the sound is
attached until its end is reached, with the cursor where the next slice begins. A tick asks for one
frame, and only in avatar mode for a living avatar. No range leaves its sound, and without a sound
the cursor is back at its start. -/
theorem sound_is_cut (settings : HostSettings) (before after : List Operation) (pcm : List UInt8)
    (hother : ∀ operation ∈ after, operation.isSetSound = false) :
    let attached := ((new settings).run before).setSound (some pcm)
    let cuts := attached.cuts after
    let played := attached.run after
    let size := 2 * settings.samplesPerTick
    (cuts.map Cut.range? = (List.range cuts.length).map (rangeAfter pcm.length size) ∧
      (cuts.flatMap fun c => (c.range?.map (bytesIn pcm)).getD []) =
        pcm.take (min (size * cuts.length) pcm.length) ∧
      (∀ c ∈ cuts, c.Carries pcm) ∧
      (played.sound, played.sentBytes) =
        if cuts.length = 0 ∨ size * cuts.length < pcm.length then
          (some pcm, size * cuts.length)
        else (none, 0)) ∧
    (∀ s network avatar? now,
      match asks? s (.tick network avatar? now) with
      | none => s.tick network avatar? now = (⟨0, 0⟩, [], s)
      | some pose => ∃ ahead,
          let (count, audio, next) := sendFrame network ((s.passSlow now).nextFrame pose)
          s.tick network avatar? now = (⟨1, count⟩, ahead ++ audio, next)) ∧
    ∀ operations,
      let s := (new settings).run operations
      (s.sound = none → s.sentBytes = 0) ∧
        ∀ pcm, s.sound = some pcm → s.sentBytes ≤ pcm.length ∧
          s.sentBytes + s.available pcm / 2 * 2 ≤ pcm.length := by
  intro attached cuts played size
  refine ⟨?_, ?_, ?_⟩
  · have hattached : Plays pcm size 0 attached := by
      have hplays := plays_setSound ((new settings).run before) pcm
      rwa [run_samplesPerTick] at hplays
    obtain ⟨hplays, hranges, hbytes, hcarries⟩ := hattached.run after hother
    rw [Nat.zero_add] at hplays hbytes
    refine ⟨?_, ?_, hcarries, hplays.cursor⟩
    · rw [hranges, List.range_eq_range']
    · rw [hbytes, bytesIn, Nat.mul_zero, List.drop_zero, Nat.sub_zero]
      exact List.take_eq_take_min ..
  · intro s network avatar? now
    cases hasks : s.asks? (.tick network avatar? now) with
    | none => exact tick_of_none s network avatar? now hasks
    | some pose =>
        obtain ⟨hmode, avatar, rfl, rfl⟩ := asks_tick_iff.mp hasks
        exact ⟨_, tick_eq s network avatar now hmode⟩
  · intro operations s
    have hbounds : s.InBounds := (new_inBounds settings).run operations
    constructor
    · intro hnone
      simpa [InBounds, hnone] using hbounds
    · intro pcm hsound
      simp only [InBounds, hsound] at hbounds
      refine ⟨hbounds, ?_⟩
      simp only [available]
      omega

/-- Seven bytes at four a tick: the second slice ends in half a sample, and the third request finds
no sound any more. -/
theorem seven_bytes_are_cut :
    let settings : HostSettings := ⟨1000, 2000, 1000, 5000, 1024⟩
    let avatar : Avatar := ⟨"a", [], default⟩
    let before : List Operation := [.setAvatarMode true 0, .setSound (some [9, 9]),
      .nextFrame default]
    let after : List Operation := [.tick default (some avatar) 1, .tick default none 2,
      .setListening true, .nextFrame default, .tick default (some avatar) 3]
    let attached := ((new settings).run before).setSound (some [1, 0, 2, 0, 3, 0, 4])
    (∀ operation ∈ after, operation.isSetSound = false) ∧
      (attached.cuts after).map Cut.range? = [some (0, 4), some (4, 7), none] ∧
      ((attached.run after).sound, (attached.run after).sentBytes) = (none, 0) := by
  intro settings avatar before after attached
  have hother : ∀ operation ∈ after, operation.isSetSound = false := by decide
  have hsize : settings.samplesPerTick = 2 := by decide +kernel
  have hcount : (attached.cuts after).length = 3 := by decide +kernel
  obtain ⟨⟨hranges, -, -, hcursor⟩, -⟩ :=
    sound_is_cut settings before after [1, 0, 2, 0, 3, 0, 4] hother
  refine ⟨hother, hranges.trans ?_, hcursor.trans ?_⟩
  · rw [hcount, hsize]
    decide
  · rw [hcount, hsize]
    decide

end TickHost.Streamer

namespace TickHost.Session.StreamSession

open Streamer

/-- A session does nothing else to its streamer. -/
theorem step_streamer (session : StreamSession) (action : StreamStep) :
    ∃ operations, (session.step action).2.2.streamer = session.streamer.run operations := by
  have hticks (count now : Nat) : ∀ (session : StreamSession) (answer : TickReport × List Sent),
      ∃ operations, (ticks now count answer session).2.2.streamer =
        session.streamer.run operations := by
    induction count with
    | zero => exact fun session answer => ⟨[], rfl⟩
    | succ count ih =>
        intro session answer
        obtain ⟨later, hlater⟩ := ih (session.tick now).2.2
          ((session.tick now).1, (session.tick now).2.1)
        exact ⟨.tick session.network (session.avatars.attached? session.streamer) now :: later,
          hlater⟩
  cases action with
  | makeAvatar avatar => exact ⟨[.setAvatar (some (session.avatars.make avatar).1)], rfl⟩
  | attach avatar => exact ⟨[.setAvatar (session.avatars.named? avatar)], rfl⟩
  | mode on now => exact ⟨[.setAvatarMode on now], rfl⟩
  | listen on => exact ⟨[.setListening on], rfl⟩
  | sound pcm => exact ⟨[.setSound pcm], rfl⟩
  | peerGone id => exact ⟨[.peerGone id], rfl⟩
  | tick now =>
      exact ⟨[.tick session.network (session.avatars.attached? session.streamer) now], rfl⟩
  | ticks count now => exact hticks count now session (⟨0, 0⟩, [])
  | frame avatar =>
      cases havatar : (session.avatars.named? avatar).bind session.avatars.find? with
      | none => exact ⟨[], by simp [step, havatar]; rfl⟩
      | some a => exact ⟨[.nextFrame a.pose], by simp [step, havatar]; rfl⟩
  | _ => exact ⟨[], rfl⟩

end TickHost.Session.StreamSession
