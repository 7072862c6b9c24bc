import TickHost.Proofs.Packets

/-!
How often the slow packets go out. Identity and billboard have an interval each. It is counted from
the moment at which avatar mode is switched on and anew from every packet, and a tick sends one
packet of a kind once the interval has passed, however late it comes. Ticks without a living avatar,
other switches and the packets of the other kind make no difference.
-/

namespace TickHost.Streamer

/-- The packets that go out once in an interval. -/
inductive Slow where
  | identity
  | billboard
deriving DecidableEq, Repr

namespace Slow

def interval (settings : HostSettings) : Slow → Nat
  | identity => settings.identityInterval * 1000
  | billboard => settings.billboardInterval * 1000

def schedule (s : Streamer) : Slow → Schedule
  | identity => s.identity
  | billboard => s.billboard

/-- The avatar that a packet of this kind is about. -/
def avatar? : Slow → Sent → Option String
  | identity, .identity avatar => some avatar
  | billboard, .billboard avatar => some avatar
  | _, _ => none

end Slow

/-- The avatars for which an operation sends packets of a kind. -/
def slowOf (k : Slow) (s : Streamer) : Operation → List String
  | .tick network avatar? now => (s.tick network avatar? now).2.1.filterMap k.avatar?
  | _ => []

/-- When an operation takes place, where that matters. -/
def Operation.time? : Operation → Option Nat
  | .setAvatarMode _ now | .tick _ _ now => some now
  | _ => none

section Steps

variable (s : Streamer) (k : Slow)

theorem spend_schedule : s.spend.isAvatar = s.isAvatar ∧ k.schedule s.spend = k.schedule s := by
  unfold spend
  split
  · exact ⟨rfl, rfl⟩
  · dsimp only
    split
    · cases k <;> exact ⟨rfl, rfl⟩
    · cases k <;> exact ⟨rfl, rfl⟩

/-- What a tick does to a schedule. -/
theorem tick_schedule (network : Directory) (avatar? : Option Avatar) (now : Nat) :
    (s.apply (.tick network avatar? now)).isAvatar = s.isAvatar ∧
      k.schedule (s.apply (.tick network avatar? now)) =
        if (s.asks? (.tick network avatar? now)).isSome then (k.schedule s).advance now
        else k.schedule s := by
  obtain ⟨sequences, hnext⟩ := tick_rest s network avatar? now
  obtain ⟨hmode, hschedule⟩ := s.spend_schedule k
  rw [hnext]
  split
  · refine ⟨hmode, ?_⟩
    rw [← hschedule]
    cases k <;> rfl
  · cases k <;> exact ⟨rfl, rfl⟩

theorem sendTo_fast (frame : AudioFrame) (header : List UInt8) (peers : List Peer) :
    (sendTo frame header peers s).1.filterMap k.avatar? = [] := by
  induction peers generalizing s with
  | nil => rfl
  | cons peer rest ih =>
      rw [sendTo, List.filterMap_cons_none (by cases k <;> rfl)]
      exact ih (s.takeSequence peer.id).2

theorem statePackets_fast (network : Directory) (avatar : Avatar) :
    (statePackets network avatar).filterMap k.avatar? = [] := by
  rw [statePackets, List.filterMap_map, List.filterMap_eq_nil_iff]
  intro peer _
  cases k <;> rfl

theorem slowPackets_of (avatar : Avatar) (now : Nat) :
    (s.slowPackets avatar now).filterMap k.avatar? =
      if (k.schedule s).isDue now then [avatar.name] else [] := by
  cases k <;> cases hidentity : s.identity.isDue now <;>
    cases hbillboard : s.billboard.isDue now <;>
    simp only [slowPackets, Slow.schedule, hidentity, hbillboard] <;> rfl

/-- A tick sends a packet of a kind if one is due, and no more than one. -/
theorem slowOf_tick (network : Directory) (avatar? : Option Avatar) (now : Nat) :
    s.slowOf k (.tick network avatar? now) =
      if s.isAvatar ∧ (k.schedule s).isDue now then avatar?.toList.map Avatar.name else [] := by
  cases hasks : s.asks? (.tick network avatar? now) with
  | none =>
      rw [slowOf, tick_of_none s network avatar? now hasks]
      cases hmode : s.isAvatar with
      | false => rfl
      | true =>
          cases havatar : avatar? with
          | none => simp
          | some avatar => simp [asks?, hmode, havatar] at hasks
  | some pose =>
      obtain ⟨hmode, avatar, rfl, -⟩ := asks_tick_iff.mp hasks
      rw [slowOf, tick_parts s network avatar now hmode]
      rcases (s.nextFrame avatar.pose).1 with _ | frame <;>
        simp only [List.filterMap_append, statePackets_fast, sendTo_fast, slowPackets_of,
          List.append_nil, hmode, true_and, Option.toList_some, List.map_cons, List.map_nil]

/-- Any other operation leaves a schedule alone, unless it switches avatar mode. -/
theorem apply_schedule {operation : Operation} (hmode : ∀ on now, operation ≠ .setAvatarMode on now)
    (htick : ∀ network avatar? now, operation ≠ .tick network avatar? now) :
    (s.apply operation).isAvatar = s.isAvatar ∧
      k.schedule (s.apply operation) = k.schedule s := by
  cases operation with
  | setAvatarMode on now => exact absurd rfl (hmode on now)
  | tick network avatar? now => exact absurd rfl (htick network avatar? now)
  | nextFrame pose =>
      rw [apply, nextFrame_snd]
      exact s.spend_schedule k
  | setAvatar _ | setListening _ | setSound _ | peerGone _ => cases k <;> exact ⟨rfl, rfl⟩

theorem setAvatarMode_schedule (on : Bool) (now : Nat) :
    (s.setAvatarMode on now).isAvatar = on ∧ k.schedule (s.setAvatarMode on now) =
      if on then (k.schedule s).arm now else (k.schedule s).disarm := by
  cases on <;> cases k <;> exact ⟨rfl, rfl⟩

end Steps

/-! ### Histories -/

section Histories

variable (settings : HostSettings) (operations : List Operation) (k : Slow)

/-- The streamer before an operation, counted from zero. -/
def stateAt (n : Nat) : Streamer :=
  (new settings).run (operations.take n)

/-- Operation `n` switches avatar mode from off to on. -/
def SwitchesOn (n now : Nat) : Prop :=
  operations[n]? = some (.setAvatarMode true now) ∧ (stateAt settings operations n).isAvatar = false

/-- Operation `n` is a tick that sends a packet of a kind. -/
def Sends (n now : Nat) : Prop :=
  ∃ network avatar?, operations[n]? = some (.tick network avatar? now) ∧
    (stateAt settings operations n).slowOf k (.tick network avatar? now) ≠ []

/-- The last switch from off to on before operation `n`. -/
def LastSwitch (n i time : Nat) : Prop :=
  i < n ∧ SwitchesOn settings operations i time ∧
    ∀ j, i < j → j < n → ∀ other, ¬ SwitchesOn settings operations j other

/-- The last packet of a kind before operation `n`, if it was sent since the last switch. -/
def LastPacket (n i time : Nat) : Prop :=
  i < n ∧ Sends settings operations k i time ∧
    ∀ j, i < j → j < n → ∀ other, ¬ SwitchesOn settings operations j other ∧
      ¬ Sends settings operations k j other

/-- What the interval is counted from. -/
def Counts (n i time : Nat) : Prop :=
  LastSwitch settings operations n i time ∨ LastPacket settings operations k n i time

/-- When packets of a kind go out: for any settings and anything that is done to a streamer. -/
structure Cadence : Prop where
  /-- A tick sends a packet of the kind exactly if avatar mode is on, the avatar is alive and the
  interval has passed since the last switch and since the last packet since then. -/
  sends : ∀ {n network avatar? now}, operations[n]? = some (.tick network avatar? now) →
    (Sends settings operations k n now ↔
      (stateAt settings operations n).isAvatar = true ∧ avatar?.isSome = true ∧
      (∀ i time, LastSwitch settings operations n i time → time + k.interval settings ≤ now) ∧
      ∀ i time, LastPacket settings operations k n i time → time + k.interval settings ≤ now)
  /-- It sends no more than one, for its avatar, and nothing else sends any. -/
  one : ∀ {n operation}, operations[n]? = some operation →
    (stateAt settings operations n).slowOf k operation = [] ∨
      ∃ network avatar now, operation = .tick network (some avatar) now ∧
        (stateAt settings operations n).slowOf k operation = [avatar.name]
  /-- While avatar mode is on there is a last switch. -/
  switched : ∀ {n}, (stateAt settings operations n).isAvatar = true →
    ∃ i time, LastSwitch settings operations n i time
  /-- If times do not go back, two packets are an interval apart. -/
  apart : (operations.filterMap Operation.time?).Pairwise (· ≤ ·) → ∀ {i j earlier later}, i < j →
    Sends settings operations k i earlier → Sends settings operations k j later →
    earlier + k.interval settings ≤ later
  /-- To turn avatar mode on when it is on changes nothing. -/
  again : ∀ {n} now, (stateAt settings operations n).isAvatar = true →
    (stateAt settings operations n).setAvatarMode true now = stateAt settings operations n

/-- What the schedule of a kind shows. -/
structure Keeps (n : Nat) : Prop where
  interval : (k.schedule (stateAt settings operations n)).interval = k.interval settings
  off : (stateAt settings operations n).isAvatar = false →
    (k.schedule (stateAt settings operations n)).next = none
  on : (stateAt settings operations n).isAvatar = true → ∃ next,
    (k.schedule (stateAt settings operations n)).next = some next ∧
    (∃ i time, Counts settings operations k n i time ∧ next = time + k.interval settings) ∧
    ∀ i time, Counts settings operations k n i time → time + k.interval settings ≤ next
  switched : (stateAt settings operations n).isAvatar = true →
    ∃ i time, LastSwitch settings operations n i time

end Histories

section Keeping

variable {settings : HostSettings} {operations : List Operation} {k : Slow} {n i time : Nat}

theorem stateAt_succ {operation : Operation} (hn : operations[n]? = some operation) :
    stateAt settings operations (n + 1) = (stateAt settings operations n).apply operation := by
  rw [stateAt, List.take_add_one, hn]
  simp [stateAt, run, List.foldl_append]

theorem stateAt_over (hn : operations[n]? = none) :
    stateAt settings operations (n + 1) = stateAt settings operations n := by
  rw [stateAt, List.take_add_one, hn]
  simp [stateAt]

theorem latest_succ (happens : Nat → Prop) {quiet : Nat → Prop} :
    (i < n + 1 ∧ happens i ∧ ∀ j, i < j → j < n + 1 → quiet j) ↔
      (i = n ∧ happens n) ∨ (i < n ∧ happens i ∧ ∀ j, i < j → j < n → quiet j) ∧ quiet n := by
  constructor
  · rintro ⟨hin, hhappens, hquiet⟩
    rcases Nat.lt_or_eq_of_le (Nat.le_of_lt_succ hin) with hlt | rfl
    · refine .inr ⟨⟨hlt, hhappens, fun j hij hjn => ?_⟩, hquiet n hlt (Nat.lt_succ_self n)⟩
      exact hquiet j hij (Nat.lt_succ_of_lt hjn)
    · exact .inl ⟨rfl, hhappens⟩
  · rintro (⟨rfl, hhappens⟩ | ⟨⟨hin, hhappens, hquiet⟩, hlast⟩)
    · exact ⟨Nat.lt_succ_self i, hhappens, fun j hij hji => absurd hij (by omega)⟩
    · refine ⟨Nat.lt_succ_of_lt hin, hhappens, fun j hij hjn => ?_⟩
      rcases Nat.lt_or_eq_of_le (Nat.le_of_lt_succ hjn) with hlt | rfl
      · exact hquiet j hij hlt
      · exact hlast

theorem lastSwitch_succ : LastSwitch settings operations (n + 1) i time ↔
    (i = n ∧ SwitchesOn settings operations n time) ∨
      LastSwitch settings operations n i time ∧ ∀ other, ¬ SwitchesOn settings operations n other :=
  latest_succ fun i => SwitchesOn settings operations i time

theorem lastPacket_succ : LastPacket settings operations k (n + 1) i time ↔
    (i = n ∧ Sends settings operations k n time) ∨
      LastPacket settings operations k n i time ∧ ∀ other,
        ¬ SwitchesOn settings operations n other ∧ ¬ Sends settings operations k n other :=
  latest_succ fun i => Sends settings operations k i time

theorem SwitchesOn.unique {other : Nat} (h : SwitchesOn settings operations n time)
    (hother : SwitchesOn settings operations n other) : time = other := by
  have hsame := h.1.symm.trans hother.1
  cases hsame
  rfl

theorem Sends.unique {other : Nat} (h : Sends settings operations k n time)
    (hother : Sends settings operations k n other) : time = other := by
  obtain ⟨network, avatar?, hn, -⟩ := h
  obtain ⟨network', avatar?', hn', -⟩ := hother
  have hsame := hn.symm.trans hn'
  cases hsame
  rfl

/-- A switch is no packet. -/
theorem SwitchesOn.not_sends {other : Nat} (h : SwitchesOn settings operations n time) :
    ¬ Sends settings operations k n other := by
  rintro ⟨network, avatar?, hn, -⟩
  have hsame := h.1.symm.trans hn
  cases hsame

/-- From a switch on only the switch counts. -/
theorem counts_switch (h : SwitchesOn settings operations n time) {other : Nat} :
    Counts settings operations k (n + 1) i other ↔ i = n ∧ other = time := by
  rw [Counts, lastSwitch_succ, lastPacket_succ]
  constructor
  · rintro ((⟨hi, hswitch⟩ | ⟨-, hnone⟩) | (⟨-, hsends⟩ | ⟨-, hnone⟩))
    · exact ⟨hi, hswitch.unique h⟩
    · exact absurd h (hnone time)
    · exact absurd hsends h.not_sends
    · exact absurd h (hnone time).1
  · rintro ⟨rfl, rfl⟩
    exact .inl (.inl ⟨rfl, h⟩)

/-- From a packet on the packet counts, and still the last switch. -/
theorem counts_sends (h : Sends settings operations k n time) {other : Nat} :
    Counts settings operations k (n + 1) i other ↔
      LastSwitch settings operations n i other ∨ i = n ∧ other = time := by
  have hswitch : ∀ other, ¬ SwitchesOn settings operations n other := fun _ hs => hs.not_sends h
  rw [Counts, lastSwitch_succ, lastPacket_succ]
  constructor
  · rintro ((⟨-, hon⟩ | ⟨hlast, -⟩) | (⟨hi, hsends⟩ | ⟨-, hnone⟩))
    · exact absurd hon (hswitch other)
    · exact .inl hlast
    · exact .inr ⟨hi, hsends.unique h⟩
    · exact absurd h (hnone time).2
  · rintro (hlast | ⟨rfl, rfl⟩)
    · exact .inl (.inr ⟨hlast, hswitch⟩)
    · exact .inr (.inl ⟨rfl, h⟩)

/-- Nothing is counted anew from an operation that neither switches nor sends. -/
theorem counts_quiet (hswitch : ∀ other, ¬ SwitchesOn settings operations n other)
    (hsends : ∀ other, ¬ Sends settings operations k n other) :
    Counts settings operations k (n + 1) i time ↔ Counts settings operations k n i time := by
  rw [Counts, lastSwitch_succ, lastPacket_succ, Counts]
  simp [hswitch, hsends]

/-- A tick sends a packet of a kind exactly if the schedule is due and the avatar is there. -/
theorem sends_iff {network : Directory} {avatar? : Option Avatar}
    (hn : operations[n]? = some (.tick network avatar? time)) :
    Sends settings operations k n time ↔ (stateAt settings operations n).isAvatar = true ∧
      avatar?.isSome = true ∧ (k.schedule (stateAt settings operations n)).isDue time = true := by
  have hone : Sends settings operations k n time ↔
      (stateAt settings operations n).slowOf k (.tick network avatar? time) ≠ [] := by
    constructor
    · rintro ⟨network', avatar?', hn', hsends⟩
      cases hn.symm.trans hn'
      exact hsends
    · exact fun hsends => ⟨network, avatar?, hn, hsends⟩
  rw [hone, slowOf_tick]
  cases avatar? <;> simp

theorem isDue_iff {s : Schedule} {next : Nat} (hnext : s.next = some next) :
    s.isDue time = true ↔ next ≤ time := by
  simp [Schedule.isDue, hnext]

namespace Keeps

theorem zero : Keeps settings operations k 0 where
  interval := by cases k <;> rfl
  off _ := by cases k <;> rfl
  on hmode := by cases hmode
  switched hmode := by cases hmode

/-- An operation without a switch and without a packet that leaves the schedule alone. -/
theorem quiet (h : Keeps settings operations k n)
    (hswitch : ∀ other, ¬ SwitchesOn settings operations n other)
    (hsends : ∀ other, ¬ Sends settings operations k n other)
    (hmode : (stateAt settings operations (n + 1)).isAvatar =
      (stateAt settings operations n).isAvatar)
    (hschedule : k.schedule (stateAt settings operations (n + 1)) =
      k.schedule (stateAt settings operations n)) : Keeps settings operations k (n + 1) where
  interval := by rw [hschedule, h.interval]
  off hoff := by
    rw [hschedule]
    exact h.off (hmode ▸ hoff)
  on hon := by
    obtain ⟨next, hnext, ⟨i, time, hcounts, heq⟩, hall⟩ := h.on (hmode ▸ hon)
    rw [hschedule]
    refine ⟨next, hnext, ⟨i, time, (counts_quiet hswitch hsends).mpr hcounts, heq⟩, ?_⟩
    exact fun i time hcounts => hall i time ((counts_quiet hswitch hsends).mp hcounts)
  switched hon := by
    obtain ⟨i, time, hlast⟩ := h.switched (hmode ▸ hon)
    exact ⟨i, time, lastSwitch_succ.mpr (.inr ⟨hlast, hswitch⟩)⟩

/-- Avatar mode is switched on. -/
theorem switchOn (h : Keeps settings operations k n)
    (hswitch : SwitchesOn settings operations n time) : Keeps settings operations k (n + 1) := by
  obtain ⟨hon, hnext⟩ := (stateAt settings operations n).setAvatarMode_schedule k true time
  rw [← apply, ← stateAt_succ hswitch.1] at hon hnext
  refine ⟨?interval, ?off, ?armed, ?switched⟩
  case interval =>
    rw [hnext]
    exact h.interval
  case off =>
    intro hnot
    rw [hon] at hnot
    cases hnot
  case armed =>
    intro _
    refine ⟨time + k.interval settings, ?_, ⟨n, time, (counts_switch hswitch).mpr ⟨rfl, rfl⟩, rfl⟩,
      ?_⟩
    · rw [hnext, if_pos rfl, Schedule.arm, h.off hswitch.2, h.interval]
      rfl
    · intro i other hcounts
      obtain ⟨-, rfl⟩ := (counts_switch hswitch).mp hcounts
      exact Nat.le_refl _
  case switched => exact fun _ => ⟨n, time, lastSwitch_succ.mpr (.inl ⟨rfl, hswitch⟩)⟩

/-- A packet is sent. -/
theorem packet (h : Keeps settings operations k n) (hsends : Sends settings operations k n time) :
    Keeps settings operations k (n + 1) := by
  have hpacket := hsends
  obtain ⟨network, avatar?, hn, -⟩ := hpacket
  obtain ⟨hmode, halive, hdue⟩ := (sends_iff hn).mp hsends
  obtain ⟨hsame, hnext⟩ := (stateAt settings operations n).tick_schedule k network avatar? time
  rw [← stateAt_succ hn] at hsame hnext
  have hasks :
      ((stateAt settings operations n).asks? (.tick network avatar? time)).isSome = true := by
    simp [asks?, hmode, halive]
  rw [if_pos hasks, Schedule.advance, if_pos hdue, h.interval] at hnext
  obtain ⟨next, hold, -, hall⟩ := h.on hmode
  have hpassed : next ≤ time := (isDue_iff hold).mp hdue
  obtain ⟨i, first, hlast⟩ := h.switched hmode
  refine ⟨?interval, ?off, ?armed, ?switched⟩
  case interval => rw [hnext]
  case off =>
    intro hnot
    rw [hsame, hmode] at hnot
    cases hnot
  case armed =>
    intro _
    refine ⟨time + k.interval settings, by rw [hnext],
      ⟨n, time, (counts_sends hsends).mpr (.inr ⟨rfl, rfl⟩), rfl⟩, ?_⟩
    intro j other hcounts
    rcases (counts_sends hsends).mp hcounts with hswitch | ⟨-, rfl⟩
    · have hswitched := hall j other (.inl hswitch)
      omega
    · exact Nat.le_refl _
  case switched =>
    exact fun _ => ⟨i, first, lastSwitch_succ.mpr (.inr ⟨hlast, fun _ hs => hs.not_sends hsends⟩)⟩

/-- Arming what is armed changes nothing. -/
theorem arm_again (h : Keeps settings operations k n)
    (hmode : (stateAt settings operations n).isAvatar = true) (now : Nat) :
    (k.schedule (stateAt settings operations n)).arm now =
      k.schedule (stateAt settings operations n) := by
  obtain ⟨next, hnext, -⟩ := h.on hmode
  rw [Schedule.arm, hnext, Option.getD_some, ← hnext]

/-- Avatar mode is switched off, or on when it is on. -/
theorem setMode (h : Keeps settings operations k n) {on : Bool} {now : Nat}
    (hn : operations[n]? = some (.setAvatarMode on now))
    (hswitch : ∀ other, ¬ SwitchesOn settings operations n other) :
    Keeps settings operations k (n + 1) := by
  have hsends : ∀ other, ¬ Sends settings operations k n other := by
    rintro other ⟨_, _, hop, -⟩
    cases hn.symm.trans hop
  obtain ⟨hmode, hnext⟩ := (stateAt settings operations n).setAvatarMode_schedule k on now
  rw [← apply, ← stateAt_succ hn] at hmode hnext
  cases on with
  | true =>
      cases hbefore : (stateAt settings operations n).isAvatar with
      | false => exact absurd ⟨hn, hbefore⟩ (hswitch now)
      | true =>
          refine h.quiet hswitch hsends (hmode.trans hbefore.symm) ?_
          rw [hnext, if_pos rfl, h.arm_again hbefore]
  | false =>
      rw [if_neg (by decide)] at hnext
      refine ⟨?_, fun _ => by rw [hnext]; rfl, ?_, ?_⟩
      · rw [hnext]
        exact h.interval
      · intro hnot
        rw [hmode] at hnot
        cases hnot
      · intro hnot
        rw [hmode] at hnot
        cases hnot

/-- A tick that sends no packet of the kind. -/
theorem idle (h : Keeps settings operations k n) {network : Directory} {avatar? : Option Avatar}
    {now : Nat} (hn : operations[n]? = some (.tick network avatar? now))
    (hsends : ∀ other, ¬ Sends settings operations k n other) :
    Keeps settings operations k (n + 1) := by
  obtain ⟨hmode, hnext⟩ := (stateAt settings operations n).tick_schedule k network avatar? now
  rw [← stateAt_succ hn] at hmode hnext
  refine h.quiet ?_ hsends hmode ?_
  · rintro other ⟨hop, -⟩
    cases hn.symm.trans hop
  · rw [hnext]
    split
    · rename_i hasks
      obtain ⟨pose, hpose⟩ := Option.isSome_iff_exists.mp hasks
      obtain ⟨hon, avatar, rfl, -⟩ := asks_tick_iff.mp hpose
      have hdue : (k.schedule (stateAt settings operations n)).isDue now ≠ true :=
        fun hdue => hsends now ((sends_iff hn).mpr ⟨hon, rfl, hdue⟩)
      rw [Schedule.advance, if_neg hdue]
    · rfl

/-- What a schedule shows after one more operation. -/
theorem step (h : Keeps settings operations k n) : Keeps settings operations k (n + 1) := by
  by_cases hswitch : ∃ time, SwitchesOn settings operations n time
  · obtain ⟨time, hswitch⟩ := hswitch
    exact h.switchOn hswitch
  by_cases hsends : ∃ time, Sends settings operations k n time
  · obtain ⟨time, hsends⟩ := hsends
    exact h.packet hsends
  have hnone := fun time hs => hswitch ⟨time, hs⟩
  have hsilent := fun time hs => hsends ⟨time, hs⟩
  cases hn : operations[n]? with
  | none =>
      have hsame : stateAt settings operations (n + 1) = stateAt settings operations n :=
        stateAt_over hn
      exact h.quiet hnone hsilent (by rw [hsame]) (by rw [hsame])
  | some operation =>
      by_cases hmode : ∃ on now, operation = .setAvatarMode on now
      · obtain ⟨on, now, rfl⟩ := hmode
        exact h.setMode hn hnone
      by_cases htick : ∃ network avatar? now, operation = .tick network avatar? now
      · obtain ⟨network, avatar?, now, rfl⟩ := htick
        exact h.idle hn hsilent
      obtain ⟨hsame, hnext⟩ := (stateAt settings operations n).apply_schedule k
        (fun on now heq => hmode ⟨on, now, heq⟩)
        (fun network avatar? now heq => htick ⟨network, avatar?, now, heq⟩)
      rw [← stateAt_succ hn] at hsame hnext
      exact h.quiet hnone hsilent hsame hnext

theorem all (n : Nat) : Keeps settings operations k n := by
  induction n with
  | zero => exact .zero
  | succ n ih => exact ih.step

end Keeps

/-- After a packet there is always something to count from that is no older. -/
theorem Sends.counted (h : Sends settings operations k i time) (hin : i < n) :
    ∃ j since, i ≤ j ∧ Counts settings operations k n j since := by
  induction hin with
  | refl => exact ⟨i, time, Nat.le_refl i, (counts_sends h).mpr (.inr ⟨rfl, rfl⟩)⟩
  | @step n hin ih =>
      obtain ⟨j, since, hij, hcounts⟩ := ih
      by_cases hswitch : ∃ now, SwitchesOn settings operations n now
      · obtain ⟨now, hswitch⟩ := hswitch
        exact ⟨n, now, Nat.le_of_lt hin, (counts_switch hswitch).mpr ⟨rfl, rfl⟩⟩
      by_cases hsends : ∃ now, Sends settings operations k n now
      · obtain ⟨now, hsends⟩ := hsends
        exact ⟨n, now, Nat.le_of_lt hin, (counts_sends hsends).mpr (.inr ⟨rfl, rfl⟩)⟩
      · refine ⟨j, since, hij, (counts_quiet ?_ ?_).mpr hcounts⟩
        · exact fun now hs => hswitch ⟨now, hs⟩
        · exact fun now hs => hsends ⟨now, hs⟩

/-- What is counted from is an operation at that time. -/
theorem Counts.at_time (h : Counts settings operations k n i time) :
    ∃ operation, operations[i]? = some operation ∧ operation.time? = some time := by
  rcases h with ⟨-, ⟨hop, -⟩, -⟩ | ⟨-, ⟨network, avatar?, hop, -⟩, -⟩
  · exact ⟨_, hop, rfl⟩
  · exact ⟨_, hop, rfl⟩

theorem times_mono (hsorted : (operations.filterMap Operation.time?).Pairwise (· ≤ ·)) {j : Nat}
    {first second : Operation} {earlier later : Nat} (hij : i ≤ j)
    (hfirst : operations[i]? = some first) (hearlier : first.time? = some earlier)
    (hsecond : operations[j]? = some second) (hlater : second.time? = some later) :
    earlier ≤ later := by
  rcases Nat.lt_or_eq_of_le hij with hlt | rfl
  · rw [List.pairwise_filterMap] at hsorted
    obtain ⟨hi, rfl⟩ := List.getElem?_eq_some_iff.mp hfirst
    obtain ⟨hj, rfl⟩ := List.getElem?_eq_some_iff.mp hsecond
    exact List.pairwise_iff_getElem.mp hsorted i j hi hj hlt earlier hearlier later hlater
  · cases hfirst.symm.trans hsecond
    cases hearlier.symm.trans hlater
    exact Nat.le_refl _

end Keeping

/-- Identity and billboard packets both keep to their intervals. -/
theorem slow_packets_keep_cadence (settings : HostSettings) (operations : List Operation)
    (k : Slow) : Cadence settings operations k := by
  have hkeeps : ∀ k n, Keeps settings operations k n := fun _ => Keeps.all
  have hsends : ∀ {n network avatar? now},
      operations[n]? = some (.tick network avatar? now) →
      (Sends settings operations k n now ↔
        (stateAt settings operations n).isAvatar = true ∧ avatar?.isSome = true ∧
        ∀ i time, Counts settings operations k n i time → time + k.interval settings ≤ now) := by
    intro n network avatar? now hn
    rw [sends_iff hn]
    refine and_congr_right fun hmode => and_congr_right fun _ => ?_
    obtain ⟨next, hnext, ⟨i, time, hcounts, rfl⟩, hall⟩ := (hkeeps k n).on hmode
    rw [isDue_iff hnext]
    exact ⟨fun hdue j other hother => Nat.le_trans (hall j other hother) hdue,
      fun hpassed => hpassed i time hcounts⟩
  refine ⟨?sends, ?one, fun hmode => (hkeeps k _).switched hmode, ?apart, ?again⟩
  case sends =>
    intro n network avatar? now hn
    rw [hsends hn]
    refine and_congr_right fun _ => and_congr_right fun _ => ⟨fun h => ?_, fun h i time => ?_⟩
    · exact ⟨fun i time hlast => h i time (.inl hlast), fun i time hlast => h i time (.inr hlast)⟩
    · rintro (hlast | hlast)
      · exact h.1 i time hlast
      · exact h.2 i time hlast
  case one =>
    intro n operation hn
    by_cases htick : ∃ network avatar? now, operation = .tick network avatar? now
    · obtain ⟨network, avatar?, now, rfl⟩ := htick
      rw [slowOf_tick]
      split
      · cases avatar? with
        | none => exact .inl rfl
        | some avatar => exact .inr ⟨network, avatar, now, rfl, rfl⟩
      · exact .inl rfl
    · left
      cases operation <;> first | rfl | exact absurd ⟨_, _, _, rfl⟩ htick
  case apart =>
    intro hsorted i j earlier later hij hi hj
    obtain ⟨l, since, hil, hcounts⟩ := hi.counted hij
    obtain ⟨_, _, hfirst, -⟩ := hi
    have hafter := hj
    obtain ⟨_, _, hlater, -⟩ := hafter
    obtain ⟨operation, hop, htime⟩ := hcounts.at_time
    have hmono := times_mono hsorted hil hfirst rfl hop htime
    have hpassed := ((hsends hlater).mp hj).2.2 l since hcounts
    omega
  case again =>
    intro n now hmode
    have hidentity := (hkeeps .identity n).arm_again hmode now
    have hbillboard := (hkeeps .billboard n).arm_again hmode now
    simp only [Slow.schedule] at hidentity hbillboard
    rw [setAvatarMode, if_pos rfl, hidentity, hbillboard, ← hmode]

/-- A tick that comes late sends one identity packet, and the next one is due an interval after it.
To turn avatar mode on once more makes no difference, and a tick without an avatar leaves the
packet to a later one. -/
example :
    let avatar : Avatar := ⟨"a", [], default⟩
    let operations : List Operation := [.setAvatarMode true 0, .tick default (some avatar) 999999,
      .tick default (some avatar) 3500000, .setAvatarMode true 4000000,
      .tick default (some avatar) 4400000, .tick default none 4500000,
      .tick default (some avatar) 4600000]
    (operations.zipIdx.map fun (operation, n) =>
      (stateAt .standard operations n).slowOf .identity operation) =
        [[], [], ["a"], [], [], [], ["a"]] := by
  decide +kernel

end TickHost.Streamer
