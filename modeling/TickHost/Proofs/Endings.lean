import TickHost.Config
import TickHost.Proofs.Cadence
import TickHost.Proofs.Rounding

/-!
When a sound comes to its end. Every tick in avatar mode with a living avatar spends a slice, so the
sound is detached after as many of them as it has slices, if a slice is not empty. Slices are empty
where the settings leave less than half a sample to a tick, and then a sound is never spent.
-/

namespace TickHost.Streamer

/-- A tick that finds its avatar alive. -/
structure LiveTick where
  network : Directory
  avatar : Avatar
  now : Nat
deriving Inhabited

def LiveTick.operation (t : LiveTick) : Operation :=
  .tick t.network (some t.avatar) t.now

/-- How many slices of a size a sound has. There is one slice to an empty sound, too. -/
def slices (length size : Nat) : Nat :=
  (length - 1) / size + 1

section Endings

variable {s : Streamer} {pcm : List UInt8} {size calls : Nat}

theorem lt_slices_iff {length : Nat} (h : length = 0 ∨ 0 < size) :
    calls < slices length size ↔ calls = 0 ∨ size * calls < length := by
  rw [slices, Nat.lt_succ_iff]
  rcases h with rfl | hsize
  · simp
  · rw [Nat.le_div_iff_mul_le hsize, Nat.mul_comm]
    constructor
    · intro hle
      rcases Nat.eq_zero_or_pos calls with hzero | hpos
      · exact .inl hzero
      · have := Nat.mul_pos hsize hpos
        omega
    · rintro (rfl | hlt)
      · simp
      · omega

theorem Plays.hasSound_iff (h : Plays pcm size calls s) :
    s.hasSound = true ↔ calls = 0 ∨ size * calls < pcm.length := by
  have hcursor := h.cursor
  split at hcursor
  · rename_i hleft
    simp [hasSound, (Prod.mk.inj hcursor).1, hleft]
  · rename_i hover
    simp [hasSound, (Prod.mk.inj hcursor).1, hover]

/-- In avatar mode every tick that finds its avatar alive asks for a frame. -/
theorem length_cuts_ticks (hmode : s.isAvatar = true) (ticks : List LiveTick) :
    (s.cuts (ticks.map LiveTick.operation)).length = ticks.length := by
  induction ticks generalizing s with
  | nil => rfl
  | cons t rest ih =>
      have hasks : s.asks? t.operation = some t.avatar.pose :=
        asks_tick_iff.mpr ⟨hmode, t.avatar, rfl, rfl⟩
      have hkept : (s.apply t.operation).isAvatar = true :=
        (s.tick_schedule .identity t.network (some t.avatar) t.now).1.trans hmode
      simp only [List.map_cons, cuts, hasks, List.length_cons, ih hkept]

theorem ticks_keep_sound (ticks : List LiveTick) :
    ∀ operation ∈ ticks.map LiveTick.operation, operation.isSetSound = false := by
  intro operation hmem
  obtain ⟨t, -, rfl⟩ := List.mem_map.mp hmem
  rfl

/-- How long a sound is attached depends on nothing but the requests for frames. -/
theorem hasSound_run_iff (settings : HostSettings) (before after : List Operation)
    (hother : ∀ operation ∈ after, operation.isSetSound = false) :
    let attached := ((new settings).run before).setSound (some pcm)
    (attached.run after).hasSound = true ↔ (attached.cuts after).length = 0 ∨
      2 * settings.samplesPerTick * (attached.cuts after).length < pcm.length := by
  intro attached
  have hattached := plays_setSound ((new settings).run before) pcm
  rw [run_samplesPerTick] at hattached
  have hplays := (hattached.run after hother).1
  rw [Nat.zero_add] at hplays
  exact hplays.hasSound_iff

/-- Where slices are empty, a sound that is not empty is never spent. -/
theorem hasSound_run_of_pace (settings : HostSettings) (before after : List Operation)
    (hother : ∀ operation ∈ after, operation.isSetSound = false) (hsound : pcm ≠ [])
    (hpace : settings.tickInterval * settings.sampleRate < 500000) :
    ((((new settings).run before).setSound (some pcm)).run after).hasSound = true := by
  refine (hasSound_run_iff settings before after hother).mpr (.inr ?_)
  rw [HostSettings.samplesPerTick_eq_zero_iff.mpr hpace, Nat.mul_zero, Nat.zero_mul]
  exact List.length_pos_iff.mpr hsound

end Endings

/-- Every sound comes to its end if a tick has a sample, that is if at least half a sample falls to
it. Whatever was done to the streamer before, and whatever but another sound comes in between: the
sound is detached with a request for a frame that is fixed from the start, no sooner and no later.
In avatar mode every tick with a living avatar is such a request. If ticks have no samples, only an
empty sound is ever detached. -/
theorem sound_ends (settings : HostSettings) (before : List Operation) (pcm : List UInt8)
    (hmode : ((new settings).run before).isAvatar = true) :
    let attached := ((new settings).run before).setSound (some pcm)
    (settings.samplesPerTick = 0 ↔ settings.tickInterval * settings.sampleRate < 500000) ∧
    (pcm = [] ∨ 500000 ≤ settings.tickInterval * settings.sampleRate → ∃ count,
      (∀ ticks : List LiveTick,
        (attached.run (ticks.map LiveTick.operation)).hasSound = true ↔ ticks.length < count) ∧
      ∀ after, (∀ operation ∈ after, operation.isSetSound = false) →
        ((attached.run after).hasSound = true ↔ (attached.cuts after).length < count)) ∧
    (pcm ≠ [] → settings.tickInterval * settings.sampleRate < 500000 →
      ∀ after, (∀ operation ∈ after, operation.isSetSound = false) →
        (attached.run after).hasSound = true) := by
  intro attached
  refine ⟨HostSettings.samplesPerTick_eq_zero_iff, fun hfinite => ?_,
    fun hsound hpace after hother =>
      hasSound_run_of_pace settings before after hother hsound hpace⟩
  have hsize : pcm.length = 0 ∨ 0 < 2 * settings.samplesPerTick := by
    refine hfinite.imp List.length_eq_zero_iff.mpr fun hpace => ?_
    have hpositive : settings.samplesPerTick ≠ 0 := fun hzero =>
      Nat.not_lt_of_le hpace (HostSettings.samplesPerTick_eq_zero_iff.mp hzero)
    omega
  have hends : ∀ after, (∀ operation ∈ after, operation.isSetSound = false) →
      ((attached.run after).hasSound = true ↔
        (attached.cuts after).length < slices pcm.length (2 * settings.samplesPerTick)) :=
    fun after hother =>
      (hasSound_run_iff settings before after hother).trans (lt_slices_iff hsize).symm
  refine ⟨slices pcm.length (2 * settings.samplesPerTick), fun ticks => ?_, hends⟩
  have hstreams : attached.isAvatar = true := hmode
  rw [hends _ (ticks_keep_sound ticks), length_cuts_ticks hstreams ticks]

/-- At sixty ticks a second, thirty samples a second are just enough. -/
theorem slowest_sound_ends :
    let attached (rate : Nat) := ((new ⟨16667, rate, 1000, 5000, 1024⟩).run
      [.setAvatarMode true 0]).setSound (some [1, 0, 2])
    (∃ count, ∀ ticks : List LiveTick,
      ((attached 30).run (ticks.map LiveTick.operation)).hasSound = true ↔ ticks.length < count) ∧
    ∀ ticks : List LiveTick,
      ((attached 29).run (ticks.map LiveTick.operation)).hasSound = true := by
  intro attached
  obtain ⟨count, hticks, -⟩ := (sound_ends ⟨16667, 30, 1000, 5000, 1024⟩ [.setAvatarMode true 0]
    [1, 0, 2] rfl).2.1 (.inr (by decide))
  exact ⟨⟨count, hticks⟩, fun ticks => (sound_ends ⟨16667, 29, 1000, 5000, 1024⟩
    [.setAvatarMode true 0] [1, 0, 2] rfl).2.2 (by decide) (by decide) _ (ticks_keep_sound ticks)⟩

/-- A sample rate of zero is read without complaint, and then a sound of one sample stays attached
however long the avatar is streamed. -/
theorem not_always_ends :
    ¬ ∀ text config, Config.read text = .ok config → ∀ before pcm,
      ((new config.host).run before).isAvatar = true → ∃ count, ∀ ticks : List LiveTick,
        ticks.length = count → ((((new config.host).run before).setSound (some pcm)).run
          (ticks.map LiveTick.operation)).hasSound = false := by
  intro h
  have hread : Config.read "[host]\nsample_rate = 0\n" =
      .ok ⟨⟨16667, 0, 1000, 5000, 1024⟩, ⟨none, []⟩⟩ := by decide +kernel
  obtain ⟨count, hends⟩ := h _ _ hread [.setAvatarMode true 0] [1, 0] rfl
  have hdetached := hends (List.replicate count default) List.length_replicate
  rw [hasSound_run_of_pace _ _ _ (ticks_keep_sound _) (by decide) (by decide)] at hdetached
  cases hdetached

end TickHost.Streamer
