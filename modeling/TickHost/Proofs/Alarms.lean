import TickHost.Proofs.Pumps
import TickHost.Proofs.Spans

/-!
When timers ring. Callbacks run between the look at the clock and the later timers of the same
pump; they may cancel, start others in slots that became free, sleep, or stop the host, and the
table of timers outlives the run. Through all of this a timer rings in a pump only, not before its
interval has passed, once if it is for one shot, and not after it was cleared or the run was
closed.
-/

namespace TickHost

open World Machine

/-- A timer of a host is fired: what was due at the moment `now` is being gone through, and it is
the turn of this timer. -/
structure Rings (σ : Nat → Machine) (key : Nat) (id : TimerId) (timer : Timer Callback)
    (now n : Nat) : Prop where
  executes : ∃ due rest, Executes σ n (.fire key now (id :: due)) rest
  live : ((σ n).world.host key).finished = false
  timer : (timersOf σ key n).find? id = some timer

/-- A timer comes to be under a handle. -/
structure Starts (σ : Nat → Machine) (key : Nat) (id : TimerId) (timer : Timer Callback)
    (n : Nat) : Prop where
  new : (timersOf σ key n).contains id = false
  timer : (timersOf σ key (n + 1)).find? id = some timer

/-- A timer is armed: when it starts, as of the time on the clock, and when it rings and repeats, as
of the moment at which the pump looked at the clock. -/
inductive Arms (σ : Nat → Machine) (key : Nat) (id : TimerId) : Nat → Nat → Prop where
  | start {timer : Timer Callback} {n : Nat} (hstarts : Starts σ key id timer n) :
      Arms σ key id (σ n).world.clock n
  | again {timer : Timer Callback} {now n : Nat} (hrings : Rings σ key id timer now n)
      (hagain : timer.once = false) : Arms σ key id now n

/-- A script clears a timer, and is told that it was live. -/
def Clears (σ : Nat → Machine) (key : Nat) (id : TimerId) (n : Nat) : Prop :=
  ∃ scope named timer actions rest,
    Executes σ n (.perform scope (.inScript named (.clear timer) :: actions)) rest ∧
    (Task.perform scope (.inScript named (.clear timer) :: actions)).actor? (σ n).world = some key ∧
    (σ n).world.timers.get? timer = some (some id) ∧
    ((σ n).world.doScriptDeed key scope.name (.clear timer)).2 = .flag true

variable {σ : Nat → Machine} {key n : Nat} {id : TimerId} {timer : Timer Callback} {now : Nat}

theorem Rings.contains (h : Rings σ key id timer now n) :
    (timersOf σ key n).contains id = true :=
  Timers.contains_iff.mpr ⟨timer, h.timer⟩

theorem Starts.contains (h : Starts σ key id timer n) :
    (timersOf σ key (n + 1)).contains id = true :=
  Timers.contains_iff.mpr ⟨timer, h.timer⟩

/-- The callback of a timer that rings is what comes next. -/
theorem Task.react_rings {w : World} {o : Outcome} {due : List TimerId}
    (hlive : (w.host key).finished = false) (htimer : (w.host key).timers.find? id = some timer) :
    react w o (.fire key now (id :: due)) =
      ⟨w.setHost key { w.host key with timers := ((w.host key).timers.fire id now).2 }, o,
        [.call key timer.callback [], .report key, .fire key now due]⟩ := by
  have hfire : ((w.host key).timers.fire id now).1 = some timer.callback := by
    rw [Timers.fire, htimer]
    dsimp only
    split <;> rfl
  simp only [react, fireOne, hlive, Bool.false_eq_true, if_false]
  split
  · rename_i heq
    simp [heq] at hfire
  · rename_i callback timers heq
    rw [heq] at hfire ⊢
    cases hfire
    rfl

/-- What ringing does to the timers. -/
theorem Rings.fire (h : Rings σ key id timer now n) :
    timersOf σ key (n + 1) = ((timersOf σ key n).fire id now).2 := by
  obtain ⟨due, rest, hexec⟩ := h.executes
  rw [timersOf, Behavior.world_after hexec, Task.react_rings h.live h.timer, host_setHost,
    if_pos rfl, timersOf]

/-- A timer for one shot is gone when it rings. -/
theorem Rings.gone (h : Rings σ key id timer now n) (honce : timer.once = true) :
    (timersOf σ key (n + 1)).contains id = false := by
  rw [h.fire, Timers.fire_once h.timer honce, Timers.contains_eq_false,
    Timers.find?_release_of_contains h.contains, if_pos rfl]

/-- A timer that repeats is armed again as of the moment of the pump. -/
theorem Rings.rearmed (h : Rings σ key id timer now n) (hagain : timer.once = false) :
    (timersOf σ key (n + 1)).find? id = some { timer with deadline := now + timer.interval } := by
  rw [h.fire, Timers.fire_again h.timer hagain, Timers.find?_rearmed h.timer, if_pos rfl]

theorem Clears.cancel (h : Clears σ key id n) :
    (timersOf σ key n).contains id = true ∧ (timersOf σ key (n + 1)).contains id = false := by
  obtain ⟨scope, named, timer, actions, rest, hexec, hactor, hid, hanswer⟩ := h
  have htimers : timersOf σ key (n + 1) = ((timersOf σ key n).cancel id).2 := by
    have hnote : ∀ (w : World) (entry : Entry), (w.note entry).host key = w.host key :=
      fun _ _ => rfl
    rw [timersOf, Behavior.world_after hexec, Task.react_inScript _ hactor]
    simp only [Task.startScriptDeed, hnote, doScriptDeed_clear hid, host_updateHost, if_true,
      timersOf]
  refine ⟨?_, ?_⟩
  · rw [doScriptDeed_clear hid] at hanswer
    simpa [timersOf] using hanswer
  · rw [htimers, Timers.contains_eq_false, Timers.find?_cancel, if_pos rfl]

namespace Behavior

variable (hσ : Behavior σ)

include hσ

/-- A timer that neither rings nor goes away stays as it is. -/
theorem timer_kept (hlive : (timersOf σ key n).contains id = true)
    (hlater : (timersOf σ key (n + 1)).contains id = true)
    (hquiet : ∀ timer now, ¬ Rings σ key id timer now n) :
    (timersOf σ key (n + 1)).find? id = (timersOf σ key n).find? id := by
  have htidy := (hσ.history key).tidy n
  cases hσ.touches key n with
  | none hsame => rw [hsame]
  | start callback milliseconds once other _ hstart =>
      have hfind := Timers.find?_schedule (timersOf σ key n) callback (milliseconds * 1000) once
        (σ n).world.clock htidy id
      have hvacant := Timers.find?_schedule_handle (timersOf σ key n) callback
        (milliseconds * 1000) once (σ n).world.clock htidy
      rw [hstart] at hfind hvacant
      have hother : id ≠ other := by
        intro heq
        rw [← heq] at hvacant
        simp [Timers.contains, hvacant] at hlive
      rw [hfind, if_neg hother]
  | clear other hclear =>
      rw [hclear] at hlater ⊢
      rw [Timers.contains, Timers.find?_cancel] at hlater
      rw [Timers.find?_cancel]
      split
      · rename_i heq
        simp [heq] at hlater
      · rfl
  | fire now other due rest callback hexec hfinished hfire =>
      have hother : id ≠ other := by
        rintro rfl
        obtain ⟨timer, htimer⟩ := Timers.contains_iff.mp hlive
        exact hquiet timer now ⟨⟨due, rest, hexec⟩, hfinished, htimer⟩
      have hafter : timersOf σ key (n + 1) = ((timersOf σ key n).fire other now).2 := by
        rw [hfire]
      rw [hafter]
      rcases Timers.fire_cases (timersOf σ key n) other now with ⟨-, h⟩ | ⟨timer, htimer, -, h⟩ |
        ⟨timer, htimer, -, h⟩
      · rw [h]
      · rw [h, Timers.find?_release_of_contains (Timers.contains_iff.mpr ⟨timer, htimer⟩),
          if_neg hother]
      · rw [h, Timers.find?_rearmed htimer, if_neg hother]
  | close origin rest _ hclose =>
      rw [hclose, Timers.contains, Timers.find?_cancelAll] at hlater
      cases hlater

/-- A timer starts because its host was asked for one, and is due one interval from then. -/
theorem started_by (hstarts : Starts σ key id timer n) :
    ∃ callback milliseconds once,
      ((σ n).world.setTimer key callback milliseconds once).1 = some id ∧
      timer = ⟨callback, milliseconds * 1000, once, (σ n).world.clock + milliseconds * 1000⟩ := by
  have htidy := (hσ.history key).tidy n
  obtain ⟨hnew, htimer⟩ := hstarts
  have hnone := Timers.contains_eq_false.mp hnew
  have hnothing : (timersOf σ key n).NoneNew (timersOf σ key (n + 1)) → ∃ callback milliseconds
      once, ((σ n).world.setTimer key callback milliseconds once).1 = some id ∧ timer =
        ⟨callback, milliseconds * 1000, once, (σ n).world.clock + milliseconds * 1000⟩ := by
    intro hnoneNew
    have hbefore := hnoneNew id (Timers.contains_iff.mpr ⟨timer, htimer⟩)
    rw [hnew] at hbefore
    cases hbefore
  cases hσ.touches key n with
  | none hsame => exact hnothing (hsame ▸ .refl _)
  | start callback milliseconds once other hid hstart =>
      have hfind := Timers.find?_schedule (timersOf σ key n) callback (milliseconds * 1000) once
        (σ n).world.clock htidy id
      rw [hstart] at hfind
      dsimp only at hfind
      rw [htimer] at hfind
      split at hfind
      · rename_i heq
        subst heq
        cases hfind
        exact ⟨callback, milliseconds, once, hid, rfl⟩
      · rw [hnone] at hfind
        cases hfind
  | clear other hclear => exact hnothing (hclear ▸ Timers.cancel_noneNew _ other)
  | fire now other due rest callback _ _ hfire =>
      have hfired := Timers.fire_noneNew (timersOf σ key n) other now
      rw [hfire] at hfired
      exact hnothing hfired
  | close origin rest _ hclose => exact hnothing (hclose ▸ Timers.cancelAll_noneNew _)

/-- Where a timer comes from: it starts, or it rings and repeats, or it was there already. -/
theorem timer_cases (htimer : (timersOf σ key (n + 1)).find? id = some timer) :
    Starts σ key id timer n ∨
    (∃ old now, Rings σ key id old now n ∧ old.once = false ∧
      timer = { old with deadline := now + old.interval }) ∨
    ((timersOf σ key n).find? id = some timer ∧ ∀ old now, ¬ Rings σ key id old now n) := by
  have hlater := Timers.contains_iff.mpr ⟨timer, htimer⟩
  by_cases hrings : ∃ old now, Rings σ key id old now n
  · right; left
    obtain ⟨old, now, hrings⟩ := hrings
    cases honce : old.once with
    | true =>
        rw [hrings.gone honce] at hlater
        cases hlater
    | false =>
        have hrearmed := hrings.rearmed honce
        rw [htimer] at hrearmed
        cases hrearmed
        exact ⟨old, now, hrings, honce, rfl⟩
  · have hquiet : ∀ old now, ¬ Rings σ key id old now n := fun old now h => hrings ⟨old, now, h⟩
    cases hlive : (timersOf σ key n).contains id with
    | false => exact .inl ⟨hlive, htimer⟩
    | true =>
        right; right
        rw [← hσ.timer_kept hlive hlater hquiet]
        exact ⟨htimer, hquiet⟩

/-- A timer was started before, as it is now but for its deadline. -/
theorem started_before (htimer : (timersOf σ key n).find? id = some timer) :
    ∃ s first, s < n ∧ Starts σ key id first s ∧ timer.callback = first.callback ∧
      timer.interval = first.interval ∧ timer.once = first.once := by
  induction n generalizing timer with
  | zero =>
      rw [(hσ.history key).starts] at htimer
      cases htimer
  | succ n ih =>
      have hearlier : ∀ old : Timer Callback, (timersOf σ key n).find? id = some old →
          timer.callback = old.callback → timer.interval = old.interval →
          timer.once = old.once → ∃ s first, s < n + 1 ∧ Starts σ key id first s ∧
            timer.callback = first.callback ∧ timer.interval = first.interval ∧
            timer.once = first.once := by
        intro old hold hcallback hinterval honce
        obtain ⟨s, first, hsn, hstarts, hcallback', hinterval', honce'⟩ := ih hold
        exact ⟨s, first, Nat.lt_succ_of_lt hsn, hstarts, hcallback.trans hcallback',
          hinterval.trans hinterval', honce.trans honce'⟩
      rcases hσ.timer_cases htimer with hstarts | ⟨old, now, hrings, -, rfl⟩ | ⟨hold, -⟩
      · exact ⟨n, timer, Nat.lt_succ_self n, hstarts, rfl, rfl, rfl⟩
      · exact hearlier old hrings.timer rfl rfl rfl
      · exact hearlier timer hold rfl rfl rfl

/-- A timer is due one interval after it was armed for the last time. -/
theorem armed_before (htimer : (timersOf σ key n).find? id = some timer) :
    ∃ a time, a < n ∧ Arms σ key id time a ∧ timer.deadline = time + timer.interval ∧
      ∀ i time', a < i → i < n → ¬ Arms σ key id time' i := by
  induction n generalizing timer with
  | zero =>
      rw [(hσ.history key).starts] at htimer
      cases htimer
  | succ n ih =>
      rcases hσ.timer_cases htimer with hstarts | ⟨old, now, hrings, hagain, rfl⟩ | ⟨hold, hquiet⟩
      · obtain ⟨callback, milliseconds, once, -, rfl⟩ := hσ.started_by hstarts
        refine ⟨n, _, Nat.lt_succ_self n, .start hstarts, rfl, ?_⟩
        intro i time' hni hin
        omega
      · refine ⟨n, now, Nat.lt_succ_self n, .again hrings hagain, rfl, ?_⟩
        intro i time' hni hin
        omega
      · obtain ⟨a, time, han, harms, hdeadline, hlast⟩ := ih hold
        refine ⟨a, time, Nat.lt_succ_of_lt han, harms, hdeadline, ?_⟩
        intro i time' hai hin hagain
        rcases Nat.lt_or_eq_of_le (Nat.le_of_lt_succ hin) with hlt | rfl
        · exact hlast i time' hai hlt hagain
        · cases hagain with
          | start hstarts =>
              have hnew := Timers.contains_eq_false.mp hstarts.new
              rw [hold] at hnew
              cases hnew
          | again hrings _ => exact hquiet _ _ hrings

/-- When a timer rings, it was due by the clock as the pump had read it. -/
theorem due_when_rings (hrings : Rings σ key id timer now n)
    (hbound : Timers.releases (timersOf σ key) id.slot n < UInt32.size) :
    timer.deadline ≤ now ∧ now ≤ (σ n).world.clock := by
  obtain ⟨due, rest, hexec⟩ := hrings.executes
  obtain ⟨d, hdn, -, hnow, hdue, honce⟩ := hσ.fired_once hexec
  obtain ⟨seen, hseen, hdeadline⟩ := Timers.mem_due.mp hdue
  have hlive : ∀ i, d ≤ i → i ≤ n → (timersOf σ key i).contains id = true := by
    intro i hdi hin
    exact (hσ.history key).live_between (Timers.contains_iff.mpr ⟨seen, hseen⟩) hdi hin
      hrings.contains hbound
  have hsame : ∀ i, d ≤ i → i ≤ n → (timersOf σ key i).find? id = some seen := by
    intro i hdi
    induction hdi with
    | refl => exact fun _ => hseen
    | @step i hdi ih =>
        intro hin
        rw [hσ.timer_kept (hlive i hdi (Nat.le_of_lt hin))
          (hlive (i + 1) (Nat.le_succ_of_le hdi) hin)]
        · exact ih (Nat.le_of_lt hin)
        · intro old now' hearlier
          obtain ⟨due', rest', hexec'⟩ := hearlier.executes
          exact honce i hdi hin now' due' rest' hexec'
  have htimer := hrings.timer
  rw [hsame n (Nat.le_of_lt hdn) (Nat.le_refl n)] at htimer
  cases htimer
  refine ⟨hdeadline, ?_⟩
  rw [hnow]
  exact hσ.clock_mono (Nat.le_of_lt hdn)

/-- Every start is under a handle of its own. -/
theorem starts_unique {m : Nat} {first second : Timer Callback} (hnm : n < m)
    (hbound : Timers.releases (timersOf σ key) id.slot (m + 1) < UInt32.size)
    (hfirst : Starts σ key id first n) (hsecond : Starts σ key id second m) : False := by
  have hgone := (hσ.history key).gone hfirst.contains hnm hsecond.new (Nat.le_succ m) hbound
  rw [hsecond.contains] at hgone
  cases hgone

/-- A timer that has lost its place does not ring any more. -/
theorem silent_after {a b : Nat} (hlive : (timersOf σ key a).contains id = true) (hab : a ≤ b)
    (hlost : (timersOf σ key b).contains id = false) (hbn : b ≤ n)
    (hbound : Timers.releases (timersOf σ key) id.slot n < UInt32.size) :
    ¬ Rings σ key id timer now n := by
  intro hrings
  have hgone := (hσ.history key).gone hlive hab hlost hbn hbound
  rw [hrings.contains] at hgone
  cases hgone

/-- A timer for one shot that has rung does not ring any more. -/
theorem silent_once {s k m : Nat} {first timer' : Timer Callback} {now' : Nat}
    (hstarts : Starts σ key id first s) (honce : first.once = true) (hsm : s < m) (hkm : k ≤ m)
    (hbound : Timers.releases (timersOf σ key) id.slot m < UInt32.size)
    (hrings : Rings σ key id timer now n) (hnk : n < k) : ¬ Rings σ key id timer' now' k := by
  have hless : ∀ i, i ≤ m → Timers.releases (timersOf σ key) id.slot i < UInt32.size := by
    intro i him
    exact Nat.lt_of_le_of_lt (Timers.releases_mono _ id.slot him) hbound
  obtain ⟨s', first', hsn, hstarts', -, -, hkind⟩ := hσ.started_before hrings.timer
  have hsame : s' = s := by
    rcases Nat.lt_trichotomy s s' with hlt | rfl | hgt
    · exact (hσ.starts_unique hlt (hless _ (by omega)) hstarts hstarts').elim
    · rfl
    · exact (hσ.starts_unique hgt (hless _ hsm) hstarts' hstarts).elim
  subst hsame
  have htimer := hstarts'.timer
  rw [hstarts.timer] at htimer
  cases htimer
  exact hσ.silent_after hrings.contains (Nat.le_succ n) (hrings.gone (hkind.trans honce)) hnk
    (hless k hkm)

/-- The callback of a timer that rings is called before anything else happens. -/
theorem called (hrings : Rings σ key id timer now n) : ∃ tail,
    (σ (n + 1)).agenda = .call key timer.callback [] :: tail ∧
    ∀ m, n < m → (σ m).agenda = .call key timer.callback [] :: tail ∨
      ∃ j, n < j ∧ j < m ∧ Executes σ j (.call key timer.callback []) tail := by
  obtain ⟨due, rest, hexec⟩ := hrings.executes
  have hreact : Task.react (σ n).world (σ n).outcome (.fire key now (id :: due)) = _ :=
    Task.react_rings hrings.live hrings.timer
  have hcrashed : (σ (n + 1)).world.crashed = false := by
    rw [world_after hexec, hreact]
    exact (hσ.sound n).uncrashed hexec.agenda
  have hagenda := after hexec hcrashed
  rw [hreact] at hagenda
  refine ⟨_, hagenda, fun m hnm => ?_⟩
  rcases hσ.stuck_until rfl rfl hagenda hnm with ⟨hstuck, -⟩ | ⟨j, hnj, hjm, hcalls, -⟩
  · exact .inl hstuck
  · exact .inr ⟨j, hnj, hjm, hcalls⟩

/-- A run is closed only when its host has stopped. -/
theorem finished_of_close {c : Nat} {origin : String} {rest : List Task}
    (hclose : Executes σ c (.close key origin) rest) : ((σ c).world.host key).finished = true := by
  obtain ⟨a, x, hac, hloops, hleave, hasked, hclosing⟩ := hσ.left (suffix_of_executes hclose)
  have hkey := (hσ.sound a).head hleave.agenda key (Task.host?_of_inside hloops.inside)
  apply hσ.finished_later (Nat.le_of_lt hac) hkey ?_ hasked
  rintro i hai hic ⟨below, hbegin⟩
  rcases Nat.lt_or_eq_of_le hai with hlt | rfl
  · exact hσ.not_begin Task.part_close (hclosing i hlt (Nat.le_of_lt hic)) hbegin.agenda
  · exact hσ.not_begin hloops.inside (suffix_of_executes hleave) hbegin.agenda

/-- From the end of a run to the beginning of the next its host has no timers. -/
theorem cleared_since {c : Nat} {origin : String} {rest : List Task}
    (hclose : Executes σ c (.close key origin) rest) (hcn : c < n)
    (hbegins : ∀ i, c < i → i < n → ¬ Begins σ key i) : (timersOf σ key n).Cleared := by
  have hkey := (hσ.sound c).head hclose.agenda key rfl
  induction hcn with
  | refl =>
      rw [timersOf, world_after hclose, (Task.close_sets hkey origin).host_self]
      exact Timers.cancelAll_cleared _
  | @step n hcn ih =>
      have hbefore := ih fun i hci hin => hbegins i hci (Nat.lt_succ_of_lt hin)
      apply hbefore.of_noneNew
      have hfinished : ((σ n).world.host key).finished = true := by
        apply hσ.finished_later (Nat.le_of_lt hcn) hkey ?_ (hσ.finished_of_close hclose)
        intro i hci hin
        rcases Nat.lt_or_eq_of_le hci with hlt | rfl
        · exact hbegins i hlt (Nat.lt_succ_of_lt hin)
        · rintro ⟨below, hbegin⟩
          have hheads := hclose.agenda.symm.trans hbegin.agenda
          cases hheads
      rcases hσ.host_step key n with hsame | ⟨t, below, hexec, hworld⟩
      · rw [timersOf, timersOf, hsame]
        exact .refl _
      · have hsound := hσ.sound n
        rw [timersOf, timersOf, hworld]
        exact Task.react_timers hsound.linked (hsound.head hexec.agenda)
          (hσ.has_later (Nat.le_of_lt hcn) hkey) (.inr hfinished)

end Behavior

/-- A task fires a timer of the host. -/
def Task.firing (key : Nat) (id : TimerId) : Task → Bool
  | fire k _ (i :: _) => k = key ∧ i = id
  | _ => false

theorem Machine.rings_trace {m : Machine} {key n : Nat} {id : TimerId}
    (hhead : (m.trace n).agenda.head?.any (Task.firing key id) = true)
    (hlive : ((m.trace n).world.host key).finished = false)
    (htimer : ((m.trace n).world.host key).timers.contains id = true) :
    ∃ timer now, Rings m.trace key id timer now n := by
  obtain ⟨t, rest, hexec, ht⟩ := executes_trace_iff.mpr hhead
  obtain ⟨timer, hfound⟩ := Timers.contains_iff.mp htimer
  cases t with
  | fire k now due =>
      cases due with
      | nil => cases ht
      | cons i due =>
          obtain ⟨rfl, rfl⟩ := of_decide_eq_true ht
          exact ⟨timer, now, ⟨due, rest, hexec⟩, hlive, hfound⟩
  | _ => cases ht

/-- What holds of the timers of a host, whatever its scripts and everyone else do, over any number
of its runs up to a moment. -/
structure TimerRules (σ : Nat → Machine) (key m : Nat) : Prop where
  /-- A timer comes to be because its host was asked for one, and is due an interval from then. -/
  asked : ∀ n id timer, Starts σ key id timer n → ∃ callback milliseconds once,
    ((σ n).world.setTimer key callback milliseconds once).1 = some id ∧
    timer = ⟨callback, milliseconds * 1000, once, (σ n).world.clock + milliseconds * 1000⟩
  /-- What rings was started before, with the same callback, interval and number of shots. -/
  started : ∀ n id timer now, Rings σ key id timer now n → ∃ s first, s < n ∧
    Starts σ key id first s ∧ timer.callback = first.callback ∧
    timer.interval = first.interval ∧ timer.once = first.once
  /-- When a timer rings its callback is what is called next, before anything else happens. -/
  called : ∀ n id timer now, Rings σ key id timer now n → ∃ tail,
    (σ (n + 1)).agenda = .call key timer.callback [] :: tail ∧
    ∀ k, n < k → (σ k).agenda = .call key timer.callback [] :: tail ∨
      ∃ j, n < j ∧ j < k ∧ Executes σ j (.call key timer.callback []) tail
  /-- Timers ring inside a pump: it was begun, and the flush that comes after it waits. -/
  pumped : ∀ n id timer now, Rings σ key id timer now n → ∃ p ticking below, p < n ∧
    Executes σ p (.pump key ticking) below ∧
    ∀ i, p < i → i ≤ n → .flush key ticking :: below <:+ (σ i).agenda
  /-- A timer rings no earlier than one interval after it was armed for the last time. -/
  waited : ∀ n id timer now, n ≤ m → Rings σ key id timer now n → ∃ a time, a < n ∧
    Arms σ key id time a ∧ (∀ i time', a < i → i < n → ¬ Arms σ key id time' i) ∧
    time + timer.interval ≤ now ∧ now ≤ (σ n).world.clock
  /-- A timer for one shot rings at most once. -/
  once : ∀ s id first, s < m → Starts σ key id first s → first.once = true →
    ∀ n k timer timer' now now', n ≤ m → k ≤ m → Rings σ key id timer now n →
    Rings σ key id timer' now' k → n = k
  /-- A timer that was cleared does not ring any more. -/
  cleared : ∀ c id n timer now, Clears σ key id c → c < n → n ≤ m → ¬ Rings σ key id timer now n
  /-- The end of a run is announced by a host that has no timers any more. -/
  closing : ∀ c origin rest, Executes σ c (.close key origin) rest → ∃ h : Host,
    h.timers.active = 0 ∧ h.timers.Cleared ∧
    (σ (c + 1)).world.host key = h.announce (σ c).world.clock .scriptEnding .host
  /-- From then on until its next run begins a host has no timers, and none rings. -/
  closed : ∀ c origin rest n, Executes σ c (.close key origin) rest → c < n →
    (∀ i, c < i → i < n → ¬ Begins σ key i) →
    (timersOf σ key n).active = 0 ∧ (timersOf σ key n).Cleared ∧
    ∀ id timer now, ¬ Rings σ key id timer now n

/-- The timers of every host keep to the rules as long as none of its slots was given up so often
that the generations came round. -/
theorem timers_keep_rules (hσ : Behavior σ) (key m : Nat)
    (hbound : ∀ slot, Timers.releases (timersOf σ key) slot m < UInt32.size) :
    TimerRules σ key m := by
  have hless : ∀ id : TimerId, ∀ n, n ≤ m →
      Timers.releases (timersOf σ key) id.slot n < UInt32.size := by
    intro id n hnm
    exact Nat.lt_of_le_of_lt (Timers.releases_mono _ id.slot hnm) (hbound id.slot)
  refine ⟨?asked, ?started, ?called, ?pumped, ?waited, ?once, ?cleared, ?closing, ?closed⟩
  case asked => exact fun n id timer hstarts => hσ.started_by hstarts
  case started => exact fun n id timer now hrings => hσ.started_before hrings.timer
  case called => exact fun n id timer now hrings => hσ.called hrings
  case pumped =>
    intro n id timer now hrings
    obtain ⟨due, rest, hexec⟩ := hrings.executes
    obtain ⟨p, ticking, below, hpn, hpump, rfl, hstands⟩ :=
      hσ.pump_begun (x := .fire key now (id :: due)) rfl (Behavior.suffix_of_executes hexec)
    exact ⟨p, ticking, below, hpn, hpump, hstands⟩
  case waited =>
    intro n id timer now hnm hrings
    obtain ⟨a, time, han, harms, hdeadline, hlast⟩ := hσ.armed_before hrings.timer
    obtain ⟨hdue, hclock⟩ := hσ.due_when_rings hrings (hless id n hnm)
    exact ⟨a, time, han, harms, hlast, hdeadline ▸ hdue, hclock⟩
  case once =>
    intro s id first hsm hstarts honce n k timer timer' now now' hnm hkm hn hk
    rcases Nat.lt_trichotomy n k with hlt | rfl | hgt
    · exact absurd hk (hσ.silent_once hstarts honce hsm hkm (hbound _) hn hlt)
    · rfl
    · exact absurd hn (hσ.silent_once hstarts honce hsm hnm (hbound _) hk hgt)
  case cleared =>
    intro c id n timer now hclears hcn hnm
    obtain ⟨hlive, hlost⟩ := hclears.cancel
    exact hσ.silent_after hlive (Nat.le_succ c) hlost hcn (hless id n hnm)
  case closing =>
    intro c origin rest hclose
    have hkey := (hσ.sound c).head hclose.agenda key rfl
    have hcleared := Timers.cancelAll_cleared (timersOf σ key c)
    refine ⟨{ (σ c).world.host key with timers := (timersOf σ key c).cancelAll.2 }, ?_, hcleared,
      ?_⟩
    · exact ((hσ.history key).tidy c).cancelAll.active_of_cleared hcleared
    · rw [Behavior.world_after hclose, (Task.close_sets hkey origin).host_self]
      rfl
  case closed =>
    intro c origin rest n hclose hcn hbegins
    have hcleared := hσ.cleared_since hclose hcn hbegins
    refine ⟨((hσ.history key).tidy n).active_of_cleared hcleared, hcleared, ?_⟩
    intro id timer now hrings
    have hlive := hrings.contains
    rw [hcleared id] at hlive
    cases hlive

/-- A host with a timer for one shot, in a slot that was another timer's before, and one that
repeats and stops the host when it rings. -/
def Machine.alarmed : Machine :=
  .start (.start default [] [("body",
      [.inScript none (.timeout "c" (.native []) 0), .inScript none (.clear "c"),
        .inScript none (.timeout "a" (.native []) 0),
        .inScript none (.interval "b" (.native [.inScript none .stop]) 10)])] [] default)
    [.build ⟨"h", "body", "h.js", none, .standard, "", none, none, false, none, false, 2⟩ [],
      .onHost (some "h") .run]

/-- The timer for one shot rings in the first tick, under the second generation of its slot, and
the other one in the second tick. -/
theorem alarmed_timers_keep_rules :
    (∀ slot, Timers.releases (timersOf alarmed.trace 0) slot 49 < UInt32.size) ∧
    TimerRules alarmed.trace 0 49 ∧
    (∃ timer now, Rings alarmed.trace 0 ⟨0, 1⟩ timer now 20) ∧
    (∃ timer now, Rings alarmed.trace 0 ⟨1, 0⟩ timer now 35) ∧
    ((alarmed.trace 43).world.host 0).timers.active = 0 := by
  have hbound : ∀ slot, Timers.releases (timersOf alarmed.trace 0) slot 49 < UInt32.size := by
    intro slot
    exact Nat.lt_of_le_of_lt (Timers.releases_le _ slot 49) (by decide)
  refine ⟨hbound, timers_keep_rules (trace_behavior ..) 0 49 hbound, ?_, ?_, by decide +kernel⟩
  · exact rings_trace (by decide +kernel) (by decide +kernel) (by decide +kernel)
  · exact rings_trace (by decide +kernel) (by decide +kernel) (by decide +kernel)

end TickHost
