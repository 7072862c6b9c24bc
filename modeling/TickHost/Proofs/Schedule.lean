import TickHost.Proofs.Iterations

/-!
The schedule of ticks. The head of a loop waits until the tick is due by the counter of ticks, which
counts from the start of the loop, so that a late tick does not put off the ones after it. The
counter does not go on for ever. Once it has reached its last value every further tick counts as due
already, and the loop starts it without waiting.
-/

namespace TickHost

open World Machine

/-- How a loop that started in step `s` starts one more tick, after the ticks that it has started
before. -/
structure Scheduled (σ : Nat → Machine) (key s n : Nat) (ticks : List Nat) : Prop where
  starts : Ticks σ key n
  /-- The pump of the tick is what comes next. -/
  pump : ∃ t rest, (σ (n + 1)).agenda = .pump key t :: rest
  /-- The tick starts at once, or when it is due by the counter. -/
  clock : (σ (n + 1)).world.clock = max (σ n).world.clock
    ((σ s).world.clock + tickInterval σ key s * min ticks.length Ticking.most)
  /-- It is on schedule if the counter has come so far, or if it is late anyway. -/
  absolute : (σ (n + 1)).world.clock = max (σ n).world.clock
      ((σ s).world.clock + tickInterval σ key s * ticks.length) ↔
    ticks.length ≤ Ticking.most ∨ tickInterval σ key s = 0 ∨
      (σ s).world.clock + tickInterval σ key s * ticks.length ≤ (σ n).world.clock
  /-- When the counter is exhausted there is no wait. -/
  exhausted : Ticking.most < ticks.length → (σ (n + 1)).world.clock = (σ n).world.clock

variable {σ : Nat → Machine} {key s n : Nat} {t : Ticking} {rest : List Task} {ticks : List Nat}

/-- When a wait by a counter that stops at `most` is as long as one by the true count. -/
theorem wait_eq_iff {now start tick count most : Nat} :
    max now (start + tick * min count most) = max now (start + tick * count) ↔
      count ≤ most ∨ tick = 0 ∨ start + tick * count ≤ now := by
  rcases Nat.le_total count most with hle | hge
  · simp [hle]
  · rw [Nat.min_eq_right hge]
    have hmono : tick * most ≤ tick * count := Nat.mul_le_mul_left tick hge
    constructor
    · intro hsame
      rcases Nat.eq_zero_or_pos tick with hzero | hpos
      · exact .inr (.inl hzero)
      · rcases Nat.eq_or_lt_of_le hge with rfl | hless
        · exact .inl (Nat.le_refl _)
        · have hstrict := Nat.mul_lt_mul_of_pos_left hless hpos
          omega
    · rintro (hle | rfl | hlate)
      · rw [Nat.le_antisymm hle hge]
      · simp
      · omega

/-- Every loop that is at its head starts a tick so unless its host was stopped, however long what
came before took. -/
theorem ticks_follow_schedule (hσ : Behavior σ) (hloop : Looping σ key s n)
    (hticks : Log (TickAt σ key) s n ticks) (hexec : Executes σ n (.awaitTick key t) rest)
    (hlive : ((σ n).world.host key).finished = false) : Scheduled σ key s n ticks := by
  have hstarts := hσ.ticks_of_live hexec hlive
  obtain ⟨-, -, -, -, -, deltas, -, -, -, -, hdeltas, -⟩ := hloop.account hσ
  have haccount := hloop.account_of_executes hσ (by simp [Task.part]) hexec (if_pos rfl) hticks
    hdeltas
  have hclock := Behavior.clock_of_head hexec hlive
  rw [haccount.start, haccount.frame, tickInterval, hσ.settings (Nat.le_of_lt hloop.1) (hloop.has hσ)]
    at hclock
  constructor
  case starts => exact hstarts
  case pump =>
    obtain ⟨_, _, _, _, hpump⟩ := hstarts
    have hcrashed := hσ.uncrashed_of_suffix hpump
    have hagenda := Behavior.after hexec hcrashed
    simp only [Task.react, Task.awaitNext, hlive, Bool.false_eq_true, if_false] at hagenda
    exact ⟨_, _, hagenda⟩
  case clock => exact hclock
  case absolute =>
    rw [hclock]
    exact wait_eq_iff
  case exhausted =>
    intro hmost
    have hdue := haccount.due (List.ne_nil_of_length_pos (by omega))
    rw [Nat.min_eq_right (by omega)] at hclock hdue
    rw [hclock]
    exact Nat.max_eq_left hdue

/-! A host that idles until the counter of ticks is exhausted. -/

/-- A host without a program that ticks once a microsecond. Its guard stops it at the update after
the last one that the counter of ticks can tell from the others. -/
def Machine.idling : Machine :=
  .start (.start default [] [] [] default)
    [.build ⟨"h", "", "h.js", none, .withTickInterval 1, "", none, none, false, none, false,
        4294967297⟩ [],
      .onHost (some "h") .run]

/-- In a tick of a host nothing is to be done but for its guard, which has counted so many
updates. -/
structure Host.Idle (h : Host) (updates : Nat) : Prop where
  live : h.finished = false
  commands : h.commands = []
  timers : h.timers.slots = []
  queue : h.queue = none
  network : h.onNetwork = false
  callbacks : h.callbacks .update = [.guard]
  interval : h.settings.tickInterval = 1
  limit : h.maxUpdates = 4294967297
  updates : h.updates = updates

/-- The first host of a world is idle at a time. -/
structure World.Idle (w : World) (now updates : Nat) : Prop where
  clock : w.clock = now
  crashed : w.crashed = false
  host : (w.host 0).Idle updates

theorem Host.Idle.announce {h : Host} {updates : Nat} (hidle : h.Idle updates) (time : Nat)
    (event : Event) (source : Source) : (h.announce time event source).Idle updates :=
  ⟨hidle.live, hidle.commands, hidle.timers, hidle.queue, hidle.network, hidle.callbacks,
    hidle.interval, hidle.limit, hidle.updates⟩

theorem Host.Idle.count {h : Host} {updates : Nat} (hidle : h.Idle updates) :
    h.countUpdate.2.Idle (updates + 1) :=
  ⟨hidle.live, hidle.commands, hidle.timers, hidle.queue, hidle.network, hidle.callbacks,
    hidle.interval, hidle.limit, congrArg (· + 1) hidle.updates⟩

namespace World.Idle

variable {w : World} {now updates : Nat} (hidle : w.Idle now updates)

include hidle

theorem publish (event : Event) (source : Source) :
    (w.publish 0 event source).Idle now updates where
  clock := (publish_clock w 0 event source).trans hidle.clock
  crashed := by
    unfold World.publish
    dsimp only
    split <;> exact hidle.crashed
  host := by
    rw [publish_host]
    exact hidle.host.announce _ _ _

theorem count : (w.setHost 0 (w.host 0).countUpdate.2).Idle now (updates + 1) where
  clock := hidle.clock
  crashed := hidle.crashed
  host := by
    rw [host_setHost, if_pos rfl]
    exact hidle.host.count

/-- The tasks of an idle tick change nothing, except that the guard counts. -/
theorem react_pump (o : Outcome) (t : Ticking) :
    Task.react w o (.pump 0 t) = ⟨w, o, [.drain 0, .flush 0 t]⟩ := by
  simp [Task.react, hidle.host.live]

theorem react_drain (o : Outcome) : Task.react w o (.drain 0) = ⟨w, o, [.fire 0 w.clock []]⟩ := by
  simp [Task.react, Task.drainOne, hidle.host.commands, Timers.due, Timers.live,
    hidle.host.timers]

theorem react_flush (o : Outcome) (t : Ticking) :
    Task.react w o (.flush 0 t) = ⟨w, o, [.stream 0 t]⟩ := by
  simp [Task.react, hidle.host.live, World.flushEdits, hidle.host.queue]

theorem react_stream (o : Outcome) (t : Ticking) :
    Task.react w o (.stream 0 t) = ⟨w, o, [.update 0 t]⟩ := by
  simp [Task.react, hidle.host.live, World.streamTick, hidle.host.network]

theorem react_update (o : Outcome) (t : Ticking) : ∃ w' args,
    Task.react w o (.update 0 t) =
      ⟨w', o, [.notify 0 [.guard] args, .awaitTick 0 { t with last := w.clock }]⟩ ∧
    w'.Idle now updates := by
  have hpublish := hidle.publish (.update (Task.delta w t)) .host
  refine ⟨_, [.number (Binary.Double.ofSingle (Task.delta w t))], ?_, hpublish⟩
  have hcallbacks := hpublish.host.callbacks
  simp only [Task.delta] at hcallbacks
  simp [Task.react, Task.sendUpdate, hidle.host.live, Task.delta, hcallbacks]

theorem react_guard (hbelow : updates < 4294967296) (o : Outcome) (args : List Value) : ∃ w',
    Task.react w o (.call 0 .guard args) = ⟨w', .returned .undefined, []⟩ ∧
      w'.Idle now (updates + 1) := by
  refine ⟨_, ?_, hidle.count⟩
  have hnot : ¬ max 1 (w.host 0).maxUpdates ≤ (w.host 0).updates + 1 := by
    rw [hidle.host.limit, hidle.host.updates]
    omega
  simp [Task.react, Task.callBack, Host.countUpdate] at hnot ⊢
  omega

theorem react_awaitTick (o : Outcome) (t : Ticking) (hnow : now = updates - 1)
    (hstart : t.start = 0) (hframe : t.frame.toNat = min updates Ticking.most)
    (hmost : updates ≤ Ticking.most) : ∃ w',
    Task.react w o (.awaitTick 0 t) = ⟨w', o, [.pump 0 t.counted]⟩ ∧ w'.Idle updates updates := by
  refine ⟨{ w with clock := updates }, ?_, rfl, hidle.crashed, hidle.host⟩
  have hclock : max w.clock (t.start + 1 * t.frame.toNat) = updates := by
    rw [hidle.clock, hnow, hstart, hframe]
    omega
  have hinterval := hidle.host.interval
  simp only [Task.react, Task.awaitNext, hidle.host.live, hinterval, hclock, Bool.false_eq_true,
    if_false, Ticking.counted]

end World.Idle

/-- The idle loop has come to a moment of one of its ticks, with these tasks left of the tick. It has
started the ticks at its heads. -/
structure Idles (below : List Task) (n : Nat) (o : Outcome) (tasks : List Task)
    (now updates : Nat) (heads : List Nat) : Prop where
  world : (idling.trace n).world.Idle now updates
  outcome : (idling.trace n).outcome = o
  agenda : (idling.trace n).agenda = tasks ++ below
  goes : ∀ i, 11 < i → i ≤ n →
    ∃ x, Task.Loops 0 "h.js" x ∧ x :: below <:+ (idling.trace i).agenda
  ticks : Log (TickAt idling.trace 0) 11 n heads

/-- The state of the tick when so many ticks have been started. -/
structure Ticking.Idle (t : Ticking) (ticks : Nat) : Prop where
  origin : t.origin = "h.js"
  start : t.start = 0
  frame : t.frame.toNat = min ticks most

theorem Machine.idling_behavior : Behavior idling.trace :=
  trace_behavior ..

section Idling

variable {below : List Task} {n now now' updates updates' : Nat} {heads heads' : List Nat}
  {o o' : Outcome} {x y : Task} {next tasks : List Task} {t : Ticking} {w' : World}

theorem Idles.executes (h : Idles below n o (x :: tasks) now updates heads) :
    Executes idling.trace n x (tasks ++ below) :=
  ⟨h.agenda, Machine.trace_succ _ n⟩

/-- Only the head of the loop starts a tick. -/
theorem Idles.quiet (h : Idles below n o (x :: tasks) now updates heads)
    (hother : ∀ t, x ≠ .awaitTick 0 t) : Log (TickAt idling.trace 0) 11 (n + 1) heads := by
  refine h.ticks.quiet fun k hk => ?_
  obtain ⟨-, t, u, rest, hexec, -⟩ := hk
  exact hother t (h.executes.unique hexec).1

theorem Idles.step (h : Idles below n o (x :: tasks) now updates heads) (above : List Task)
    (hreact : Task.react (idling.trace n).world o x = ⟨w', o', next⟩)
    (hidle : w'.Idle now' updates') (hticks : Log (TickAt idling.trace 0) 11 (n + 1) heads')
    (hnext : next ++ tasks = above ++ [y]) (hloops : Task.Loops 0 "h.js" y) :
    Idles below (n + 1) o' (above ++ [y]) now' updates' heads' := by
  have hstep : idling.trace (n + 1) = ⟨w', o', (above ++ [y]) ++ below⟩ := by
    rw [← hnext, List.append_assoc]
    exact trace_react h.agenda (h.outcome ▸ hreact) hidle.crashed
  refine ⟨hstep ▸ hidle, by rw [hstep], by rw [hstep], fun i hsi hin => ?_, hticks⟩
  rcases Nat.lt_or_eq_of_le hin with hless | rfl
  · exact h.goes i hsi (Nat.le_of_lt_succ hless)
  · refine ⟨y, hloops, above, ?_⟩
    rw [hstep, List.append_assoc]
    rfl

/-- An idle tick, from its head to the next. -/
theorem Idles.around
    (h : Idles below n o [.awaitTick 0 t] (heads.length - 1) heads.length heads)
    (ht : t.Idle heads.length) (hmost : heads.length ≤ Ticking.most) : ∃ o' t',
    Idles below (n + 11) o' [.awaitTick 0 t'] heads.length (heads.length + 1) (heads ++ [n]) ∧
      t'.Idle (heads.length + 1) := by
  have hbelow : heads.length < 4294967296 := Nat.lt_succ_of_le hmost
  have hcounted : t.counted.Idle (heads.length + 1) := by
    refine ⟨ht.origin, ht.start, ?_⟩
    rw [Ticking.counted_frame, ht.frame]
    omega
  have hticks : Log (TickAt idling.trace 0) 11 (n + 1) (heads ++ [n]) := by
    have htick := idling_behavior.ticks_of_live h.executes h.world.host.live
    exact h.ticks.event ⟨rfl, htick⟩ fun k hk => hk.1
  obtain ⟨w₁, hhead, hidle₁⟩ := h.world.react_awaitTick o t rfl ht.start ht.frame hmost
  have h₁ := h.step [] hhead hidle₁ hticks rfl (.pump _ hcounted.origin)
  have h₂ := h₁.step [_] (h₁.world.react_pump _ _) h₁.world (h₁.quiet nofun) rfl
    (.flush _ hcounted.origin)
  have h₃ := h₂.step [_] (h₂.world.react_drain _) h₂.world (h₂.quiet nofun) rfl
    (.flush _ hcounted.origin)
  have h₄ := h₃.step [] rfl h₃.world (h₃.quiet nofun) rfl
    (.flush _ hcounted.origin)
  have h₅ := h₄.step [] (h₄.world.react_flush _ _) h₄.world (h₄.quiet nofun) rfl
    (.stream _ hcounted.origin)
  have h₆ := h₅.step [] (h₅.world.react_stream _ _) h₅.world (h₅.quiet nofun) rfl
    (.update _ hcounted.origin)
  obtain ⟨w₇, args, hupdate, hidle₇⟩ := h₆.world.react_update o t.counted
  have h₇ := h₆.step [_] hupdate hidle₇ (h₆.quiet nofun) rfl
    (.awaitTick _ hcounted.origin)
  have h₈ := h₇.step [_, _, _] rfl h₇.world (h₇.quiet nofun) rfl
    (.awaitTick _ hcounted.origin)
  obtain ⟨w₉, hguard, hidle₉⟩ := h₈.world.react_guard hbelow o args
  have h₉ := h₈.step [_, _] hguard hidle₉ (h₈.quiet nofun) rfl
    (.awaitTick _ hcounted.origin)
  have h₁₀ := h₉.step [_] rfl h₉.world (h₉.quiet nofun) rfl
    (.awaitTick _ hcounted.origin)
  have h₁₁ := h₁₀.step [] rfl h₁₀.world (h₁₀.quiet nofun) rfl
    (.awaitTick _ hcounted.origin)
  exact ⟨_, _, h₁₁, hcounted.origin, hcounted.start, hcounted.frame⟩

end Idling

namespace Machine

theorem idling_host : ((idling.trace 12).world.host 0).Idle 0 := by
  constructor
  case live | network | interval | limit | updates => decide +kernel
  case commands | timers | queue | callbacks => rfl

theorem idling_starts : ∃ below, Executes idling.trace 11 (.startTicking 0 "h.js") below ∧
    Idles below 12 (idling.trace 12).outcome [.awaitTick 0 ⟨"h.js", 0, 0, 0⟩] 0 0 [] := by
  obtain ⟨below, hstart⟩ : ∃ below,
      (idling.trace 11).agenda = .startTicking 0 "h.js" :: below := ⟨_, rfl⟩
  have hexec : Executes idling.trace 11 (.startTicking 0 "h.js") below := ⟨hstart, trace_succ _ _⟩
  have hclock : (idling.trace 11).world.clock = 0 := by decide +kernel
  have hagenda := Behavior.after hexec (by decide +kernel)
  rw [Task.react, hclock] at hagenda
  refine ⟨below, hexec, ⟨by decide +kernel, by decide +kernel, idling_host⟩, rfl, hagenda, ?_, ?_⟩
  · intro i hsi hin
    obtain rfl := Nat.le_antisymm hin hsi
    exact ⟨_, .awaitTick _ rfl, Task.suffix_of_eq hagenda⟩
  · refine Log.start.quiet fun k hk => ?_
    obtain ⟨-, t, u, rest, hhead, -⟩ := hk
    cases (hhead.unique hexec).1

/-- The idle loop comes to the heads of all ticks until the counter of ticks is exhausted, to each
as soon as it is due. -/
theorem idling_heads {c : Nat} (hc : c ≤ Ticking.most + 1) : ∃ t below,
    Looping idling.trace 0 11 (12 + 11 * c) ∧
      Log (TickAt idling.trace 0) 11 (12 + 11 * c) ((List.range c).map fun i => 12 + 11 * i) ∧
      Executes idling.trace (12 + 11 * c) (.awaitTick 0 t) below ∧ t.Idle c ∧
      (idling.trace (12 + 11 * c)).world.Idle (c - 1) c := by
  obtain ⟨below, hstart, hfirst⟩ := idling_starts
  suffices hidles : ∃ o t, t.Idle c ∧ Idles below (12 + 11 * c) o [.awaitTick 0 t] (c - 1) c
      ((List.range c).map fun i => 12 + 11 * i) by
    obtain ⟨o, t, ht, h⟩ := hidles
    exact ⟨t, _, ⟨by omega, "h.js", below, hstart, h.goes⟩, h.ticks, h.executes, ht, h.world⟩
  induction c with
  | zero => exact ⟨_, _, ⟨rfl, rfl, rfl⟩, hfirst⟩
  | succ c ih =>
      obtain ⟨o, t, ht, h⟩ := ih (Nat.le_of_succ_le hc)
      have hlength : ((List.range c).map fun i => 12 + 11 * i).length = c := by simp
      obtain ⟨o', t', hnext, ht'⟩ := Idles.around (by rwa [hlength]) (by rwa [hlength])
        (by rw [hlength]; exact Nat.le_of_succ_le_succ hc)
      rw [hlength] at hnext ht'
      rw [List.range_succ, List.map_append]
      exact ⟨o', t', ht', hnext⟩

end Machine

/-- The third tick of the idle host is on schedule. -/
theorem idling_follows_schedule : Looping idling.trace 0 11 34 ∧
    Log (TickAt idling.trace 0) 11 34 [12, 23] ∧ Scheduled idling.trace 0 11 34 [12, 23] := by
  obtain ⟨t, below, hloop, hticks, hexec, -, hidle⟩ := idling_heads (c := 2) (by decide)
  exact ⟨hloop, hticks, ticks_follow_schedule idling_behavior hloop hticks hexec hidle.host.live⟩

/-- A loop may start a tick before it is due by the number of ticks since its start. -/
theorem not_always_on_schedule : ¬ ∀ σ, Behavior σ → ∀ key s n ticks, Looping σ key s n →
    Log (TickAt σ key) s n ticks → Ticks σ key n → (σ (n + 1)).world.clock =
      max (σ n).world.clock ((σ s).world.clock + tickInterval σ key s * ticks.length) := by
  intro hall
  obtain ⟨c, hc⟩ : ∃ c, c = Ticking.most + 1 := ⟨_, rfl⟩
  obtain ⟨t, below, hloop, hticks, hexec, ht, hidle⟩ := idling_heads (Nat.le_of_eq hc)
  have htick := idling_behavior.ticks_of_live hexec hidle.host.live
  have hdue := hall _ idling_behavior 0 11 _ _ hloop hticks htick
  have hclock := Behavior.clock_of_head hexec hidle.host.live
  have hstart : (idling.trace 11).world.clock = 0 := by decide +kernel
  have hsettings : tickInterval idling.trace 0 11 = 1 := by decide +kernel
  have hlater : tickInterval idling.trace 0 (12 + 11 * c) = 1 := hidle.host.interval
  rw [hdue, hidle.clock, ht.start, ht.frame, hsettings, hlater, hstart, List.length_map,
    List.length_range] at hclock
  omega

end TickHost
