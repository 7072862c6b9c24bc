import TickHost.Proofs.Shutdown
import TickHost.Proofs.Touches

/-!
How evaluations are announced. Once the script engine has returned nothing happens before the
evaluation is announced: with its value or, after the report of a fault, with the text of the fault.
Each evaluation is announced once, after those that it has caused. But a host that was cut off
announces nothing. A stop-all call cuts a host off only while no evaluation of it is under way, so
this befalls the evaluations that are admitted later, until a run of the host begins.
-/

namespace TickHost

open World Machine

/-- The end of an evaluation is announced. -/
def Event.isEvaluation : Event → Bool
  | evaluationFinished _ _ => true
  | _ => false

/-- The events that tell how an evaluation ended. -/
def Outcome.announcement : Outcome → List Event
  | returned v => [.evaluationFinished v false]
  | faulted f => [.errorMessage f.render, .evaluationFinished (.text f.message) true]
  | refused _ => []

namespace Host

variable {stopping : Bool} {h h' : Host}

/-- What a host publishes at the end of an evaluation, with consecutive numbers. -/
def announces (h : Host) (time : Nat) (o : Outcome) : List Envelope :=
  if h.outlet.detached then []
  else o.announcement.mapIdx fun i event =>
    ⟨.new h.outlet.host (h.outlet.sent.size + i), time, .script, event⟩

theorem announce_twice (h : Host) (hattached : h.outlet.detached = false) (time : Nat)
    (first second : Event) (source : Source) :
    h.Says ((h.announce time first source).announce time second source)
      [⟨.new h.outlet.host h.outlet.sent.size, time, source, first⟩,
        ⟨.new h.outlet.host (h.outlet.sent.size + 1), time, source, second⟩] := by
  simp [Says, published, announce, Outlet.publish, hattached]

theorem conclude_says (h : Host) (time : Nat) (o : Outcome) :
    h.Says (h.conclude time o) (h.announces time o) := by
  have hleave : h.Says { h with pending := h.pending - 1 } [] := .silent rfl
  cases hcut : h.outlet.detached with
  | true =>
      have hsilent : ∀ event, { h with pending := h.pending - 1 }.announce time event .script =
          { h with pending := h.pending - 1 } := fun event =>
        announce_detached { h with pending := h.pending - 1 } hcut time event .script
      have hnothing : h.announces time o = [] := by simp [announces, hcut]
      rw [hnothing]
      cases o with
      | returned v =>
          rw [conclude, hsilent]
          exact hleave
      | faulted f =>
          rw [conclude, hsilent, hsilent]
          exact hleave
      | refused f => exact hleave
  | false =>
      simp only [announces, hcut]
      cases o with
      | returned v => exact hleave.trans (announce_attached _ hcut time _ .script)
      | faulted f => exact hleave.trans (announce_twice _ hcut time _ _ .script)
      | refused f => exact hleave

/-- What a run publishes itself is no announcement of an evaluation. -/
theorem Stride.omits (hstride : h.Stride stopping h') : h.Omits Event.isEvaluation h' := by
  cases hstride with
  | refuse _ | skip _ => exact .silent rfl
  | confirm time _ => exact announce_omits h time .runningStateChanged .host rfl
  | update time delta _ => exact announce_omits h time (.update delta) .host rfl
  | close time =>
      exact announce_omits { h with timers := h.timers.cancelAll.2 } time .scriptEnding .host rfl
  | finish time origin => exact finishRun_omits h time origin rfl rfl rfl

theorem Acts.omits_evaluations (hacts : h.Acts stopping h') : h.Omits Event.isEvaluation h' := by
  refine hacts.omits (fun event hordinary => ?_) rfl
  cases event <;> first | rfl | cases hordinary

end Host

namespace World

/-- What a host says in a change of the world is put on its bus. -/
structure Airs (w w' : World) (key : Nat) : Prop where
  bus : (w'.host key).bus = (w.host key).bus
  carried : ∃ es, (w.host key).Says (w'.host key) es ∧
    (w'.buses.get (w.host key).bus).history.toList =
      (w.buses.get (w.host key).bus).history.toList ++ es

variable {w w' w'' : World} {key : Nat}

theorem Airs.trans (h : w.Airs w' key) (h' : w'.Airs w'' key) : w.Airs w'' key := by
  obtain ⟨es, hsaid, hcarried⟩ := h.carried
  obtain ⟨es', hsaid', hcarried'⟩ := h'.carried
  rw [h.bus] at hcarried'
  refine ⟨h'.bus.trans h.bus, es ++ es', hsaid.trans hsaid', ?_⟩
  rw [hcarried', hcarried, List.append_assoc]

theorem publish_airs (w : World) (key : Nat) (event : Event) (source : Source) :
    w.Airs (w.publish key event source) key := by
  unfold publish
  cases hcut : (w.host key).outlet.detached with
  | true =>
      simp only [Outlet.publish, hcut, if_true]
      exact ⟨rfl, [], .silent rfl, by simp⟩
  | false =>
      simp only [Outlet.publish, hcut, Bool.false_eq_true, if_false]
      refine ⟨?_, [⟨.new (w.host key).outlet.host (w.host key).outlet.sent.size, w.clock, source,
        event⟩], ?_, ?_⟩
      · simp [World.host, World.setHost]
      · simp [World.host, World.setHost, Host.Says, Host.published]
      · simp [Bus.push]

theorem announceOutcome_airs (w : World) (o : Outcome) (key : Nat) :
    w.Airs (Task.announceOutcome w o key) key := by
  have hleave : w.Airs (w.updateHost key fun h => { h with pending := h.pending - 1 }) key := by
    refine ⟨?_, [], ?_, ?_⟩ <;> simp [host_updateHost, Host.Says, Host.published]
    rfl
  unfold Task.announceOutcome
  dsimp only
  split
  · exact hleave.trans (publish_airs _ key _ _)
  · exact (hleave.trans (publish_airs _ key _ _)).trans (publish_airs _ key _ _)
  · exact hleave

/-- Only a call that stops its registry cuts a host off. -/
theorem doDeed_keeps_cut (horderly : w.Orderly none) (hroster : w.Roster)
    {deed : WorldDeed} (hother : deed.stops w (w.host key).registry = false) :
    w.Keeps (.cut key) (w.doDeed deed).1 := by
  cases deed with
  | stopAll name job =>
      refine stopAll_keeps w (a := .cut key) nofun nofun (fun id member hmem heq => ?_) job
      cases heq
      simp [WorldDeed.stops, (hroster.members name id key hmem).2.2] at hother
  | poll job =>
      refine poll_keeps w (by simp) fun call hcall => ?_
      have hfits := horderly.fits job call hcall
      have hne : (w.host key).registry ≠ call.registry := by
        intro heq
        simp [WorldDeed.stops, hcall, heq] at hother
      refine ⟨fun heq => ?_, fun id member hmem heq => ?_⟩
      · cases heq
        exact hne hfits.own
      · cases heq
        exact hne (hfits.listed id key hmem).2.2
  | _ => exact doDeed_keeps w rfl

end World

/-- In this step a stop-all call on its registry cuts a host off. -/
structure Severs (σ : Nat → Machine) (key n : Nat) : Prop where
  stops : Stops σ ((σ n).world.host key).registry n
  attached : ((σ n).world.host key).outlet.detached = false
  cut : ((σ (n + 1)).world.host key).outlet.detached = true

/-- An evaluation of a host enters the script engine in this step, above what is left to do after
its announcement. -/
def EntersEngine (σ : Nat → Machine) (key : Nat) (below : List Task) (n : Nat) : Prop :=
  ∃ program origin line,
    Executes σ n (.engine key program origin line) (.announce key :: below)

/-- An evaluation of a host enters the script engine at `n`, leaves it at `j` with an outcome, and
is announced at `a`. -/
structure Evaluates (σ : Nat → Machine) (key : Nat) (below : List Task) (n j a : Nat)
    (o : Outcome) : Prop where
  order : n ≤ j ∧ j < a
  enters : EntersEngine σ key below n
  exits : Exits σ (.announce key :: below) j o
  plain : o.isRefused = false
  waits : ∀ i, n < i → i ≤ a → .announce key :: below <:+ (σ i).agenda
  /-- Nothing happens between the return and the announcement. -/
  prompt : Interrupts.Same (σ (j + 1)).world (σ a).world
  announces : Executes σ a (.announce key) below
  outcome : (σ a).outcome = o

/-- What has become of an evaluation that has entered the script engine. -/
inductive Progress (σ : Nat → Machine) (key : Nat) (below : List Task) (n m : Nat) : Prop where
  /-- The engine has still something to do. -/
  | engaged (t : Task) (above : List Task)
      (hagenda : (σ m).agenda = t :: above ++ .announce key :: below)
  /-- The engine has returned, and nothing has happened since. -/
  | returned (j : Nat) (hnj : n ≤ j) (hjm : j < m)
      (hexits : Exits σ (.announce key :: below) j (σ m).outcome)
      (hagenda : (σ m).agenda = .announce key :: below)
      (hsame : Interrupts.Same (σ (j + 1)).world (σ m).world)
  | announced (j a : Nat) (o : Outcome) (ham : a < m) (h : Evaluates σ key below n j a o)

namespace Task

/-- The engine of an evaluation that is under way was entered. -/
theorem Engaged.entered {above : List Task} {o : Outcome} (h : Engaged above o) (key : Nat)
    (program origin : String) (line : Nat) : ¬ [.engine key program origin line] <:+ above := by
  intro hsuffix
  have hlast := hsuffix.getLast (by simp)
  cases h <;> simp at hsuffix hlast

/-- A host whose announcement waits has an evaluation under way, unless the engine of that
evaluation was not entered yet. -/
theorem Depth.pos {key pending : Nat} {above below : List Task}
    (hpaired : ∀ k program origin line tail,
      .engine k program origin line :: tail <:+ above ++ .announce key :: below →
        ∃ rest, tail = .announce k :: rest)
    (hentered : ∀ k program origin line, ¬ [.engine k program origin line] <:+ above)
    (hdepth : Depth key pending (above ++ .announce key :: below)) : 0 < pending := by
  cases above with
  | nil =>
      rw [List.nil_append, Depth, if_pos rfl] at hdepth
      exact hdepth.1
  | cons t above =>
      have hpairs : ∀ k program origin line tail,
          .engine k program origin line :: tail <:+ above ++ .announce key :: below →
            ∃ rest, tail = .announce k :: rest := fun k program origin line tail h =>
        hpaired k program origin line tail (h.trans (List.suffix_cons _ _))
      have henters : ∀ k program origin line, ¬ [.engine k program origin line] <:+ above :=
        fun k program origin line h =>
          hentered k program origin line (h.trans (List.suffix_cons _ _))
      cases t with
      | engine k program origin line =>
          obtain ⟨rest, hrest⟩ := hpaired k program origin line _ (List.suffix_refl _)
          -- its announcement is next, and what is below it is as deep
          cases above with
          | nil => exact absurd (List.suffix_refl _) (hentered k program origin line)
          | cons t above =>
              obtain ⟨rfl, -⟩ := List.cons.inj hrest
              have hbelow : Depth key pending (above ++ .announce key :: below) := by
                by_cases hk : k = key
                · simpa [Depth, hk] using hdepth
                · simpa [Depth, hk] using hdepth
              exact pos
                (fun k program origin line tail h =>
                  hpairs k program origin line tail (h.trans (List.suffix_cons _ _)))
                (fun k program origin line h =>
                  henters k program origin line (h.trans (List.suffix_cons _ _))) hbelow
      | announce k =>
          rw [List.cons_append, Depth] at hdepth
          split at hdepth
          · exact hdepth.1
          · exact pos hpairs henters hdepth
      | _ => exact pos hpairs henters hdepth

end Task

namespace Behavior

variable {σ : Nat → Machine} (hσ : Behavior σ) {key n m j a : Nat} {below : List Task}

include hσ

/-- What cuts a host off is a call that stops its registry. -/
theorem severs_of_rise (hattached : ((σ n).world.host key).outlet.detached = false)
    (hcut : ((σ (n + 1)).world.host key).outlet.detached = true) : Severs σ key n := by
  refine ⟨?_, hattached, hcut⟩
  have hchanged : ¬ (σ n).world.Keeps (.cut key) (σ (n + 1)).world := fun hkept =>
    absurd (hattached.symm.trans (Eq.trans hkept.symm hcut)) Bool.false_ne_true
  rcases hσ.keeps (.cut key) n with hkept | ⟨t, rest, hexec, htouches⟩
  · exact absurd hkept hchanged
  · rcases Task.touches_others htouches nofun nofun nofun nofun with ⟨_, _, _, _, rfl⟩ |
      ⟨scope, deed, actions, rfl, hdeed⟩ | hplain
    · cases htouches
    · have hwaits : deed.waits = true := by
        cases deed <;> first | rfl | cases hdeed
      cases hstops : deed.stops (σ n).world ((σ n).world.host key).registry with
      | true => exact ⟨scope, deed, actions, rest, hexec, hstops⟩
      | false =>
          refine absurd ?_ hchanged
          rw [world_of_deed hexec hwaits]
          exact (doDeed_keeps_cut (hσ.orderly_of_perform hexec) (hσ.sound n).roster hstops).trans
            (note_keeps _ _)
    · cases t with
      | beginRun k =>
          obtain rfl : key = k := by simpa [Task.touches] using htouches
          rw [world_after hexec, Task.beginRun_sets.host_self] at hcut
          cases hcut
      | perform _ _ => cases hplain
      | _ => cases htouches

/-- While the announcement of an evaluation waits the host counts it. -/
theorem pending_of_enters (henters : EntersEngine σ key below n) (hnm : n < m)
    (hstays : ∀ i, n < i → i ≤ m → .announce key :: below <:+ (σ i).agenda) :
    0 < ((σ m).world.host key).pending := by
  obtain ⟨program, origin, line, hexec⟩ := henters
  obtain ⟨above, hagenda, hengaged, -⟩ := hσ.engaged hexec hnm hstays
  have hdepth := (hσ.sound m).depth
    (hσ.uncrashed_of_suffix (hstays m hnm (Nat.le_refl m))) key
  rw [hagenda] at hdepth
  refine hdepth.pos (fun k program origin line tail hsuffix => ?_) hengaged.entered
  obtain ⟨j, rest, -, -, -, htail, -⟩ := hσ.evaluated (hagenda ▸ hsuffix)
  exact ⟨rest, htail⟩

/-- After the engine has returned nothing happens while the announcement waits. -/
theorem still_of_exits {o : Outcome} (hexits : Exits σ (.announce key :: below) j o)
    (hjm : j < m) (hstays : ∀ i, j < i → i ≤ m → .announce key :: below <:+ (σ i).agenda) :
    (σ m).agenda = .announce key :: below ∧ Interrupts.Same (σ (j + 1)).world (σ m).world := by
  obtain ⟨t, hexec, hnothing, -⟩ := hexits
  have hcrashed := fun i hji him => hσ.uncrashed_of_suffix (hstays i hji him)
  have hagenda := after hexec (hcrashed (j + 1) (Nat.lt_succ_self j) hjm)
  rw [hnothing] at hagenda
  rcases hσ.stuck_until rfl rfl hagenda hjm with hstill | ⟨i, hji, him, hdone, -⟩
  · exact hstill
  · -- it would be gone
    have hlater := hstays (i + 1) (by omega) him
    rw [after hdone (hcrashed (i + 1) (by omega) him)] at hlater
    exact absurd hlater Task.not_suffix_self

/-- An evaluation whose announcement is executed has left the engine right before. -/
theorem evaluates (henters : EntersEngine σ key below n) (hna : n < a)
    (hstays : ∀ i, n < i → i ≤ a → .announce key :: below <:+ (σ i).agenda)
    (hannounces : Executes σ a (.announce key) below) :
    ∃ j, Evaluates σ key below n j a (σ a).outcome := by
  obtain ⟨program, origin, line, hexec⟩ := id henters
  obtain ⟨above, hagenda, hengaged, hexits⟩ := hσ.engaged hexec hna hstays
  obtain rfl : above = [] := by
    rw [hannounces.agenda] at hagenda
    exact List.self_eq_append_left.mp hagenda
  obtain ⟨j, hnj, hja, hexit⟩ := hexits rfl
  have hstill := hσ.still_of_exits hexit hja fun i hji => hstays i (Nat.lt_of_le_of_lt hnj hji)
  refine ⟨j, ⟨hnj, hja⟩, henters, hexit, ?_, hstays, hstill.2, hannounces, rfl⟩
  exact hengaged.plain

/-- What is announced is an evaluation. -/
theorem evaluates_of_announce (hannounces : Executes σ a (.announce key) below) :
    ∃ n j, Evaluates σ key below n j a (σ a).outcome := by
  obtain ⟨n, program, origin, line, hna, hexec, hstays⟩ := hσ.entered_of_announce hannounces
  obtain ⟨j, hevaluates⟩ := hσ.evaluates ⟨program, origin, line, hexec⟩ hna hstays hannounces
  exact ⟨n, j, hevaluates⟩

theorem progress (henters : EntersEngine σ key below n) (hnm : n < m)
    (hcrashed : (σ m).world.crashed = false) : Progress σ key below n m := by
  obtain ⟨program, origin, line, hexec⟩ := id henters
  have hfirst : .announce key :: below <:+ (σ (n + 1)).agenda := by
    rw [after hexec (hσ.uncrashed hnm hcrashed)]
    exact List.suffix_append _ _
  rcases hσ.stays_or_popped rfl hfirst hnm hcrashed with hstays | ⟨a, hna, ham, hdone, hstays⟩
  · obtain ⟨above, hagenda, -, hexits⟩ := hσ.engaged hexec hnm hstays
    cases above with
    | nil =>
        obtain ⟨j, hnj, hjm, hexit⟩ := hexits rfl
        have hstill := hσ.still_of_exits hexit hjm fun i hji => hstays i (by omega)
        exact .returned j hnj hjm hexit hstill.1 hstill.2
    | cons t above => exact .engaged t above hagenda
  · obtain ⟨j, hevaluates⟩ := hσ.evaluates henters hna hstays hdone
    exact .announced j a _ ham hevaluates

/-- A host says how the evaluation ended, and its bus carries that. -/
theorem heard_of_announce (hannounces : Executes σ a (.announce key) below) :
    heard σ key a (a + 1) =
        ((σ a).world.host key).announces (σ a).world.clock (σ a).outcome ∧
      ((σ (a + 1)).world.buses.get ((σ a).world.host key).bus).history.toList =
        ((σ a).world.buses.get ((σ a).world.host key).bus).history.toList ++
          heard σ key a (a + 1) := by
  have hkey := (hσ.sound a).head hannounces.agenda key rfl
  have hsaid : ((σ a).world.host key).Says ((σ (a + 1)).world.host key)
      (((σ a).world.host key).announces (σ a).world.clock (σ a).outcome) := by
    rw [world_after hannounces, (Task.announce_sets hkey).host_self]
    exact Host.conclude_says _ _ _
  have hairs : (σ a).world.Airs (σ (a + 1)).world key := by
    rw [world_after hannounces]
    exact announceOutcome_airs _ _ _
  obtain ⟨es, hsaid', hcarried⟩ := hairs.carried
  refine ⟨heard_eq hsaid, ?_⟩
  rw [heard_eq hsaid', hcarried]

/-- The host of an evaluation that is announced is cut off exactly if it was when the evaluation
entered the engine, and no run has begun since. -/
theorem cut_iff {o : Outcome} (hevaluates : Evaluates σ key below n j a o) :
    ((σ a).world.host key).outlet.detached = true ↔
      ∃ i, i < n ∧ Severs σ key i ∧ ∀ k, i < k → k < a → ¬ Begins σ key k := by
  have hna : n < a := Nat.lt_of_le_of_lt hevaluates.order.1 hevaluates.order.2
  constructor
  · intro hcut
    have hzero : ((σ 0).world.host key).outlet.detached = false := by
      obtain ⟨disk, remote, programs, functions, network, actions, hstart⟩ := hσ.starts
      rw [hstart]
      rfl
    obtain ⟨i, hia, hattached, hcut⟩ :=
      exists_last_rise (fun i => ((σ i).world.host key).outlet.detached) hzero hcut
    have hafter := hcut (i + 1) (Nat.lt_succ_self i) hia
    have hsevers := hσ.severs_of_rise hattached hafter
    refine ⟨i, ?_, hsevers, ?_⟩
    · rcases Nat.lt_trichotomy i n with hin | rfl | hni
      · exact hin
      · -- the engine is entered in this step
        obtain ⟨program, origin, line, hexec⟩ := hevaluates.enters
        obtain ⟨scope, deed, actions, rest, hstops, -⟩ := hsevers.stops
        cases hexec.agenda.symm.trans hstops.agenda
      · have hpending := hσ.pending_of_enters hevaluates.enters hni fun k hnk hki =>
          hevaluates.waits k hnk (Nat.le_trans hki (Nat.le_of_lt hia))
        have hkey : (σ i).world.Has key := has_of_ne_default fun hdefault => by
          rw [hdefault] at hpending
          cases hpending
        rw [(hσ.quiet_of_cut hkey hattached hafter).1] at hpending
        cases hpending
    · rintro k hik hka ⟨rest, hbegins⟩
      have hstill := hcut (k + 1) (Nat.lt_succ_of_lt hik) hka
      rw [world_after hbegins, Task.beginRun_sets.host_self] at hstill
      cases hstill
  · rintro ⟨i, hin, hsevers, hbegins⟩
    have hkey : (σ (i + 1)).world.Has key := has_of_ne_default fun hdefault => by
      have hcut := hsevers.cut
      rw [hdefault] at hcut
      cases hcut
    exact (hσ.silent_later (by omega) hkey (fun k hik hka => hbegins k hik hka) hsevers.cut).1

/-- An evaluation that enters the engine while another one is under way is announced before. -/
theorem nested_announced {o : Outcome} (hevaluates : Evaluates σ key below n j a o)
    {other n' : Nat} {below' : List Task} (hnn : n < n') (hna : n' < a)
    (henters : EntersEngine σ other below' n') :
    ∃ j' a' o', a' < a ∧ Evaluates σ other below' n' j' a' o' := by
  obtain ⟨program, origin, line, hexec⟩ := id henters
  have hwaits := hevaluates.waits n' hnn (Nat.le_of_lt hna)
  rw [hexec.agenda] at hwaits
  have habove : .announce key :: below <:+ below' := by
    rcases List.suffix_cons_iff.mp hwaits with heq | hwaits
    · cases heq
    · rcases List.suffix_cons_iff.mp hwaits with heq | hwaits
      · -- it would be the same announcement
        obtain ⟨program', origin', line', hexec'⟩ := hevaluates.enters
        rw [← heq] at hexec
        exact (hσ.engine_unique hexec' hexec hnn fun i hni hin =>
          hevaluates.waits i hni (Nat.le_trans hin (Nat.le_of_lt hna))).elim
      · exact hwaits
  have hcrashed := (hσ.sound a).uncrashed hevaluates.announces.agenda
  have hfirst : .announce other :: below' <:+ (σ (n' + 1)).agenda := by
    rw [after hexec (hσ.uncrashed hna hcrashed)]
    exact List.suffix_append _ _
  have hgone : ¬ .announce other :: below' <:+ (σ a).agenda := by
    intro hthere
    have hlength := hthere.length_le
    rw [hevaluates.announces.agenda] at hlength
    have hshort := habove.length_le
    simp only [List.length_cons] at hlength hshort
    omega
  obtain ⟨a', hna', haa, hdone, hstays⟩ := hσ.popped rfl hfirst hna hcrashed hgone
  obtain ⟨j', hevaluates'⟩ := hσ.evaluates henters hna' hstays hdone
  exact ⟨j', a', _, haa, hevaluates'⟩

/-- No announcement is that of two evaluations. -/
theorem evaluates_unique {other n' j' : Nat} {below' : List Task} {o o' : Outcome}
    (hevaluates : Evaluates σ key below n j a o)
    (hevaluates' : Evaluates σ other below' n' j' a o') : n = n' := by
  have hagenda := hevaluates.announces.agenda.symm.trans hevaluates'.announces.agenda
  obtain ⟨hsame, rfl⟩ := List.cons.inj hagenda
  cases hsame
  have hearlier : ∀ {n j n' j' o o'}, Evaluates σ key below n j a o →
      Evaluates σ key below n' j' a o' → ¬ n < n' := by
    intro n j n' j' o o' h h' hnn
    obtain ⟨program, origin, line, hexec⟩ := h.enters
    obtain ⟨program', origin', line', hexec'⟩ := h'.enters
    have hna := Nat.lt_of_le_of_lt h'.order.1 h'.order.2
    exact hσ.engine_unique hexec hexec' hnn fun i hni hin =>
      h.waits i hni (Nat.le_trans hin (Nat.le_of_lt hna))
  exact Nat.le_antisymm (Nat.le_of_not_lt (hearlier hevaluates' hevaluates))
    (Nat.le_of_not_lt (hearlier hevaluates hevaluates'))

/-- A step in which no evaluation of a host is announced publishes no such announcement. -/
theorem omits_evaluations (hother : ∀ below, ¬ Executes σ n (.announce key) below) :
    ((σ n).world.host key).Omits Event.isEvaluation ((σ (n + 1)).world.host key) := by
  by_cases hkey : (σ n).world.Has key
  · rcases hσ.host_step key n with hsame | ⟨t, rest, hexec, hworld⟩
    · exact .silent (by rw [hsame])
    · have hsound := hσ.sound n
      have hkeys := hsound.head hexec.agenda
      rw [hworld]
      by_cases hruns : t.runs? = some key
      · by_cases hbegin : t = .beginRun key
        · subst hbegin
          rw [Task.beginRun_sets.host_self]
          exact .silent rfl
        · exact (Task.react_stride hkeys hruns hbegin).omits
      · by_cases hsets : t.sets? = some key
        · cases t with
          | engine _ program origin line =>
              cases hsets
              rw [(Task.engine_sets program origin line).host_self]
              exact .silent rfl
          | announce _ =>
              cases hsets
              exact absurd hexec (hother rest)
          | initialise _ =>
              cases hsets
              rw [(Task.initialise_sets hkey).host_self]
              exact .silent rfl
          | beginRun _ | confirmRun _ | update _ _ | close _ _ | finish _ _ =>
              exact absurd hsets hruns
          | _ => cases hsets
        · exact (Task.react_acts hsound.linked hkeys hsets hkey).omits_evaluations
  · have hnone : ((σ n).world.host key).published = [] := by
      rw [host, Store.get_of_not_mem _ _ hkey]
      rfl
    rcases hσ.newcomer hkey with hdefault | ⟨plan, api, id, bus, hacts⟩
    · rw [hdefault]
      exact .silent (by rw [hnone]; rfl)
    · obtain ⟨es, hsaid, hnothing⟩ := (hacts true).omits_evaluations
      exact ⟨es, by rw [Host.Says, hnone]; exact hsaid, hnothing⟩

end Behavior

/-- How the evaluations of a behavior are announced. -/
structure Announcements (σ : Nat → Machine) : Prop where
  /-- What has entered the engine is still in it, or is about to be announced, or was announced. -/
  progress : ∀ {key n m program origin line rest},
    Executes σ n (.engine key program origin line) rest → n < m →
    (σ m).world.crashed = false →
    ∃ below, rest = .announce key :: below ∧ Progress σ key below n m
  /-- The host says how the evaluation ended, unless it is cut off, and its bus carries that. -/
  published : ∀ {key below n j a o}, Evaluates σ key below n j a o →
    heard σ key a (a + 1) = ((σ a).world.host key).announces (σ a).world.clock o ∧
    ((σ (a + 1)).world.buses.get ((σ a).world.host key).bus).history.toList =
      ((σ a).world.buses.get ((σ a).world.host key).bus).history.toList ++ heard σ key a (a + 1)
  /-- It is cut off exactly if a stop-all call did so before the evaluation entered the engine, and
  no run has begun since. -/
  cut : ∀ {key below n j a o}, Evaluates σ key below n j a o →
    (((σ a).world.host key).outlet.detached = true ↔
      ∃ i, i < n ∧ Severs σ key i ∧ ∀ k, i < k → k < a → ¬ Begins σ key k)
  /-- Evaluations that begin meanwhile are announced before. -/
  nested : ∀ {key below n j a o other below' n'}, Evaluates σ key below n j a o →
    EntersEngine σ other below' n' → n < n' → n' < a →
    ∃ j' a' o', a' < a ∧ Evaluates σ other below' n' j' a' o'
  /-- No announcement is that of two evaluations. -/
  own : ∀ {key below n j a o other below' n' j' o'}, Evaluates σ key below n j a o →
    Evaluates σ other below' n' j' a o' → n = n'
  /-- No host says that an evaluation has ended unless one of its own has. -/
  sole : ∀ {key n e}, e ∈ heard σ key n (n + 1) → e.event.isEvaluation = true →
    ∃ below i j o, Evaluates σ key below i j n o

/-- Every evaluation that enters the script engine is announced once the engine has returned. -/
theorem evaluations_announced {σ : Nat → Machine} (hσ : Behavior σ) : Announcements σ where
  progress hexec hnm hcrashed := by
    obtain ⟨j, below, -, -, -, rfl, -⟩ := hσ.evaluated (Behavior.suffix_of_executes hexec)
    exact ⟨below, rfl, hσ.progress ⟨_, _, _, hexec⟩ hnm hcrashed⟩
  published hevaluates := by
    rw [← hevaluates.outcome]
    exact hσ.heard_of_announce hevaluates.announces
  cut hevaluates := hσ.cut_iff hevaluates
  nested hevaluates henters hnn hna := hσ.nested_announced hevaluates hnn hna henters
  own hevaluates hevaluates' := hσ.evaluates_unique hevaluates hevaluates'
  sole {key n e} hmem hevaluation := by
    by_cases hannounces : ∃ below, Executes σ n (.announce key) below
    · obtain ⟨below, hexec⟩ := hannounces
      obtain ⟨i, j, hevaluates⟩ := hσ.evaluates_of_announce hexec
      exact ⟨below, i, j, _, hevaluates⟩
    · obtain ⟨es, hsaid, hnone⟩ := hσ.omits_evaluations fun below h => hannounces ⟨below, h⟩
      rw [Behavior.heard_eq hsaid] at hmem
      rw [hnone e.event (List.mem_map_of_mem hmem)] at hevaluation
      cases hevaluation

/-- A host whose program evaluates a fault and begins a stop-all call. The call returns after the
run, and the host evaluates once more. -/
def Machine.silenced : Machine :=
  .start (.start default [] [("body",
      [.inScript none (.evaluate "throw x" "n.js" 1), .onWorld (.stopAll "" "j")])] [] default)
    [.build ⟨"h", "body", "h.js", none, .standard, "", none, none, false, none, false, 1⟩ [],
      .onHost (some "h") .run, .onWorld (.poll "j"),
      .inScript (some "h") (.evaluate "late" "late.js" 1)]

theorem Machine.silenced_behavior : Behavior silenced.trace :=
  trace_behavior ..

theorem Machine.evaluates_trace {m : Machine} (hm : Behavior m.trace) (key n : Nat)
    (h : (m.trace n).agenda.head?.any (Task.isAnnounce key) = true) :
    ∃ below i j, Evaluates m.trace key below i j n (m.trace n).outcome := by
  obtain ⟨t, below, hexec, ht⟩ := executes_trace_iff.mpr h
  cases t with
  | announce k =>
      obtain rfl : k = key := of_decide_eq_true ht
      exact ⟨below, hm.evaluates_of_announce hexec⟩
  | _ => cases ht

/-- The fault of the run is announced in two events. Nobody hears of the late evaluation, before
which the host was cut off. -/
theorem silenced_announced :
    (∃ below n j o, Evaluates silenced.trace 0 below n j 14 o ∧ heard silenced.trace 0 14 15 =
      ((silenced.trace 14).world.host 0).announces (silenced.trace 14).world.clock o) ∧
    (heard silenced.trace 0 14 15).length = 2 ∧
    ∃ below n j o i, Evaluates silenced.trace 0 below n j 44 o ∧ i < n ∧
      Severs silenced.trace 0 i := by
  have hannouncements : Announcements silenced.trace := evaluations_announced silenced_behavior
  refine ⟨?_, by decide +kernel, ?_⟩
  · obtain ⟨below, n, j, hevaluates⟩ :=
      evaluates_trace silenced_behavior 0 14 (by decide +kernel)
    exact ⟨below, n, j, _, hevaluates, (hannouncements.published hevaluates).1⟩
  · obtain ⟨below, n, j, hevaluates⟩ :=
      evaluates_trace silenced_behavior 0 44 (by decide +kernel)
    obtain ⟨i, hin, hsevers, -⟩ := (hannouncements.cut hevaluates).mp (by decide +kernel)
    exact ⟨below, n, j, _, i, hevaluates, hin, hsevers⟩

/-- An evaluation that a host is asked for after a stop-all call is not announced. -/
theorem not_always_announced : ¬ ∀ σ, Behavior σ → ∀ key below n j a o,
    Evaluates σ key below n j a o →
    Envelope.events (heard σ key a (a + 1)) = o.announcement := by
  intro hannounced
  obtain ⟨below, n, j, hevaluates⟩ :=
    evaluates_trace silenced_behavior 0 44 (by decide +kernel)
  have hfalse := hannounced silenced.trace silenced_behavior 0 below n j 44 _ hevaluates
  have hsilent : heard silenced.trace 0 44 45 = [] :=
    List.eq_nil_of_length_eq_zero (by decide +kernel)
  have hplain := hevaluates.plain
  rw [hsilent, Envelope.events_nil] at hfalse
  generalize (silenced.trace 44).outcome = o at hfalse hplain
  cases o with
  | refused => cases hplain
  | returned | faulted => cases hfalse

end TickHost
