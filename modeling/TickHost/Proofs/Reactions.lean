import TickHost.Proofs.Sequels

/-!
What each task does to the world. A task sets one host in a way of its own, or it has an effect. The
theory of the machine rests on these lemmas and on the sequels of tasks, and seldom opens the tasks
again.
-/

namespace TickHost

open World

/-- How a run ends: its last events, and the flags that others wait for. -/
def Host.finishRun (h : Host) (time : Nat) (origin : String) : Host :=
  ((((h.announce time (.finished origin) .host).endRun).announce time .runningStateChanged
    .host).announce time .doneRunning .host).markDone

/-- How a run begins to end: its timers are gone before anyone hears of it. -/
def Host.closeRun (h : Host) (time : Nat) : Host :=
  { h with timers := h.timers.cancelAll.2 }.announce time .scriptEnding .host

/-- The end of a run changes the events and the flags of a host and nothing else. -/
theorem Host.finishRun_eq (h : Host) (time : Nat) (origin : String) :
    ∃ outlet, h.finishRun time origin = { h with outlet, running := false, done := true } := by
  have hannounce : ∀ (h : Host) (event : Event), ∃ outlet,
      h.announce time event .host = { h with outlet } := fun h event => ⟨_, rfl⟩
  unfold finishRun
  obtain ⟨first, hfirst⟩ := hannounce h (.finished origin)
  rw [hfirst]
  obtain ⟨second, hsecond⟩ := hannounce (endRun { h with outlet := first }) .runningStateChanged
  rw [hsecond]
  obtain ⟨third, hthird⟩ :=
    hannounce { endRun { h with outlet := first } with outlet := second } .doneRunning
  rw [hthird]
  exact ⟨third, rfl⟩

theorem Host.finishRun_omits {kind : Event → Bool} (h : Host) (time : Nat) (origin : String)
    (hfinished : kind (.finished origin) = false) (hchanged : kind .runningStateChanged = false)
    (hdone : kind .doneRunning = false) : h.Omits kind (h.finishRun time origin) := by
  have hfirst := announce_omits h time (.finished origin) .host hfinished
  have hsecond := announce_omits (h.announce time (.finished origin) .host).endRun time
    .runningStateChanged .host hchanged
  have hthird := announce_omits
    ((h.announce time (.finished origin) .host).endRun.announce time .runningStateChanged .host)
    time .doneRunning .host hdone
  exact (hfirst.trans (hsecond.trans hthird)).trans (.silent rfl)

/-- How an evaluation ends. -/
def Host.conclude (h : Host) (time : Nat) : Outcome → Host
  | .returned v => { h with pending := h.pending - 1 }.announce time (.evaluationFinished v false)
      .script
  | .faulted f => ({ h with pending := h.pending - 1 }.announce time (.errorMessage f.render)
      .script).announce time (.evaluationFinished (.text f.message) true) .script
  | .refused _ => { h with pending := h.pending - 1 }

namespace Task

variable {w : World} {o : Outcome} {key : Nat}

attribute [local simp] react

/-! Tasks that set a host. -/

/-- The host that a task of an evaluation or a run sets. -/
def sets? : Task → Option Nat
  | engine key _ _ _ | announce key | initialise key | beginRun key | confirmRun key | update key _
  | close key _ | finish key _ => some key
  | _ => none

theorem engine_sets (program origin : String) (line : Nat) :
    w.Sets key { w.host key with pending := (w.host key).pending + 1 }
      (react w o (.engine key program origin line)).world := by
  have hset : w.Sets key { w.host key with pending := (w.host key).pending + 1 }
      (w.setHost key { w.host key with pending := (w.host key).pending + 1 }) := .setHost w key _
  simp only [react, enterEngine]
  split
  · exact hset
  · split
    · exact hset.note _ rfl
    · split <;> exact hset.note _ rfl

theorem announce_sets (hkey : w.Has key) :
    w.Sets key ((w.host key).conclude w.clock o) (react w o (.announce key)).world := by
  have hleave := (Sets.self hkey).update fun h => { h with pending := h.pending - 1 }
  simp only [react, announceOutcome]
  cases o with
  | returned v => exact hleave.publish hkey _ _
  | faulted f =>
      have hreport := hleave.publish hkey (.errorMessage f.render) .script
      have hannounce := hreport.publish hkey (.evaluationFinished (.text f.message) true) .script
      rw [publish_clock] at hannounce
      exact hannounce
  | refused f => exact hleave

theorem initialise_sets (hkey : w.Has key) :
    w.Sets key { w.host key with initialized := true } (react w o (.initialise key)).world := by
  simp only [react]
  split
  · rename_i hdone
    have hsame : { w.host key with initialized := true } = w.host key := by rw [← hdone]
    rw [hsame]
    exact .self hkey
  · split
    · exact .setHost w key _
    · exact (Sets.setHost w key _).note _ rfl

theorem beginRun_sets : w.Sets key (w.host key).beginRun (react w o (.beginRun key)).world :=
  .setHost w key _

theorem confirmRun_sets_refused (hstopping : w.isStopping key = true) :
    w.Sets key (w.host key).endRun.markDone (react w o (.confirmRun key)).world := by
  simp only [react, hstopping, if_true]
  exact (Sets.setHost w key _).update Host.markDone

theorem confirmRun_sets (hkey : w.Has key) (hopen : w.isStopping key = false) :
    w.Sets key ((w.host key).announce w.clock .runningStateChanged .host)
      (react w o (.confirmRun key)).world := by
  simp only [react, hopen]
  exact (Sets.self hkey).publish hkey _ _

/-- The time since the last update, which the next one tells. -/
def delta (w : World) (t : Ticking) : Binary.Single :=
  Binary.Single.ofSeconds (w.clock - t.last)

theorem update_sets (hkey : w.Has key) (t : Ticking) (hlive : (w.host key).finished = false) :
    w.Sets key ((w.host key).announce w.clock (.update (delta w t)) .host)
      (react w o (.update key t)).world := by
  simp only [react, sendUpdate, hlive]
  exact (Sets.self hkey).publish hkey _ _

theorem update_idle (t : Ticking) (hfinished : (w.host key).finished = true) :
    (react w o (.update key t)).world = w := by
  simp [sendUpdate, hfinished]

theorem close_sets (hkey : w.Has key) (origin : String) :
    w.Sets key ((w.host key).closeRun w.clock) (react w o (.close key origin)).world :=
  ((Sets.self hkey).update fun h => { h with timers := h.timers.cancelAll.2 }).publish hkey _ _

theorem finish_sets (hkey : w.Has key) (origin : String) :
    w.Sets key ((w.host key).finishRun w.clock origin) (react w o (.finish key origin)).world := by
  have hfinished := (Sets.self hkey).publish hkey (.finished origin) .host
  have hended := hfinished.update Host.endRun
  have hchanged := hended.publish hkey .runningStateChanged .host
  have hdone := (hchanged.publish hkey .doneRunning .host).update Host.markDone
  rw [publish_clock] at hdone
  have hclock : ((w.publish key (.finished origin) .host).updateHost key Host.endRun).clock =
      w.clock := publish_clock w key _ _
  rw [hclock] at hdone
  exact hdone

/-! Effects of the other tasks. -/

variable {fetching waiting : Bool}

theorem run_effect (hkey : w.Has key) (after : List Task) :
    Effect fetching waiting w (run w key after).1 := by
  have hcount : Moves fetching w (w.updateHost key fun h => { h with updates := 0 }) :=
    .act hkey (.count 0)
  unfold run
  dsimp only
  split
  · exact .moves (hcount.trans (note_moves _ _ (.inr rfl)))
  · split
    · exact .moves (hcount.trans (note_moves _ _ (.inr rfl)))
    · exact .moves (hcount.trans (acquire_moves (hcount.has hkey)))

theorem spawn_effect (hlinked : w.Linked) (name : String) :
    Effect fetching waiting w (spawn w name).1 := by
  unfold spawn
  split
  · exact .moves (note_moves _ _ (.inr rfl))
  · rename_i key hname
    have hkey : w.Has key := hlinked.names name key hname
    split
    · exact .moves (note_moves _ _ (.inr rfl))
    · have hcount : Moves fetching w (w.updateHost key fun h => { h with updates := 0 }) :=
        .act hkey (.count 0)
      have hhold := hcount.trans (acquire_moves (hcount.has hkey))
      have hunname := hhold.tail (.forget name)
      have hlend := hunname.tail (.lend name key (Moves.has hunname hkey))
      exact .moves (Moves.of_ties hlend rfl (.inr rfl))

theorem startHostDeed_effect (hkey : w.Has key) (deed : HostDeed)
    (hfetching : ∀ reference, deed = .loadUrl reference → fetching = true) :
    Effect fetching waiting w (startHostDeed w key deed).1 := by
  rcases startHostDeed_cases deed with rfl | rfl | hdone
  · exact run_effect hkey _
  · exact .moves (acquire_moves hkey)
  · rw [hdone]
    exact .moves ((doHostDeed_moves hkey deed hfetching).trans (note_moves _ _ (.inr rfl)))

/-- An include that waits: its references are resolved and fetched. -/
theorem includeNow_moves (hkey : w.Has key) (references : List String) :
    Moves true w ((w.resolveAll key references).2.fetchNow key
      (w.resolveAll key references).1).2 := by
  have hresolve : Moves true w (w.resolveAll key references).2 := resolveAll_moves hkey references
  exact hresolve.trans (fetchNow_moves _ _ _)

theorem startScriptDeed_effect (hkey : w.Has key) (name : String) (deed : ScriptDeed) :
    Effect (!w.isStopping key) waiting w (startScriptDeed w key name deed).1 := by
  rcases startScriptDeed_cases deed with ⟨program, origin, line, rfl⟩ | ⟨references, rfl⟩ | hdone
  · exact .moves (acquire_moves hkey)
  · unfold startScriptDeed
    dsimp only
    split
    · exact .moves (note_moves _ _ (.inr rfl))
    · rename_i hopen
      have hfetch := includeNow_moves hkey references
      have hopen : w.isStopping key = false := by simpa using hopen
      rw [hopen]
      exact .moves (hfetch.trans (acquire_moves (hfetch.has hkey)))
  · rw [hdone]
    exact .moves ((doScriptDeed_moves hkey name deed).trans (note_moves _ _ (.inr rfl)))

/-- Who a script acts on, if anyone is there. -/
theorem start_effect (hlinked : w.Linked) (scope : Scope)
    (hscope : ∀ key, scope.host = some key → w.Has key) (action : Action) (rest : List Action) :
    Effect ((perform scope (action :: rest)).fetches w) (perform scope (action :: rest)).waits w
      (start w scope action).1 := by
  have honset := start_onset w scope action
  generalize start w scope action = started at honset
  cases honset with
  | build plan api => exact (build_effect w plan api).note _ rfl
  | spawn name => exact spawn_effect hlinked name
  | onWorld deed => exact (doDeed_effect hlinked deed).note _ rfl
  | onHandle handle key deed hhandle =>
      have hkey : w.Has key := hlinked.handles handle key hhandle
      exact .moves ((doHandleDeed_moves hkey handle deed).trans (note_moves _ _ (.inr rfl)))
  | onHost named name key deed hname =>
      refine startHostDeed_effect (hlinked.names name key hname) deed ?_
      rintro reference rfl
      rfl
  | inScript named name key deed hserved =>
      have hkey : w.Has key ∧
          (perform scope (.inScript named deed :: rest)).fetches w = !w.isStopping key := by
        cases named with
        | none => exact ⟨hscope key hserved, by simp_all [fetches, loadsUrl, actor?]⟩
        | some name => exact ⟨hlinked.names name key hserved, by simp_all [fetches, loadsUrl, actor?]⟩
      rw [hkey.2]
      exact startScriptDeed_effect hkey.1 name deed
  | answer action name a => exact .moves (note_moves _ _ (.inr rfl))
  | nothing action => exact .moves .refl

/-- A host for which a script acts is known. -/
theorem has_of_actor {t : Task} (hlinked : w.Linked)
    (hkeys : ∀ key, t.host? = some key → w.Has key) (hactor : t.actor? w = some key) :
    w.Has key := by
  unfold actor? at hactor
  split at hactor
  · exact hlinked.names _ key hactor
  · exact hkeys key hactor
  · exact hkeys key hactor
  · exact hkeys key hactor
  · cases hactor

/-- A script acts for the host that it belongs to, or for one that it names. -/
theorem react_inScript (o : Outcome) {scope : Scope} {named : Option String} {deed : ScriptDeed}
    {rest : List Action}
    (hactor : (perform scope (.inScript named deed :: rest)).actor? w = some key) :
    react w o (.perform scope (.inScript named deed :: rest)) =
      ⟨(startScriptDeed w key (named.getD scope.name) deed).1, o,
        (startScriptDeed w key (named.getD scope.name) deed).2 ++ [perform scope rest]⟩ := by
  cases named with
  | some name =>
      have hname : w.names.get? name = some key := hactor
      simp [performOne, start, hname]
  | none =>
      have hhost : scope.host = some key := hactor
      simp [performOne, start, hhost]

theorem perform_effect (hlinked : w.Linked) (scope : Scope)
    (hscope : ∀ key, scope.host = some key → w.Has key) (actions : List Action) :
    Effect ((perform scope actions).fetches w) (perform scope actions).waits w
      (performOne w o scope actions).world := by
  cases actions with
  | nil => exact .moves .refl
  | cons action rest =>
      have hstart := start_effect hlinked scope hscope action rest
      simp only [performOne]
      split
      · exact .moves .refl
      · exact .moves .refl
      · exact hstart

theorem runDirective_effect (waiting : Bool) (hkey : w.Has key) (origin : String) (line : Nat)
    (text : List Char) :
    Effect (!w.isStopping key) waiting w (runDirective w key origin line text).world := by
  unfold runDirective
  dsimp only
  split
  · exact .moves .refl
  · exact .moves .refl
  · exact .moves .refl
  · exact .moves (publish_moves hkey _ _ rfl fun _ => rfl)
  · exact .moves (load_moves hkey _)
  · exact .moves (setTimer_moves hkey _ _ _)
  · exact .moves (setTimer_moves hkey _ _ _)
  · exact .moves (.act hkey (.stream _))
  · exact .moves (requestStop_moves hkey)
  · split
    · exact .moves .refl
    · rename_i hopen
      have hopen : w.isStopping key = false := by simpa using hopen
      rw [hopen]
      exact .moves (includeNow_moves hkey _)

theorem directives_effect (waiting : Bool) (hkey : w.Has key) (origin : String)
    (lines : List (Nat × List Char)) :
    Effect (!w.isStopping key) waiting w (runDirectives w o key origin lines).world := by
  cases lines with
  | nil => exact .moves .refl
  | cons first rest =>
      obtain ⟨line, text⟩ := first
      have hfirst := runDirective_effect waiting hkey origin line text
      unfold runDirectives
      dsimp only
      split <;> exact hfirst

theorem call_effect (waiting : Bool) (hkey : w.Has key) (callback : Callback)
    (args : List Value) :
    Effect (!w.isStopping key) waiting w (callBack w o key callback args).world := by
  unfold callBack
  dsimp only
  split
  · have hcount : Moves (!w.isStopping key) w (w.setHost key (w.host key).countUpdate.2) :=
      .act hkey (.count _)
    split
    · exact .moves (hcount.trans (requestStop_moves (hcount.has hkey)))
    · exact .moves hcount
  · exact .moves (note_moves _ _ (.inr rfl))
  · split
    · exact runDirective_effect waiting hkey _ _ _
    · split <;> exact .moves (note_moves _ _ (.inr rfl))

theorem batch_effect (fetching waiting : Bool) (hkey : w.Has key) (results : FetchResults)
    (urls : List Url) : Effect fetching waiting w (runBatch w o key results urls).world := by
  cases urls with
  | nil => exact .moves .refl
  | cons url rest =>
      simp only [runBatch]
      split
      · exact .moves .refl
      · exact .moves (publish_moves hkey _ _ rfl fun _ => rfl)

theorem drain_effect (fetching waiting : Bool) (hkey : w.Has key) :
    Effect fetching waiting w (drainOne w o key).world := by
  unfold drainOne
  dsimp only
  split
  · exact .moves .refl
  · rename_i command rest hcommands
    have htake : Moves fetching w (w.setHost key { w.host key with commands := rest }) :=
      .act hkey (.queue rest)
    split
    · exact .moves (htake.trans (Moves.act (htake.has hkey) (.stream _)))
    · exact .moves (htake.trans (Moves.act (htake.has hkey) (.stream _)))
    · exact .moves (htake.trans (Moves.act (htake.has hkey) (.stream _)))
    · exact .moves htake
    · exact .moves (htake.trans (note_moves _ _ (.inr rfl)))

theorem fire_effect (fetching waiting : Bool) (hkey : w.Has key) (now : Nat)
    (due : List TimerId) : Effect fetching waiting w (fireOne w o key now due).world := by
  cases due with
  | nil => exact .moves .refl
  | cons id rest =>
      unfold fireOne
      dsimp only
      split
      · exact .moves .refl
      · split
        · exact .moves .refl
        · rename_i callback timers hfire
          have htimers : timers = ((w.host key).timers.fire id now).2 := by rw [hfire]
          subst htimers
          exact .moves (.act hkey (.fire id now))

/-- Waiting moves the clock and nothing else. -/
theorem awaitTick_effect (t : Ticking) :
    Effect fetching waiting w (react w o (.awaitTick key t)).world := by
  simp only [react, awaitNext]
  split
  · exact .moves .refl
  · exact .moves (.aside rfl (.inr rfl))

/-- Every task has an effect, apart from those that set a host. -/
theorem react_effect (hlinked : w.Linked) {t : Task}
    (hkeys : ∀ key, t.host? = some key → w.Has key) (hsets : t.sets? = none) :
    Effect (t.fetches w) t.waits w (react w o t).world := by
  cases t with
  | perform scope actions => exact perform_effect hlinked scope hkeys actions
  | answer _ _ | answerRun _ | answerOutcome _ =>
      exact .moves (note_moves _ _ (.inr rfl))
  | release key => exact .lapses (release_lapses (hkeys key rfl))
  | leaveThread _ => exact .moves (.aside rfl (.inr rfl))
  | evaluate key _ _ _ =>
      simp only [react]
      split <;> exact .moves .refl
  | report key =>
      simp only [react]
      split
      · exact .moves (reportFault_moves (hkeys key rfl) _)
      · exact .moves .refl
  | directives key origin lines =>
      have hfetches : (directives key origin lines).fetches w = !w.isStopping key := by
        simp [fetches, loadsUrl, actor?]
      rw [hfetches]
      exact directives_effect _ (hkeys key rfl) origin lines
  | give _ | startTicking _ _ => exact .moves .refl
  | batch key urls results => exact batch_effect _ _ (hkeys key rfl) results urls
  | call key callback args =>
      have hfetches : (call key callback args).fetches w = !w.isStopping key := by
        simp [fetches, loadsUrl, actor?]
      rw [hfetches]
      exact call_effect _ (hkeys key rfl) callback args
  | notify key callbacks args => cases callbacks <;> exact .moves .refl
  | awaitTick key t => exact awaitTick_effect t
  | pump key t =>
      simp only [react]
      split <;> exact .moves .refl
  | drain key => exact drain_effect _ _ (hkeys key rfl)
  | fire key now due => exact fire_effect _ _ (hkeys key rfl) now due
  | flush key t =>
      simp only [react]
      split
      · exact .moves .refl
      · exact .moves (flushEdits_moves w key)
  | stream key t =>
      simp only [react]
      split
      · exact .moves .refl
      · exact .moves (streamTick_moves (hkeys key rfl))
  | lastFlush key => exact .moves (flushEdits_moves w key)
  | engine _ _ _ _ | announce _ | initialise _ | beginRun _ | confirmRun _ | update _ _
  | close _ _ | finish _ _ => cases hsets

end Task

end TickHost
