import TickHost.Proofs.Handles
import TickHost.Proofs.Stack
import TickHost.Proofs.Touches

/-!
Who touches timers. A task starts or clears at most one timer, on behalf of the host whose code it
carries out; only the firing task of a host fires its timers, and only the end of a run takes all
of them away. Everything else is calm: no table of timers changes, and the clock does not go back.
So the timers of a host have a history in the sense of `Timers.History`.
-/

namespace TickHost

namespace World

/-- Between two worlds no timer was touched, and the clock did not go back. -/
structure Calm (w w' : World) : Prop where
  timers : ∀ key, (w'.host key).timers = (w.host key).timers
  clock : w.clock ≤ w'.clock

namespace Calm

variable {w w' w'' : World}

theorem refl (w : World) : w.Calm w where
  timers _ := rfl
  clock := Nat.le_refl _

theorem trans (h : w.Calm w') (h' : w'.Calm w'') : w.Calm w'' where
  timers key := (h'.timers key).trans (h.timers key)
  clock := Nat.le_trans h.clock h'.clock

/-- A change that hosts have no part in. -/
theorem of_hosts (hhosts : w'.hosts = w.hosts) (hclock : w.clock ≤ w'.clock) : w.Calm w' where
  timers key := by rw [host, host, hhosts]
  clock := hclock

/-- A change of one host that is not about its timers. -/
theorem setHost {key : Nat} {h : Host} (htimers : h.timers = (w.host key).timers) :
    w.Calm (w.setHost key h) where
  timers other := by
    rw [host_setHost]
    split
    · rename_i heq
      rw [htimers, heq]
    · rfl
  clock := Nat.le_refl _

theorem of_keeps (hkeeps : ∀ a, w.Keeps a w') : w.Calm w' where
  timers key := hkeeps (.timers key)
  clock := hkeeps .clock

end Calm

/-- Code that acts on behalf of a host starts a timer, or touches none. -/
inductive Started (w : World) (actor : Option Nat) : World → Prop where
  | calm {w' : World} (hcalm : w.Calm w') : Started w actor w'
  | starts {w' : World} (key : Nat) (callback : Callback) (milliseconds : Nat) (once : Bool)
      (id : TimerId) (hactor : actor = some key)
      (hid : (w.setTimer key callback milliseconds once).1 = some id)
      (hcalm : (w.setTimer key callback milliseconds once).2.Calm w') : Started w actor w'

/-- Code that acts on behalf of a host starts a timer, or clears one, or touches none. -/
inductive Tended (w : World) (actor : Option Nat) : World → Prop where
  | calm {w' : World} (hcalm : w.Calm w') : Tended w actor w'
  | starts {w' : World} (key : Nat) (callback : Callback) (milliseconds : Nat) (once : Bool)
      (id : TimerId) (hactor : actor = some key)
      (hid : (w.setTimer key callback milliseconds once).1 = some id)
      (hcalm : (w.setTimer key callback milliseconds once).2.Calm w') : Tended w actor w'
  | clears {w' : World} (key : Nat) (id : TimerId) (hactor : actor = some key)
      (hcalm : (w.updateHost key fun h => { h with timers := (h.timers.cancel id).2 }).Calm w') :
      Tended w actor w'

variable {w w' w'' : World} {actor : Option Nat}

theorem Started.refl : w.Started actor w :=
  .calm (.refl w)

theorem Started.trans_calm (h : w.Started actor w') (hcalm : w'.Calm w'') :
    w.Started actor w'' := by
  cases h with
  | calm h => exact .calm (h.trans hcalm)
  | starts key callback milliseconds once id hactor hid h =>
      exact .starts key callback milliseconds once id hactor hid (h.trans hcalm)

theorem Started.tended (h : w.Started actor w') : w.Tended actor w' := by
  cases h with
  | calm h => exact .calm h
  | starts key callback milliseconds once id hactor hid h =>
      exact .starts key callback milliseconds once id hactor hid h

theorem Tended.refl : w.Tended actor w :=
  .calm (.refl w)

theorem Tended.trans_calm (h : w.Tended actor w') (hcalm : w'.Calm w'') : w.Tended actor w'' := by
  cases h with
  | calm h => exact .calm (h.trans hcalm)
  | starts key callback milliseconds once id hactor hid h =>
      exact .starts key callback milliseconds once id hactor hid (h.trans hcalm)
  | clears key id hactor h => exact .clears key id hactor (h.trans hcalm)

theorem setTimer_started (w : World) (key : Nat) (callback : Callback) (milliseconds : Nat)
    (once : Bool) : w.Started (some key) (w.setTimer key callback milliseconds once).2 := by
  cases hid : (w.setTimer key callback milliseconds once).1 with
  | some id => exact .starts key callback milliseconds once id rfl hid (.refl _)
  | none =>
      have hsame : (w.setTimer key callback milliseconds once).2 = w := by
        unfold setTimer at hid ⊢
        dsimp only at hid ⊢
        split at hid
        · rename_i hrefused
          rw [if_pos hrefused]
        · cases hid
      rw [hsame]
      exact .refl

/-- A timer that starts is due one interval from now. -/
theorem setTimer_some {key : Nat} {callback : Callback} {milliseconds : Nat} {once : Bool}
    {id : TimerId} (hid : (w.setTimer key callback milliseconds once).1 = some id) :
    w.isStopping key = false ∧ (w.host key).finished = false ∧
      id = ((w.host key).timers.schedule callback (milliseconds * 1000) once w.clock).1 ∧
      (w.setTimer key callback milliseconds once).2 = w.updateHost key fun h =>
        { h with timers := (h.timers.schedule callback (milliseconds * 1000) once w.clock).2 } := by
  unfold setTimer at hid ⊢
  dsimp only at hid ⊢
  split at hid
  · cases hid
  · rename_i hopen
    simp only [Bool.or_eq_true, not_or, Bool.not_eq_true] at hopen
    cases hid
    simp [hopen.1, hopen.2, updateHost]

/-- Scripts start timers one at a time, and clear them only where they say so. -/
theorem doScriptDeed_started (w : World) (key : Nat) (name : String) {deed : ScriptDeed}
    (hdeed : ∀ timer, deed ≠ .clear timer) :
    w.Started (some key) (w.doScriptDeed key name deed).1 := by
  have hcalm : (∀ k, deed.touches (.timers k) = false) → w.Calm (w.doScriptDeed key name deed).1 :=
    fun h => ⟨fun k => doScriptDeed_keeps w key name (h k),
      doScriptDeed_keeps w key name deed.touches_clock⟩
  cases deed with
  | timeout timer call milliseconds =>
      exact (setTimer_started w key _ milliseconds true).trans_calm (.of_hosts rfl (Nat.le_refl _))
  | interval timer call milliseconds =>
      exact (setTimer_started w key _ milliseconds false).trans_calm (.of_hosts rfl (Nat.le_refl _))
  | clear timer => exact absurd rfl (hdeed timer)
  | includeAll _ call => cases call <;> exact .calm (hcalm fun _ => rfl)
  | timers | state | evaluate _ _ _ | resolve _ | load _ | print _ | stop | connect _ _
  | avatarMode _ | listen _ | sound _ | avatarData _ | handle _ => exact .calm (hcalm fun _ => rfl)

/-- A script that clears a timer cancels it, and is told whether it was live. -/
theorem doScriptDeed_clear {timer : String} {id : TimerId}
    (hid : w.timers.get? timer = some (some id)) (key : Nat) (name : String) :
    w.doScriptDeed key name (.clear timer) =
      (w.updateHost key fun h => { h with timers := (h.timers.cancel id).2 },
        .flag ((w.host key).timers.contains id)) := by
  simp only [doScriptDeed, hid, ← Timers.cancel_flag]
  rfl

/-- It does nothing if it knows no handle. -/
theorem doScriptDeed_clear_cases (w : World) (key : Nat) (name timer : String) :
    (w.doScriptDeed key name (.clear timer)).1 = w ∨
      ∃ id, w.timers.get? timer = some (some id) := by
  simp only [doScriptDeed]
  split
  · rename_i id hid
    exact .inr ⟨id, hid⟩
  · exact .inl rfl

theorem doScriptDeed_tended (w : World) (key : Nat) (name : String) (deed : ScriptDeed) :
    w.Tended (some key) (w.doScriptDeed key name deed).1 := by
  by_cases hclear : ∃ timer, deed = .clear timer
  · obtain ⟨timer, rfl⟩ := hclear
    rcases doScriptDeed_clear_cases w key name timer with hsame | ⟨id, hid⟩
    · rw [hsame]
      exact .refl
    · rw [doScriptDeed_clear hid]
      exact .clears key id rfl (.refl _)
  · exact (doScriptDeed_started w key name fun timer heq => hclear ⟨timer, heq⟩).tended

end World

namespace Task

open World

variable {w : World} {o : Outcome}

/-- A task that touches no timers is calm. -/
theorem react_calm (hlinked : w.Linked) {t : Task} (ht : ∀ key, t.touches w (.timers key) = false) :
    w.Calm (react w o t).world where
  timers key := react_keeps w o hlinked (ht key)
  clock := react_keeps w o hlinked (t.touches_clock w)

/-- Code of a script does what it asks for by itself, and leaves the timers alone otherwise. -/
theorem startScriptDeed_calm (w : World) (key : Nat) (name : String) (deed : ScriptDeed) :
    (w.doScriptDeed key name deed).1.Calm (startScriptDeed w key name deed).1 ∨
      w.Calm (startScriptDeed w key name deed).1 ∧ ∀ timer, deed ≠ .clear timer := by
  have hcalm : (∀ k, deed.touches (.timers k) = false) →
      w.Calm (startScriptDeed w key name deed).1 :=
    fun h => ⟨fun k => startScriptDeed_keeps w key name (h k),
      startScriptDeed_keeps w key name deed.touches_clock⟩
  rcases startScriptDeed_cases deed with ⟨program, origin, line, rfl⟩ | ⟨references, rfl⟩ | hdone
  · exact .inr ⟨hcalm fun _ => rfl, by simp⟩
  · exact .inr ⟨hcalm fun _ => rfl, by simp⟩
  · left
    rw [hdone]
    exact .of_keeps fun _ => note_keeps _ _

theorem startScriptDeed_started (w : World) (key : Nat) (name : String) {deed : ScriptDeed}
    (hdeed : ∀ timer, deed ≠ .clear timer) :
    w.Started (some key) (startScriptDeed w key name deed).1 := by
  rcases startScriptDeed_calm w key name deed with hcalm | ⟨hcalm, -⟩
  · exact (doScriptDeed_started w key name hdeed).trans_calm hcalm
  · exact .calm hcalm

theorem startScriptDeed_tended (w : World) (key : Nat) (name : String) (deed : ScriptDeed) :
    w.Tended (some key) (startScriptDeed w key name deed).1 := by
  rcases startScriptDeed_calm w key name deed with hcalm | ⟨hcalm, -⟩
  · exact (doScriptDeed_tended w key name deed).trans_calm hcalm
  · exact .calm hcalm

/-- A script is calm, or it acts for a host. -/
theorem perform_calm (hlinked : w.Linked) (scope : Scope) (actions : List Action) :
    w.Calm (performOne w o scope actions).world ∨
      ∃ named deed rest key, actions = .inScript named deed :: rest ∧
        (perform scope actions).actor? w = some key ∧
        (performOne w o scope actions).world =
          (startScriptDeed w key (named.getD scope.name) deed).1 := by
  have hcalm : (∀ key, (perform scope actions).touches w (.timers key) = false) →
      w.Calm (performOne w o scope actions).world := react_calm (o := o) hlinked
  have hnote : ∀ entry, w.Calm (w.note entry) := fun entry => .of_keeps fun _ => note_keeps w entry
  cases actions with
  | nil => exact .inl (.refl w)
  | cons action rest =>
      cases action with
      | inScript named deed =>
          cases hactor : (perform scope (.inScript named deed :: rest)).actor? w with
          | some key =>
              have hreact := react_inScript (w := w) o hactor
              exact .inr ⟨named, deed, rest, key, rfl, rfl, congrArg Reaction.world hreact⟩
          | none =>
              left
              cases named with
              | some name =>
                  have hname : w.names.get? name = none := hactor
                  simp only [performOne, start, hname]
                  exact hnote _
              | none =>
                  have hhost : scope.host = none := hactor
                  simp only [performOne, start, hhost]
                  exact hnote _
      | onWorld deed => cases deed <;> exact .inl (hcalm fun _ => rfl)
      | onHost _ deed => cases deed <;> exact .inl (hcalm fun _ => rfl)
      | build _ _ | give _ | throw _ | unknown _ | onHandle _ _ => exact .inl (hcalm fun _ => rfl)

theorem perform_tended (hlinked : w.Linked) (scope : Scope) (actions : List Action) :
    w.Tended ((perform scope actions).actor? w) (performOne w o scope actions).world := by
  rcases perform_calm (o := o) hlinked scope actions with
    hcalm | ⟨named, deed, rest, key, -, hactor, hworld⟩
  · exact .calm hcalm
  · rw [hactor, hworld]
    exact startScriptDeed_tended w key _ deed

theorem runDirective_started (w : World) (key : Nat) (origin : String) (line : Nat)
    (text : List Char) : w.Started (some key) (runDirective w key origin line text).world := by
  unfold runDirective
  dsimp only
  split
  · exact .refl
  · exact .refl
  · exact .refl
  · exact .calm (.of_keeps fun _ => publish_keeps w key _ _)
  · exact .calm (.of_keeps fun _ => load_keeps w key _)
  · exact setTimer_started w key _ _ _
  · exact setTimer_started w key _ _ _
  · exact .calm (.setHost rfl)
  · exact .calm (.of_keeps fun _ => requestStop_keeps w key)
  · split
    · exact .refl
    · exact .calm (.of_keeps fun _ => (resolveAll_keeps w key _).trans (fetchNow_keeps _ key _))

theorem runDirectives_started (w : World) (o : Outcome) (key : Nat) (origin : String)
    (lines : List (Nat × List Char)) :
    w.Started (some key) (runDirectives w o key origin lines).world := by
  cases lines with
  | nil => exact .refl
  | cons first rest =>
      obtain ⟨line, text⟩ := first
      have hfirst := runDirective_started w key origin line text
      unfold runDirectives
      dsimp only
      split
      · exact hfirst
      · exact hfirst

theorem callBack_started (w : World) (o : Outcome) (key : Nat) (callback : Callback)
    (args : List Value) : w.Started (some key) (callBack w o key callback args).world := by
  have hcount : w.Calm (w.setHost key (w.host key).countUpdate.2) := .setHost rfl
  unfold callBack
  dsimp only
  split
  · split
    · exact .calm (hcount.trans (.of_keeps fun _ => requestStop_keeps _ key))
    · exact .calm hcount
  · exact .calm (.of_keeps fun _ => note_keeps w _)
  · split
    · exact runDirective_started w key _ _ _
    · split
      · exact .calm (.of_keeps fun _ => note_keeps w _)
      · exact .calm (.of_keeps fun _ => note_keeps w _)

/-- What a task does to timers. -/
inductive Tends (w : World) (t : Task) : World → Prop where
  | tended {w' : World} (htended : w.Tended (t.actor? w) w') : Tends w t w'
  | fires {w' : World} (key now : Nat) (id : TimerId) (due : List TimerId) (callback : Callback)
      (ht : t = .fire key now (id :: due)) (hlive : (w.host key).finished = false)
      (hfire : ((w.host key).timers.fire id now).1 = some callback)
      (hcalm : (w.updateHost key fun h => { h with timers := (h.timers.fire id now).2 }).Calm w') :
      Tends w t w'
  | closes {w' : World} (key : Nat) (origin : String) (ht : t = .close key origin)
      (hcalm : (w.updateHost key fun h => { h with timers := h.timers.cancelAll.2 }).Calm w') :
      Tends w t w'

theorem fire_tends (key now : Nat) (due : List TimerId) :
    Tends w (.fire key now due) (fireOne w o key now due).world := by
  cases due with
  | nil => exact .tended .refl
  | cons id rest =>
      unfold fireOne
      dsimp only
      split
      · exact .tended .refl
      · rename_i hlive
        split
        · exact .tended .refl
        · rename_i callback timers hfire
          apply Tends.fires key now id rest callback rfl (by simpa using hlive) (by rw [hfire])
          rw [updateHost, hfire]
          exact .refl _

/-- Every task touches timers in these ways only. -/
theorem react_tends (hlinked : w.Linked) (t : Task) : Tends w t (react w o t).world := by
  have hcalm : (∀ key, t.touches w (.timers key) = false) → Tends w t (react w o t).world :=
    fun h => .tended (.calm (react_calm hlinked h))
  cases t with
  | perform scope actions => exact .tended (perform_tended hlinked scope actions)
  | directives key origin lines => exact .tended (runDirectives_started w o key origin lines).tended
  | call key callback args => exact .tended (callBack_started w o key callback args).tended
  | fire key now due => exact fire_tends key now due
  | close key origin => exact .closes key origin rfl (.of_keeps fun _ => publish_keeps _ key _ _)
  | answer _ _ | answerRun _ | answerOutcome _ | release _ | leaveThread _ | evaluate _ _ _ _
  | engine _ _ _ _ | announce _ | initialise _ | report _ | give _ | batch _ _ _ | notify _ _ _
  | beginRun _ | confirmRun _ | startTicking _ _ | awaitTick _ _ | pump _ _ | drain _ | flush _ _
  | stream _ _ | update _ _ | lastFlush _ | finish _ _ => exact hcalm fun _ => rfl

/-- Timers are taken away only where a script clears one, a pump fires one, or a run is closed. -/
theorem react_started (hlinked : w.Linked) {t : Task}
    (hscript : ∀ scope named timer actions,
      t ≠ .perform scope (.inScript named (.clear timer) :: actions))
    (hfire : ∀ key now due, t ≠ .fire key now due) (hclose : ∀ key origin, t ≠ .close key origin) :
    w.Started (t.actor? w) (react w o t).world := by
  have hcalm : (∀ key, t.touches w (.timers key) = false) →
      w.Started (t.actor? w) (react w o t).world := fun h => .calm (react_calm hlinked h)
  cases t with
  | perform scope actions =>
      rcases perform_calm (o := o) hlinked scope actions with
        hcalm | ⟨named, deed, rest, key, rfl, hactor, hworld⟩
      · exact .calm hcalm
      · rw [hactor]
        change w.Started (some key) (performOne w o scope _).world
        rw [hworld]
        apply startScriptDeed_started
        rintro timer rfl
        exact hscript scope named timer rest rfl
  | directives key origin lines => exact runDirectives_started w o key origin lines
  | call key callback args => exact callBack_started w o key callback args
  | fire key now due => exact absurd rfl (hfire key now due)
  | close key origin => exact absurd rfl (hclose key origin)
  | answer _ _ | answerRun _ | answerOutcome _ | release _ | leaveThread _ | evaluate _ _ _ _
  | engine _ _ _ _ | announce _ | initialise _ | report _ | give _ | batch _ _ _ | notify _ _ _
  | beginRun _ | confirmRun _ | startTicking _ _ | awaitTick _ _ | pump _ _ | drain _ | flush _ _
  | stream _ _ | update _ _ | lastFlush _ | finish _ _ => exact hcalm fun _ => rfl

end Task

open World Machine

/-- The timers of a host as time goes by. -/
def timersOf (σ : Nat → Machine) (key n : Nat) : Timers Callback :=
  ((σ n).world.host key).timers

/-- What can happen to the timers of a host from one moment to the next. -/
inductive Touches (σ : Nat → Machine) (key n : Nat) : Prop where
  | none (hsame : timersOf σ key (n + 1) = timersOf σ key n)
  | start (callback : Callback) (milliseconds : Nat) (once : Bool) (id : TimerId)
      (hid : ((σ n).world.setTimer key callback milliseconds once).1 = some id)
      (hstart : ((timersOf σ key n).schedule callback (milliseconds * 1000) once
        (σ n).world.clock) = (id, timersOf σ key (n + 1)))
  | clear (id : TimerId) (hclear : timersOf σ key (n + 1) = ((timersOf σ key n).cancel id).2)
  | fire (now : Nat) (id : TimerId) (due : List TimerId) (rest : List Task) (callback : Callback)
      (hexec : Executes σ n (.fire key now (id :: due)) rest)
      (hlive : ((σ n).world.host key).finished = false)
      (hfire : (timersOf σ key n).fire id now = (some callback, timersOf σ key (n + 1)))
  | close (origin : String) (rest : List Task) (hexec : Executes σ n (.close key origin) rest)
      (hclose : timersOf σ key (n + 1) = (timersOf σ key n).cancelAll.2)

namespace Behavior

variable {σ : Nat → Machine} (hσ : Behavior σ)

include hσ

/-- A moment passes without anything that matters to timers, or it is a step of some task. -/
theorem tends (n : Nat) :
    (σ n).world.Calm (σ (n + 1)).world ∨
      ∃ t rest, Executes σ n t rest ∧ t.Tends (σ n).world (σ (n + 1)).world := by
  rcases hσ.cases n with hkeeps | ⟨t, rest, hexec⟩
  · exact .inl (.of_keeps hkeeps)
  · right
    refine ⟨t, rest, hexec, ?_⟩
    rw [hexec.step, step_world hexec.agenda]
    exact Task.react_tends (hσ.sound n).linked t

/-- The clock does not go back. -/
theorem clock_mono {n m : Nat} (h : n ≤ m) : (σ n).world.clock ≤ (σ m).world.clock := by
  induction h with
  | refl => exact Nat.le_refl _
  | @step m _ ih =>
      apply Nat.le_trans ih
      rcases hσ.keeps .clock m with hkept | ⟨t, _, _, htouches⟩
      · exact hkept
      · rw [t.touches_clock] at htouches
        cases htouches

/-- At most one thing happens at a time to the timers of a host. -/
theorem touches (key n : Nat) : Touches σ key n := by
  have hother : ∀ (k : Nat) (f : Host → Host), k ≠ key →
      ((σ n).world.updateHost k f).Calm (σ (n + 1)).world →
      timersOf σ key (n + 1) = timersOf σ key n := by
    intro k f hne hcalm
    rw [timersOf, hcalm.timers key, host_updateHost, if_neg hne, timersOf]
  have hself : ∀ f : Host → Host, ((σ n).world.updateHost key f).Calm (σ (n + 1)).world →
      timersOf σ key (n + 1) = (f ((σ n).world.host key)).timers := by
    intro f hcalm
    rw [timersOf, hcalm.timers key, host_updateHost, if_pos rfl]
  rcases hσ.tends n with hcalm | ⟨t, rest, hexec, htends⟩
  · exact .none (hcalm.timers key)
  · generalize hworld : (σ (n + 1)).world = w at htends
    cases htends with
    | tended htended =>
        cases htended with
        | calm hcalm =>
            apply Touches.none
            rw [timersOf, hworld, hcalm.timers key, timersOf]
        | starts k callback milliseconds once id hactor hid hcalm =>
            obtain ⟨-, -, hhandle, hset⟩ := setTimer_some hid
            rw [hset, ← hworld] at hcalm
            by_cases hk : k = key
            · subst hk
              apply Touches.start callback milliseconds once id hid
              rw [hself _ hcalm, hhandle]
              rfl
            · exact .none (hother k _ hk hcalm)
        | clears k id hactor hcalm =>
            rw [← hworld] at hcalm
            by_cases hk : k = key
            · subst hk
              exact .clear id (hself _ hcalm)
            · exact .none (hother k _ hk hcalm)
    | fires k now id due callback ht hlive hfire hcalm =>
        rw [← hworld] at hcalm
        by_cases hk : k = key
        · subst hk
          subst ht
          apply Touches.fire now id due rest callback hexec hlive
          rw [hself _ hcalm, ← hfire]
          rfl
        · exact .none (hother k _ hk hcalm)
    | closes k origin ht hcalm =>
        rw [← hworld] at hcalm
        by_cases hk : k = key
        · subst hk
          subst ht
          exact .close origin rest hexec (hself _ hcalm)
        · exact .none (hother k _ hk hcalm)

/-- The timers of a host have a history: no host, no timers at first, and one request at a time
from then on. -/
theorem history (key : Nat) : Timers.History (timersOf σ key) where
  starts := by
    obtain ⟨disk, remote, programs, functions, network, actions, hstart⟩ := hσ.starts
    rw [timersOf, hstart]
    rfl
  next := by
    intro n
    cases hσ.touches key n with
    | none hsame => exact .inl hsame
    | start callback milliseconds once id _ hstart =>
        right
        refine ⟨.schedule callback (milliseconds * 1000) once (σ n).world.clock, ?_⟩
        simp [Timers.serve, hstart]
    | clear id hclear => exact .inr ⟨.cancel id, hclear⟩
    | fire now id due rest callback _ _ hfire =>
        right
        refine ⟨.fire id now, ?_⟩
        simp [Timers.serve, hfire]
    | close origin rest _ hclose => exact .inr ⟨.cancelAll, hclose⟩

end Behavior

end TickHost
