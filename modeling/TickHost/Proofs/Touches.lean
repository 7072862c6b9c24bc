import TickHost.Proofs.Aspects
import TickHost.Proofs.Stack

/-!
Which task touches which aspect of the world. Source texts are rewritten by owners and by the
answers to loads, hosts end when they are given back or give up their name, callers take them into
use and give them back, stop-all calls cut hosts off and take them off their registry, only a pump
takes commands from those that were posted to its host, and the fetches that are kept are those of
loads and includes. A task keeps everything else.
-/

namespace TickHost

def WorldDeed.touches : WorldDeed → Aspect → Bool
  | stopAll _ _, .cut _ | stopAll _ _, .members _ | poll _, .cut _ | poll _, .members _ => true
  | stopAll own _, .stopping name => name = own
  | complete _, .script _ | complete _, .fetches | forget _, .fetches => true
  | dropHost _, .alive _ | dropHost _, .members _ | spawn _, .users _ => true
  | _, _ => false

def HostDeed.touches : HostDeed → Aspect → Bool
  | setContents _ _, .script _ | loadUrl _, .script _ | loadUrl _, .fetches => true
  | run, .users _ | initialise, .users _ => true
  | _, _ => false

def ScriptDeed.touches : ScriptDeed → Aspect → Bool
  | timeout _ _ _, .timers _ | interval _ _ _, .timers _ | clear _, .timers _ => true
  | includeAll _ (some _), .fetches => true
  | includeAll _ none, .users _ | evaluate _ _ _, .users _ => true
  | _, _ => false

theorem HostDeed.touches_cases {deed : HostDeed} {a : Aspect} (h : deed.touches a = true) :
    (∃ key, a = .script key) ∨ (∃ key, a = .users key) ∨ a = .fetches := by
  cases deed <;> cases a <;>
    first | exact .inl ⟨_, rfl⟩ | exact .inr (.inl ⟨_, rfl⟩) | exact .inr (.inr rfl) | cases h

/-- What code of a script touches by itself are timers and fetches, and it works on its host. -/
theorem ScriptDeed.touches_cases {deed : ScriptDeed} {a : Aspect} (h : deed.touches a = true) :
    (∃ key, a = .timers key) ∨ (∃ key, a = .users key) ∨ a = .fetches := by
  cases deed with
  | timeout _ _ _ | interval _ _ _ | clear _ =>
      cases a <;> first | exact .inl ⟨_, rfl⟩ | cases h
  | includeAll _ call =>
      cases call <;> cases a <;>
        first | exact .inr (.inl ⟨_, rfl⟩) | exact .inr (.inr rfl) | cases h
  | evaluate _ _ _ => cases a <;> first | exact .inr (.inl ⟨_, rfl⟩) | cases h
  | _ => cases h

theorem ScriptDeed.touches_clock (deed : ScriptDeed) : deed.touches .clock = false := by
  cases h : deed.touches .clock with
  | false => rfl
  | true => rcases touches_cases h with ⟨_, hnot⟩ | ⟨_, hnot⟩ | hnot <;> cases hnot

namespace World

variable {a : Aspect} (w : World) (key : Nat)

theorem doDeed_keeps {deed : WorldDeed} (ha : deed.touches a = false) :
    w.Keeps a (w.doDeed deed).1 := by
  cases deed with
  | openBus name capacity =>
      unfold doDeed
      dsimp only
      split
      · exact .aside rfl rfl rfl (Nat.le_refl _)
      · exact .aside rfl rfl rfl (Nat.le_refl _)
  | drain receiver => exact drain_keeps w receiver
  | sleep microseconds => exact .aside rfl rfl rfl (Nat.le_add_right _ _)
  | unsubscribe _ | makeAvatar _ | dropAvatar _ | addPeer _ | removePeer _ | dropHandle _ =>
      exact .aside rfl rfl rfl (Nat.le_refl _)
  | now | thread | registry _ | contains _ _ | spawn _ => exact .refl w
  | stopAll registry job =>
      refine stopAll_keeps w (by rintro name rfl; cases ha) ?_
        (by rintro id key - rfl; cases ha) job
      rintro rfl
      simp [WorldDeed.touches] at ha
  | waitDone _ job | waitEvaluations _ job =>
      unfold doDeed
      dsimp only
      split
      · exact wait_keeps w job _
      · exact .refl w
  | poll job =>
      have hcut : ∀ key, a ≠ .cut key := by
        rintro key rfl
        cases ha
      exact poll_keeps w (by rintro name rfl; cases ha)
        fun call _ => ⟨hcut call.host, fun _ key _ => hcut key⟩
  | dropJob job => exact dropJob_keeps w job
  | complete index =>
      exact complete_keeps w (by rintro rfl; cases ha) (by rintro f - - rfl; cases ha)
  | forget index => exact forget_keeps w (by rintro rfl; cases ha) index
  | dropHost name =>
      unfold doDeed
      dsimp only
      split
      · exact unname_keeps w (by rintro key - rfl; cases ha) (by rintro name rfl; cases ha)
      · exact .refl w

theorem doHostDeed_keeps {deed : HostDeed} (ha : deed.touches a = false) :
    w.Keeps a (w.doHostDeed key deed).1 := by
  cases deed with
  | run | initialise | info => exact .refl w
  | stop => exact requestStop_keeps w key
  | setContents contents origin =>
      unfold doHostDeed
      dsimp only
      split
      · exact .refl w
      · exact .rewrite (by rintro rfl; cases ha) _
  | loadUrl reference =>
      exact loadUrl_keeps w key (by rintro rfl; cases ha) (by rintro rfl; cases ha) reference
  | setParent _ | avatarData _ | nodeKilled _ => exact .edit rfl
  | subscribe receiver => exact subscribe_keeps w _ _

theorem doScriptDeed_keeps (name : String) {deed : ScriptDeed} (ha : deed.touches a = false) :
    w.Keeps a (w.doScriptDeed key name deed).1 := by
  cases deed with
  | timeout timer call milliseconds =>
      exact (setTimer_keeps w key (by rintro rfl; cases ha) _ milliseconds true).trans
        (.aside rfl rfl rfl (Nat.le_refl _))
  | interval timer call milliseconds =>
      exact (setTimer_keeps w key (by rintro rfl; cases ha) _ milliseconds false).trans
        (.aside rfl rfl rfl (Nat.le_refl _))
  | clear timer =>
      unfold doScriptDeed
      dsimp only
      split
      · have hother : a ≠ .timers key := by
          rintro rfl
          cases ha
        exact .retime hother _
      · exact .refl w
  | timers | state | evaluate _ _ _ => exact .refl w
  | resolve reference =>
      unfold doScriptDeed
      dsimp only
      split <;> exact .refl w
  | includeAll references call =>
      cases call with
      | none => exact .refl w
      | some call =>
          unfold doScriptDeed
          dsimp only
          split
          · exact .refl w
          · exact (resolveAll_keeps w key references).trans
              (fetch_keeps _ key _ _ (by rintro rfl; cases ha) nofun)
  | load reference => exact load_keeps w key reference
  | print text => exact publish_keeps w key _ _
  | stop => exact requestStop_keeps w key
  | connect signal call => exact .edit rfl
  | avatarMode _ | listen _ | sound _ | avatarData _ => exact .edit rfl
  | handle name => exact .aside rfl rfl rfl (Nat.le_refl _)

end World

namespace Task

open World

/-- The aspects that a task may touch. -/
def touches (w : World) : Task → Aspect → Bool
  | perform _ (.build _ _ :: _), .script key | perform _ (.build _ _ :: _), .queue key =>
      key = w.hosts.fresh
  | perform _ (.build _ _ :: _), .alive _ | perform _ (.build _ _ :: _), .members _ => true
  | perform _ (.build plan _ :: _), .numbers registry => registry = plan.registry
  | perform _ (.onWorld deed :: _), a => deed.touches a
  | perform _ (.onHost _ deed :: _), a => deed.touches a
  | perform _ (.inScript _ deed :: _), a => deed.touches a
  | release key, .alive k | release key, .users k => k = key
  | release key, .members name => name = (w.host key).registry
  | beginRun key, .cut k | drain key, .queue k => k = key
  | directives _ _ _, .timers _ | call _ _ _, .timers _ | fire _ _ _, .timers _
  | close _ _, .timers _ => true
  | _, _ => false

/-- What touches an aspect is an action that does, or no action at all. -/
theorem touches_cases {t : Task} {w : World} {a : Aspect} (h : t.touches w a = true) :
    (∃ scope plan api rest, t = perform scope (.build plan api :: rest)) ∨
      (∃ scope deed rest, t = perform scope (.onWorld deed :: rest) ∧ deed.touches a = true) ∨
      (∃ scope named deed rest, t = perform scope (.onHost named deed :: rest) ∧
        deed.touches a = true) ∨
      (∃ scope named deed rest, t = perform scope (.inScript named deed :: rest) ∧
        deed.touches a = true) ∨ t.isPerform = false := by
  cases t with
  | perform scope actions =>
      cases actions with
      | nil => cases a <;> cases h
      | cons action rest =>
          cases action with
          | build plan api => exact .inl ⟨scope, plan, api, rest, rfl⟩
          | onWorld deed =>
              have hdeed : deed.touches a = true := by cases a <;> exact h
              exact .inr (.inl ⟨scope, deed, rest, rfl, hdeed⟩)
          | onHost named deed =>
              have hdeed : deed.touches a = true := by cases a <;> exact h
              exact .inr (.inr (.inl ⟨scope, named, deed, rest, rfl, hdeed⟩))
          | inScript named deed =>
              have hdeed : deed.touches a = true := by cases a <;> exact h
              exact .inr (.inr (.inr (.inl ⟨scope, named, deed, rest, rfl, hdeed⟩)))
          | _ => cases a <;> cases h
  | _ => exact .inr (.inr (.inr (.inr rfl)))

/-- Owners and scripts leave everything else alone. -/
theorem touches_others {t : Task} {w : World} {a : Aspect} (h : t.touches w a = true)
    (hscript : ∀ key, a ≠ .script key) (husers : ∀ key, a ≠ .users key)
    (htimers : ∀ key, a ≠ .timers key) (hfetches : a ≠ .fetches) :
    (∃ scope plan api rest, t = perform scope (.build plan api :: rest)) ∨
      (∃ scope deed rest, t = perform scope (.onWorld deed :: rest) ∧ deed.touches a = true) ∨
      t.isPerform = false := by
  rcases touches_cases h with hbuild | hworld | ⟨_, _, _, _, -, hdeed⟩ |
    ⟨_, _, _, _, -, hdeed⟩ | hplain
  · exact .inl hbuild
  · exact .inr (.inl hworld)
  · rcases HostDeed.touches_cases hdeed with ⟨key, hkey⟩ | ⟨key, hkey⟩ | hkept
    · exact absurd hkey (hscript key)
    · exact absurd hkey (husers key)
    · exact absurd hkept hfetches
  · rcases ScriptDeed.touches_cases hdeed with ⟨key, hkey⟩ | ⟨key, hkey⟩ | hkept
    · exact absurd hkey (htimers key)
    · exact absurd hkey (husers key)
    · exact absurd hkept hfetches
  · exact .inr (.inr hplain)

/-- Nothing sets the clock back. -/
theorem touches_clock (t : Task) (w : World) : t.touches w .clock = false := by
  cases h : t.touches w .clock with
  | false => rfl
  | true =>
      rcases touches_others h nofun nofun nofun nofun with ⟨_, _, _, _, rfl⟩ |
        ⟨_, deed, _, -, hdeed⟩ | hplain
      · cases h
      · cases deed <;> cases hdeed
      · cases t <;> first | cases hplain; done | cases h

variable {a : Aspect} (w : World) (o : Outcome) (key : Nat)

theorem run_keeps (ha : a ≠ .users key) (after : List Task) :
    w.Keeps a (run w key after).1 := by
  have hreset : w.Keeps a (w.updateHost key fun h => { h with updates := 0 }) :=
    .edit rfl
  unfold run
  dsimp only
  split
  · exact hreset.trans (note_keeps _ _)
  · split
    · exact hreset.trans (note_keeps _ _)
    · exact hreset.trans (acquire_keeps _ key ha)

theorem spawn_keeps (ha : ∀ key, a ≠ .users key) (name : String) :
    w.Keeps a (spawn w name).1 := by
  unfold spawn
  split
  · exact note_keeps w _
  · rename_i key _
    split
    · exact note_keeps w _
    · have hreset : w.Keeps a (w.updateHost key fun h => { h with updates := 0 }) :=
        .edit rfl
      exact (hreset.trans (acquire_keeps _ key (ha key))).trans
        (.aside rfl rfl rfl (Nat.le_refl _))

theorem startHostDeed_keeps {deed : HostDeed} (ha : deed.touches a = false) :
    w.Keeps a (startHostDeed w key deed).1 := by
  rcases startHostDeed_cases deed with rfl | rfl | hdone
  · exact run_keeps w key (by rintro rfl; cases ha) _
  · exact acquire_keeps w key (by rintro rfl; cases ha)
  · rw [hdone]
    exact (doHostDeed_keeps w key ha).trans (note_keeps _ _)

theorem startScriptDeed_keeps (name : String) {deed : ScriptDeed} (ha : deed.touches a = false) :
    w.Keeps a (startScriptDeed w key name deed).1 := by
  rcases startScriptDeed_cases deed with ⟨program, origin, line, rfl⟩ | ⟨references, rfl⟩ | hdone
  · exact acquire_keeps w key (by rintro rfl; cases ha)
  · unfold startScriptDeed
    dsimp only
    split
    · exact note_keeps w _
    · exact ((resolveAll_keeps w key references).trans (fetchNow_keeps _ key _)).trans
        (acquire_keeps _ key (by rintro rfl; cases ha))
  · rw [hdone]
    exact (doScriptDeed_keeps w key name ha).trans (note_keeps _ _)

theorem start_keeps (hlinked : w.Linked) (scope : Scope) {action : Action} {rest : List Action}
    (ha : (perform scope (action :: rest)).touches w a = false) :
    w.Keeps a (start w scope action).1 := by
  have honset := start_onset w scope action
  generalize start w scope action = started at honset
  cases honset with
  | build plan api =>
      refine (build_keeps w hlinked plan api ?_ ?_ ?_ ?_ ?_).trans (note_keeps _ _)
      · rintro rfl
        simp [touches] at ha
      · rintro key rfl
        cases ha
      · rintro name rfl
        cases ha
      · rintro rfl
        simp [touches] at ha
      · rintro rfl
        simp [touches] at ha
  | spawn name => exact spawn_keeps w (by rintro key rfl; cases ha) name
  | onWorld deed =>
      have hdeed : deed.touches a = false := by cases a <;> exact ha
      exact (doDeed_keeps w hdeed).trans (note_keeps _ _)
  | onHandle handle key deed _ => exact (doHandleDeed_keeps w key handle deed).trans (note_keeps _ _)
  | onHost named name key deed _ => exact startHostDeed_keeps w key (by cases a <;> exact ha)
  | inScript named name key deed _ =>
      exact startScriptDeed_keeps w key name (by cases a <;> exact ha)
  | answer action name answer => exact note_keeps w _
  | nothing action => exact .refl w

theorem perform_keeps (hlinked : w.Linked) (scope : Scope) (actions : List Action)
    (ha : (perform scope actions).touches w a = false) :
    w.Keeps a (performOne w o scope actions).world := by
  cases actions with
  | nil => exact .refl w
  | cons action rest =>
      have hstart := start_keeps w hlinked scope ha
      simp only [performOne]
      split
      · exact .refl w
      · exact .refl w
      · exact hstart

theorem runDirective_keeps (ha : a ≠ .timers key) (origin : String) (line : Nat)
    (text : List Char) : w.Keeps a (runDirective w key origin line text).world := by
  unfold runDirective
  dsimp only
  split
  · exact .refl w
  · exact .refl w
  · exact .refl w
  · exact publish_keeps w key _ _
  · exact load_keeps w key _
  · exact setTimer_keeps w key ha _ _ _
  · exact setTimer_keeps w key ha _ _ _
  · exact .edit rfl
  · exact requestStop_keeps w key
  · split
    · exact .refl w
    · exact (resolveAll_keeps w key _).trans (fetchNow_keeps _ key _)

theorem runDirectives_keeps (ha : a ≠ .timers key) (origin : String)
    (lines : List (Nat × List Char)) :
    w.Keeps a (runDirectives w o key origin lines).world := by
  cases lines with
  | nil => exact .refl w
  | cons first rest =>
      obtain ⟨line, text⟩ := first
      have hfirst := runDirective_keeps w key ha origin line text
      unfold runDirectives
      dsimp only
      split
      · exact hfirst
      · exact hfirst

theorem callBack_keeps (ha : a ≠ .timers key) (callback : Callback) (args : List Value) :
    w.Keeps a (callBack w o key callback args).world := by
  have hcount : w.Keeps a (w.setHost key (w.host key).countUpdate.2) := .edit rfl
  unfold callBack
  dsimp only
  split
  · split
    · exact hcount.trans (requestStop_keeps _ key)
    · exact hcount
  · exact note_keeps w _
  · split
    · exact runDirective_keeps w key ha _ _ _
    · split
      · exact note_keeps w _
      · exact note_keeps w _

theorem enterEngine_keeps (program origin : String) (line : Nat) :
    w.Keeps a (enterEngine w o key program origin line).world := by
  have henter : w.Keeps a
      (w.setHost key { w.host key with pending := (w.host key).pending + 1 }) :=
    .edit rfl
  unfold enterEngine
  dsimp only
  split
  · exact henter
  · split
    · exact henter.trans (note_keeps _ _)
    · split
      · exact henter.trans (note_keeps _ _)
      · exact henter.trans (note_keeps _ _)

theorem announceOutcome_keeps : w.Keeps a (announceOutcome w o key) := by
  have hleave : w.Keeps a (w.updateHost key fun h => { h with pending := h.pending - 1 }) :=
    .edit rfl
  unfold announceOutcome
  dsimp only
  split
  · exact hleave.trans (publish_keeps _ key _ _)
  · exact (hleave.trans (reportFault_keeps _ key _)).trans (publish_keeps _ key _ _)
  · exact hleave

theorem runBatch_keeps (results : FetchResults) (urls : List Url) :
    w.Keeps a (runBatch w o key results urls).world := by
  cases urls with
  | nil => exact .refl w
  | cons url rest =>
      simp only [runBatch]
      split
      · exact .refl w
      · exact publish_keeps w key _ _

theorem drainOne_keeps (ha : a ≠ .queue key) : w.Keeps a (drainOne w o key).world := by
  unfold drainOne
  dsimp only
  split
  · exact .refl w
  · rename_i command rest _
    have htake : w.Keeps a (w.setHost key { w.host key with commands := rest }) := .take ha rest
    split
    · exact htake.trans (.edit rfl)
    · exact htake.trans (.edit rfl)
    · exact htake.trans (.edit rfl)
    · exact htake
    · exact htake.trans (note_keeps _ _)

theorem fireOne_keeps (ha : a ≠ .timers key) (now : Nat) (due : List TimerId) :
    w.Keeps a (fireOne w o key now due).world := by
  cases due with
  | nil => exact .refl w
  | cons id rest =>
      unfold fireOne
      dsimp only
      split
      · exact .refl w
      · split
        · exact .refl w
        · exact .retime ha _

theorem finishRun_keeps (origin : String) : w.Keeps a (finishRun w key origin).world := by
  have hfinished : w.Keeps a _ := publish_keeps w key (.finished origin) .host
  have hended : ∀ w' : World, w'.Keeps a (w'.updateHost key Host.endRun) :=
    fun _ => .edit rfl
  have hdone : ∀ w' : World, w'.Keeps a (w'.updateHost key Host.markDone) :=
    fun _ => .edit rfl
  exact (((hfinished.trans (hended _)).trans (publish_keeps _ key _ _)).trans
    (publish_keeps _ key _ _)).trans (hdone _)

/-- A task keeps what it does not touch. -/
theorem react_keeps (hlinked : w.Linked) {t : Task} (ha : t.touches w a = false) :
    w.Keeps a (react w o t).world := by
  cases t with
  | perform scope actions => exact perform_keeps w o hlinked scope actions ha
  | answer _ _ | answerRun _ | answerOutcome _ => exact note_keeps w _
  | release key =>
      refine release_keeps w key ?_ ?_ ?_
      · rintro rfl
        simp [touches] at ha
      · rintro rfl
        simp [touches] at ha
      · rintro rfl
        simp [touches] at ha
  | leaveThread _ => exact .aside rfl rfl rfl (Nat.le_refl _)
  | evaluate key _ _ _ =>
      simp only [react]
      split <;> exact .refl w
  | engine key program origin line => exact enterEngine_keeps w o key program origin line
  | announce key => exact announceOutcome_keeps w o key
  | initialise key =>
      have hset : w.Keeps a (w.setHost key { w.host key with initialized := true }) :=
        .edit rfl
      simp only [react]
      split
      · exact .refl w
      · split
        · exact hset
        · exact hset.trans (note_keeps _ _)
  | report key =>
      simp only [react]
      split
      · exact reportFault_keeps w key _
      · exact .refl w
  | directives key origin lines =>
      exact runDirectives_keeps w o key (by rintro rfl; cases ha) origin lines
  | give _ | startTicking _ _ => exact .refl w
  | batch key urls results => exact runBatch_keeps w o key results urls
  | call key callback args => exact callBack_keeps w o key (by rintro rfl; cases ha) callback args
  | notify key callbacks args => cases callbacks <;> exact .refl w
  | beginRun key =>
      refine .setHost (fun _ => rfl) (fun _ => rfl) (fun _ => rfl) ?_ (fun _ => rfl)
        fun _ hliving => ⟨hliving, List.prefix_rfl⟩
      rintro rfl
      simp [touches] at ha
  | confirmRun key =>
      simp only [react]
      split
      · have hended : w.Keeps a (w.updateHost key Host.endRun) := .edit rfl
        exact hended.trans (.edit rfl)
      · exact publish_keeps w key _ _
  | awaitTick key t =>
      simp only [react, awaitNext]
      split
      · exact .refl w
      · exact .aside rfl rfl rfl (Nat.le_max_left _ _)
  | pump key t =>
      simp only [react]
      split <;> exact .refl w
  | drain key =>
      refine drainOne_keeps w o key ?_
      rintro rfl
      simp [touches] at ha
  | fire key now due => exact fireOne_keeps w o key (by rintro rfl; cases ha) now due
  | flush key t =>
      simp only [react]
      split
      · exact .refl w
      · exact flushEdits_keeps w key
  | stream key t =>
      simp only [react]
      split
      · exact .refl w
      · exact streamTick_keeps w key
  | update key t =>
      simp only [react, sendUpdate]
      split
      · exact .refl w
      · exact publish_keeps w key _ _
  | close key origin =>
      have hother : a ≠ .timers key := by
        rintro rfl
        cases ha
      exact (Keeps.retime hother _).trans (publish_keeps _ key _ _)
  | lastFlush key => exact flushEdits_keeps w key
  | finish key origin => exact finishRun_keeps w key origin

end Task

open Machine

namespace Machine.Interrupts

variable {m m' : Machine}

theorem clock (hinterrupts : Interrupts m m') : m'.world.clock = m.world.clock := by
  cases hinterrupts <;> rfl

theorem keeps (hinterrupts : Interrupts m m') (a : Aspect) : m.world.Keeps a m'.world := by
  have hsame := hinterrupts.same
  cases a with
  | members name => exact hsame.members name
  | numbers name => exact hsame.nextId name
  | fetches => exact hsame.fetches
  | stopping name => exact Nat.le_of_eq (hsame.stopping name)
  | queue key =>
      simp only [World.Keeps, hsame.host]
      exact fun halive => ⟨halive, List.prefix_rfl⟩
  | clock => exact Nat.le_of_eq hinterrupts.clock.symm
  | script key | alive key | users key | cut key | timers key =>
      simp only [World.Keeps, hsame.host]

end Machine.Interrupts

namespace Machine

variable {m m' : Machine}

/-- A step keeps every aspect, or it is that of a task. -/
theorem Next.keeps_or_steps (hnext : m.Next m') :
    (∀ a, m.world.Keeps a m'.world) ∨ ∃ t rest, m.agenda = t :: rest ∧ m' = m.step := by
  cases hnext with
  | interrupt hinterrupts => exact .inl hinterrupts.keeps
  | step =>
      cases hagenda : m.agenda with
      | nil =>
          left
          rw [step_nil hagenda]
          exact fun _ => .refl _
      | cons t rest => exact .inr ⟨t, rest, rfl, rfl⟩

/-- A step keeps an aspect, or it is that of a task that may touch it. -/
theorem Next.keeps (hnext : m.Next m') (hsound : m.Sound) (a : Aspect) :
    m.world.Keeps a m'.world ∨
      ∃ t rest, m.agenda = t :: rest ∧ m' = m.step ∧ t.touches m.world a = true := by
  rcases hnext.keeps_or_steps with hkeeps | ⟨t, rest, hagenda, hstep⟩
  · exact .inl (hkeeps a)
  · cases htouches : t.touches m.world a with
    | true => exact .inr ⟨t, rest, hagenda, hstep, htouches⟩
    | false =>
        left
        rw [hstep, step_world hagenda]
        exact Task.react_keeps _ _ hsound.linked htouches

end Machine

namespace Behavior

variable {σ : Nat → Machine} (hσ : Behavior σ)

include hσ

/-- A moment keeps every aspect, or it is the step of a task. -/
theorem cases (n : Nat) :
    (∀ a, (σ n).world.Keeps a (σ (n + 1)).world) ∨ ∃ t rest, Executes σ n t rest := by
  rcases (hσ.next n).keeps_or_steps with hkeeps | ⟨t, rest, hagenda, hstep⟩
  · exact .inl hkeeps
  · exact .inr ⟨t, rest, hagenda, hstep⟩

/-- A moment keeps an aspect, or it is the step of a task that may touch it. -/
theorem keeps (a : Aspect) (n : Nat) :
    (σ n).world.Keeps a (σ (n + 1)).world ∨
      ∃ t rest, Executes σ n t rest ∧ t.touches (σ n).world a = true := by
  rcases (hσ.next n).keeps (hσ.sound n) a with hkeeps | ⟨t, rest, hagenda, hstep, htouches⟩
  · exact .inl hkeeps
  · exact .inr ⟨t, rest, ⟨hagenda, hstep⟩, htouches⟩

end Behavior

end TickHost
