import TickHost.Proofs.Reactions

/-!
What one task does to each host, whether the host is the one that the task is about or not. Only
the frame of a run begins and ends it; everything else is work, and work neither starts nor ends a
run, takes no stop request back, and brings nothing out of a host that is cut off.
-/

namespace TickHost

open World

/-- What the frame of a run does to its host in one task, once the run has begun. -/
inductive Host.Stride (stopping : Bool) (h : Host) : Host → Prop where
  | refuse (hstopping : stopping = true) : Stride stopping h h.endRun.markDone
  | confirm (time : Nat) (hopen : stopping = false) :
      Stride stopping h (h.announce time .runningStateChanged .host)
  | skip (hfinished : h.finished = true) : Stride stopping h h
  | update (time : Nat) (delta : Binary.Single) (hlive : h.finished = false) :
      Stride stopping h (h.announce time (.update delta) .host)
  | close (time : Nat) : Stride stopping h (h.closeRun time)
  | finish (time : Nat) (origin : String) : Stride stopping h (h.finishRun time origin)

/-- What a run leaves alone of its host. -/
theorem Host.Stride.kept {stopping : Bool} {h h' : Host} (hstride : h.Stride stopping h') :
    h'.id = h.id ∧ h'.registry = h.registry ∧ h'.queue = h.queue ∧ h'.alive = h.alive ∧
      h'.pending = h.pending := by
  cases hstride with
  | finish time origin =>
      obtain ⟨outlet, hfinish⟩ := h.finishRun_eq time origin
      rw [hfinish]
      exact ⟨rfl, rfl, rfl, rfl, rfl⟩
  | refuse _ | confirm _ _ | skip _ | update _ _ _ | close _ => exact ⟨rfl, rfl, rfl, rfl, rfl⟩

namespace Task

variable {w : World} {o : Outcome} {key : Nat}

/-- The run whose frame a task belongs to, for the tasks that change the flags or the events. -/
def runs? : Task → Option Nat
  | beginRun key | confirmRun key | update key _ | close key _ | finish key _ => some key
  | _ => none

/-- What a task of an evaluation or a run leaves alone. -/
theorem react_sets {t : Task} (hsets : t.sets? = some key) (hkey : w.Has key) :
    ∃ h, w.Sets key h (react w o t).world ∧ h.id = (w.host key).id ∧
      h.registry = (w.host key).registry ∧ h.alive = (w.host key).alive := by
  cases t with
  | engine _ program origin line =>
      cases hsets
      exact ⟨_, engine_sets program origin line, rfl, rfl, rfl⟩
  | announce _ =>
      cases hsets
      exact ⟨_, announce_sets hkey, by cases o <;> exact ⟨rfl, rfl, rfl⟩⟩
  | initialise _ =>
      cases hsets
      exact ⟨_, initialise_sets hkey, rfl, rfl, rfl⟩
  | beginRun _ =>
      cases hsets
      exact ⟨_, beginRun_sets, rfl, rfl, rfl⟩
  | confirmRun _ =>
      cases hsets
      cases hstopping : w.isStopping key with
      | true => exact ⟨_, confirmRun_sets_refused hstopping, rfl, rfl, rfl⟩
      | false => exact ⟨_, confirmRun_sets hkey hstopping, rfl, rfl, rfl⟩
  | update _ t =>
      cases hsets
      cases hfinished : (w.host key).finished with
      | true =>
          refine ⟨w.host key, ?_, rfl, rfl, rfl⟩
          rw [update_idle t hfinished]
          exact .self hkey
      | false => exact ⟨_, update_sets hkey t hfinished, rfl, rfl, rfl⟩
  | close _ origin =>
      cases hsets
      exact ⟨_, close_sets hkey origin, rfl, rfl, rfl⟩
  | finish _ origin =>
      cases hsets
      obtain ⟨outlet, hfinish⟩ := (w.host key).finishRun_eq w.clock origin
      exact ⟨_, finish_sets hkey origin, by rw [hfinish], by rw [hfinish], by rw [hfinish]⟩
  | perform _ _ | answer _ _ | answerRun _ | answerOutcome _ | release _ | leaveThread _
  | evaluate _ _ _ _ | report _ | directives _ _ _ | give _ | batch _ _ _ | call _ _ _
  | notify _ _ _ | startTicking _ _ | awaitTick _ _ | pump _ _ | drain _ | fire _ _ _ | flush _ _
  | stream _ _ | lastFlush _ => cases hsets

theorem host?_of_sets? {t : Task} (hsets : t.sets? = some key) : t.host? = some key := by
  cases t <;> first | exact hsets | cases hsets

theorem sets?_of_runs? {t : Task} (hruns : t.runs? = some key) : t.sets? = some key := by
  cases t <;> first | exact hruns | cases hruns

section React

variable {t : Task} (hlinked : w.Linked) (hkeys : ∀ key, t.host? = some key → w.Has key)

include hlinked hkeys

theorem react_has {other : Nat} (hother : w.Has other) : (react w o t).world.Has other := by
  cases hsets : t.sets? with
  | none => exact (react_effect hlinked hkeys hsets).has hlinked hother
  | some key =>
      have hkey := hkeys key (host?_of_sets? hsets)
      obtain ⟨h, hset, _⟩ := react_sets (o := o) hsets hkey
      rwa [Has, hset.keys hkey]

theorem react_linked : (react w o t).world.Linked := by
  cases hsets : t.sets? with
  | none => exact (react_effect hlinked hkeys hsets).linked hlinked
  | some key =>
      have hkey := hkeys key (host?_of_sets? hsets)
      obtain ⟨h, hset, _⟩ := react_sets (o := o) hsets hkey
      exact hset.linked hkey hlinked

theorem react_roster (hroster : w.Roster) : (react w o t).world.Roster := by
  cases hsets : t.sets? with
  | none => exact (react_effect hlinked hkeys hsets).roster hlinked hroster
  | some key =>
      have hkey := hkeys key (host?_of_sets? hsets)
      obtain ⟨h, hset, hid, hregistry, _⟩ := react_sets (o := o) hsets hkey
      refine hroster.of (hset.keys hkey) (fun other => ?_) (fun other => ?_)
        (fun name => ?_) fun name => ?_
      · rw [hset.host]
        split
        · rename_i heq
          subst heq
          exact hid
        · rfl
      · rw [hset.host]
        split
        · rename_i heq
          subst heq
          exact hregistry
        · rfl
      · rw [registry, hset.registries, registry]
        exact List.Subset.refl _
      · rw [registry, hset.registries, registry]

end React

/-! Hosts after a task. -/

section Hosts

variable {t : Task} (hlinked : w.Linked) (hkeys : ∀ key, t.host? = some key → w.Has key)

include hlinked hkeys

/-- What no evaluation and no run of a host does to it is acts. -/
theorem react_acts (hsets : t.sets? ≠ some key) (hkey : w.Has key) :
    (w.host key).Acts (w.isStopping key) ((react w o t).world.host key) := by
  cases hother : t.sets? with
  | none => exact (react_effect hlinked hkeys hother).acts hlinked hkey
  | some other =>
      obtain ⟨h, hset, _⟩ := react_sets (o := o) hother (hkeys other (host?_of_sets? hother))
      have hne : other ≠ key := by
        rintro rfl
        exact hsets hother
      rw [hset.host_ne hne]

/-- What no run of a host does to it is work. -/
theorem react_works (hruns : t.runs? ≠ some key) (hkey : w.Has key) :
    (w.host key).Works (w.isStopping key) ((react w o t).world.host key) := by
  by_cases hsets : t.sets? = some key
  · cases t with
    | engine _ program origin line =>
        cases hsets
        rw [(engine_sets program origin line).host_self]
        exact .single .enter
    | announce _ =>
        cases hsets
        rw [(announce_sets hkey).host_self]
        cases o with
        | returned v => exact (Relation.ReflTransGen.single .leave).tail (.conclude _ _ _)
        | faulted f =>
            exact ((Relation.ReflTransGen.single .leave).tail
              (.act (.publish _ _ _ rfl fun _ => rfl))).tail (.conclude _ _ _)
        | refused f => exact .single .leave
    | initialise _ =>
        cases hsets
        rw [(initialise_sets hkey).host_self]
        exact .single .initialise
    | beginRun _ | confirmRun _ | update _ _ | close _ _ | finish _ _ =>
        exact absurd hsets hruns
    | perform _ _ | answer _ _ | answerRun _ | answerOutcome _ | release _ | leaveThread _
    | evaluate _ _ _ _ | report _ | directives _ _ _ | give _ | batch _ _ _ | call _ _ _
    | notify _ _ _ | startTicking _ _ | awaitTick _ _ | pump _ _ | drain _ | fire _ _ _
    | flush _ _ | stream _ _ | lastFlush _ => cases hsets
  · exact (react_acts (o := o) hlinked hkeys hsets hkey).works

/-- A host that was not there before is as it is built, or was given up since. -/
theorem react_fresh (hkey : ¬ w.Has key) :
    (react w o t).world.host key = default ∨ ∃ plan api id bus, ∀ stopping,
      (Host.ofPlan plan api id bus).Acts stopping ((react w o t).world.host key) := by
  cases hother : t.sets? with
  | none => exact (react_effect hlinked hkeys hother).fresh hkey
  | some other =>
      have hhas := hkeys other (host?_of_sets? hother)
      obtain ⟨h, hset, _⟩ := react_sets (o := o) hother hhas
      have hne : other ≠ key := by
        rintro rfl
        exact hkey hhas
      rw [hset.host_ne hne]
      exact .inl (Store.get_of_not_mem _ _ hkey)

/-- Whether a host runs, is done, was set up and how many evaluations it has under way is up to
its own evaluations and runs. -/
theorem react_still (hsets : t.sets? ≠ some key) :
    ((react w o t).world.host key).running = (w.host key).running ∧
      ((react w o t).world.host key).done = (w.host key).done ∧
      ((react w o t).world.host key).pending = (w.host key).pending ∧
      ((react w o t).world.host key).initialized = (w.host key).initialized := by
  by_cases hkey : key ∈ w.hosts.keys
  · have hacts := react_acts (o := o) hlinked hkeys hsets hkey
    exact ⟨hacts.works.running, hacts.works.done, hacts.pending, hacts.initialized⟩
  · have hdefault : w.host key = default := Store.get_of_not_mem _ _ hkey
    rw [hdefault]
    rcases react_fresh (o := o) hlinked hkeys hkey with h | ⟨plan, api, id, bus, hacts⟩
    · rw [h]
      exact ⟨rfl, rfl, rfl, rfl⟩
    · have hacts := hacts true
      exact ⟨hacts.works.running, hacts.works.done, hacts.pending, hacts.initialized⟩

/-- Whether a host runs and whether it is done is up to its own runs. -/
theorem react_running (hruns : t.runs? ≠ some key) :
    ((react w o t).world.host key).running = (w.host key).running ∧
      ((react w o t).world.host key).done = (w.host key).done := by
  by_cases hkey : key ∈ w.hosts.keys
  · have hworks := react_works (o := o) hlinked hkeys hruns hkey
    exact ⟨hworks.running, hworks.done⟩
  · have hsets : t.sets? ≠ some key := fun hsets => hkey (hkeys key (host?_of_sets? hsets))
    obtain ⟨hrunning, hdone, _⟩ := react_still (o := o) hlinked hkeys hsets
    exact ⟨hrunning, hdone⟩

omit hlinked in
theorem react_stride (hruns : t.runs? = some key) (hbegin : t ≠ .beginRun key) :
    (w.host key).Stride (w.isStopping key) ((react w o t).world.host key) := by
  have hkey := hkeys key (host?_of_sets? (sets?_of_runs? hruns))
  cases t with
  | beginRun _ =>
      cases hruns
      exact absurd rfl hbegin
  | confirmRun _ =>
      cases hruns
      cases hstopping : w.isStopping key with
      | true =>
          rw [(confirmRun_sets_refused hstopping).host_self]
          exact .refuse rfl
      | false =>
          rw [(confirmRun_sets hkey hstopping).host_self]
          exact .confirm w.clock rfl
  | update _ t =>
      cases hruns
      cases hfinished : (w.host key).finished with
      | true =>
          rw [update_idle t hfinished]
          exact .skip hfinished
      | false =>
          rw [(update_sets hkey t hfinished).host_self]
          exact .update w.clock _ hfinished
  | close _ origin =>
      cases hruns
      rw [(close_sets hkey origin).host_self]
      exact .close w.clock
  | finish _ origin =>
      cases hruns
      rw [(finish_sets hkey origin).host_self]
      exact .finish w.clock origin
  | perform _ _ | answer _ _ | answerRun _ | answerOutcome _ | release _ | leaveThread _
  | evaluate _ _ _ _ | report _ | directives _ _ _ | give _ | batch _ _ _ | call _ _ _
  | notify _ _ _ | startTicking _ _ | awaitTick _ _ | pump _ _ | drain _ | fire _ _ _
  | flush _ _ | stream _ _ | lastFlush _ | engine _ _ _ _ | announce _ | initialise _ =>
      cases hruns

/-- A task begins a run of a host, or goes on with one, or only works on the host. -/
theorem react_cases (hkey : w.Has key) :
    t = .beginRun key ∨
      (w.host key).Stride (w.isStopping key) ((react w o t).world.host key) ∨
      (w.host key).Works (w.isStopping key) ((react w o t).world.host key) := by
  by_cases hruns : t.runs? = some key
  · by_cases hbegin : t = .beginRun key
    · exact .inl hbegin
    · exact .inr (.inl (react_stride hkeys hruns hbegin))
  · exact .inr (.inr (react_works hlinked hkeys hruns hkey))

/-- A host is done exactly while it does not run. -/
theorem react_done (hdone : (w.host key).done = !(w.host key).running) :
    ((react w o t).world.host key).done = !((react w o t).world.host key).running := by
  by_cases hruns : t.runs? = some key
  · by_cases hbegin : t = .beginRun key
    · subst hbegin
      rw [beginRun_sets.host_self]
      rfl
    · have hstride := react_stride (o := o) hkeys hruns hbegin
      generalize (react w o t).world.host key = h at hstride
      cases hstride with
      | refuse _ | finish _ _ => rfl
      | confirm _ _ | skip _ | update _ _ _ | close _ => exact hdone
  · obtain ⟨hrunning, hsame⟩ := react_running (o := o) hlinked hkeys hruns
    rw [hrunning, hsame]
    exact hdone

/-- A host only adds to what it has said, nothing while it is cut off, and requests no script
while everything is stopping. -/
theorem react_utters (hkey : w.Has key) :
    (w.host key).Utters (w.isStopping key) ((react w o t).world.host key) := by
  rcases react_cases (o := o) hlinked hkeys hkey with rfl | hstride | hworks
  · rw [beginRun_sets.host_self]
    exact .silent rfl
  · generalize (react w o t).world.host key = h at hstride
    cases hstride with
    | refuse _ | skip _ => exact .silent rfl
    | confirm time _ => exact Host.announce_utters _ time _ _ fun _ => rfl
    | update time _ _ => exact Host.announce_utters _ time _ _ fun _ => rfl
    | close time => exact Host.announce_utters _ time _ _ fun _ => rfl
    | finish time origin =>
        have hfinished := Host.announce_utters (w.host key) time (.finished origin) .host
          fun _ : w.isStopping key = true => rfl
        apply hfinished.trans (by simp)
        have hchanged := Host.announce_utters
          ((w.host key).announce time (.finished origin) .host).endRun time .runningStateChanged
          .host fun _ : w.isStopping key = true => rfl
        apply hchanged.trans (by simp)
        exact Host.announce_utters _ time .doneRunning .host fun _ => rfl
  · exact hworks.utters

/-- A host that is cut off stays so until its next run begins. -/
theorem react_cut (hkey : w.Has key) (hbegin : t ≠ .beginRun key)
    (hcut : (w.host key).outlet.detached = true) :
    ((react w o t).world.host key).outlet.detached = true := by
  rcases react_cases (o := o) hlinked hkeys hkey with hbegins | hstride | hworks
  · exact absurd hbegins hbegin
  · generalize (react w o t).world.host key = h at hstride
    cases hstride with
    | refuse _ | skip _ => exact hcut
    | confirm _ _ | update _ _ _ => simpa using hcut
    | close _ => simpa [Host.closeRun] using hcut
    | finish _ _ => simpa [Host.finishRun, Host.endRun, Host.markDone] using hcut
  · exact hworks.detached hcut

/-- A stop request is kept until the next run begins. -/
theorem react_finished (hkey : w.Has key) (hbegin : t ≠ .beginRun key)
    (hfinished : (w.host key).finished = true) :
    ((react w o t).world.host key).finished = true := by
  rcases react_cases (o := o) hlinked hkeys hkey with hbegins | hstride | hworks
  · exact absurd hbegins hbegin
  · generalize (react w o t).world.host key = h at hstride
    cases hstride with
    | finish time origin =>
        obtain ⟨outlet, hfinish⟩ := (w.host key).finishRun_eq time origin
        rw [hfinish]
        exact hfinished
    | refuse _ | confirm _ _ | skip _ | update _ _ _ | close _ => exact hfinished
  · exact hworks.finished hfinished

/-- While everything is stopping or once a host has stopped, it gets no timer. -/
theorem react_timers (hkey : w.Has key)
    (hshut : w.isStopping key = true ∨ (w.host key).finished = true) :
    (w.host key).timers.NoneNew ((react w o t).world.host key).timers := by
  rcases react_cases (o := o) hlinked hkeys hkey with rfl | hstride | hworks
  · rw [beginRun_sets.host_self]
    exact .refl _
  · generalize (react w o t).world.host key = h at hstride
    cases hstride with
    | finish time origin =>
        obtain ⟨outlet, hfinish⟩ := (w.host key).finishRun_eq time origin
        rw [hfinish]
        exact .refl _
    | close _ => exact Timers.cancelAll_noneNew _
    | refuse _ | skip _ | confirm _ _ | update _ _ _ => exact .refl _
  · exact hworks.timers_noneNew hshut

theorem react_numbered (hkey : w.Has key) (hnumbered : (w.host key).outlet.Numbered) :
    ((react w o t).world.host key).outlet.Numbered := by
  rcases react_cases (o := o) hlinked hkeys hkey with rfl | hstride | hworks
  · rw [beginRun_sets.host_self]
    exact hnumbered
  · generalize (react w o t).world.host key = h at hstride
    cases hstride with
    | refuse _ | skip _ => exact hnumbered
    | confirm _ _ | update _ _ _ | close _ => exact hnumbered.publish _ _ _
    | finish _ _ => exact ((hnumbered.publish _ _ _).publish _ _ _).publish _ _ _
  · exact hworks.numbered hnumbered

theorem react_alive (hkey : w.Has key)
    (halive : ((react w o t).world.host key).alive = true) : (w.host key).alive = true := by
  rcases react_cases (o := o) hlinked hkeys hkey with rfl | hstride | hworks
  · rwa [beginRun_sets.host_self] at halive
  · rwa [hstride.kept.2.2.2.1] at halive
  · exact hworks.alive halive

/-- A host keeps its number, its registry and its queue. -/
theorem react_identity (hkey : w.Has key) :
    ((react w o t).world.host key).id = (w.host key).id ∧
      ((react w o t).world.host key).registry = (w.host key).registry ∧
      ((react w o t).world.host key).queue = (w.host key).queue := by
  rcases react_cases (o := o) hlinked hkeys hkey with rfl | hstride | hworks
  · rw [beginRun_sets.host_self]
    exact ⟨rfl, rfl, rfl⟩
  · obtain ⟨hid, hregistry, hqueue, -⟩ := hstride.kept
    exact ⟨hid, hregistry, hqueue⟩
  · exact ⟨hworks.id, hworks.registry, hworks.queue⟩

end Hosts

end Task

end TickHost
