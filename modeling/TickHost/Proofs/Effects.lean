import TickHost.Proofs.Roster

/-!
What one task does to the world. The tasks of evaluations and runs each set one host in a way of
their own. Every other task has an `Effect` and no more: moves, curbs, one new host, or a crash.
-/

namespace TickHost

namespace World

open Relation

/-- What a task that belongs to no evaluation and no run does to the world. It may be one that
fetches, and it may be one that deals with jobs. -/
inductive Effect (fetching waiting : Bool) (w : World) : World → Prop where
  | moves {w' : World} (hmoves : Moves fetching w w') : Effect fetching waiting w w'
  | lapses {w' : World} (hlapses : w.Lapses w') : Effect fetching waiting w w'
  | waits {w' : World} (hwaiting : waiting = true) (hcurbs : w.Curbs w') :
      Effect fetching waiting w w'
  /-- A host is built, and the one that had its name so far may perish. -/
  | builds (plan : HostPlan) (api : List Action) (bus : Nat) {w' lapsed w'' : World}
      (hties : w'.ties = (w.enrol plan api bus).ties) (hlog : w'.fetchLog = w.fetchLog)
      (hlapses : w'.Lapses lapsed)
      (hnamed : w''.ties =
        { lapsed with names := lapsed.names.put plan.name w.hosts.fresh }.ties)
      (hnamedLog : w''.fetchLog = lapsed.fetchLog) : Effect fetching waiting w w''
  | crash {w' : World} (hties : w'.ties = { w with crashed := true }.ties)
      (hlog : w'.fetchLog = w.fetchLog) : Effect fetching waiting w w'

/-- One host was set and nothing else changed that matters to other hosts. -/
structure Sets (w : World) (key : Nat) (h : Host) (w' : World) : Prop where
  ties : w'.ties = (w.setHost key h).ties
  fetchLog : w'.fetchLog = w.fetchLog

namespace Sets

variable {w w' w'' : World} {key : Nat} {h h' : Host}

theorem self (hkey : w.Has key) : w.Sets key (w.host key) w :=
  ⟨by rw [setHost_self hkey], rfl⟩

theorem setHost (w : World) (key : Nat) (h : Host) : w.Sets key h (w.setHost key h) :=
  ⟨rfl, rfl⟩

theorem host (hsets : w.Sets key h w') (other : Nat) :
    w'.host other = if key = other then h else w.host other := by
  rw [host_of_ties hsets.ties, host_setHost]

theorem host_self (hsets : w.Sets key h w') : w'.host key = h := by
  rw [hsets.host, if_pos rfl]

theorem host_ne (hsets : w.Sets key h w') {other : Nat} (hne : key ≠ other) :
    w'.host other = w.host other := by
  rw [hsets.host, if_neg hne]

theorem keys (hsets : w.Sets key h w') (hkey : w.Has key) : w'.hosts.keys = w.hosts.keys := by
  rw [hosts_of_ties hsets.ties]
  exact has_setHost hkey h

theorem registries (hsets : w.Sets key h w') : w'.registries = w.registries :=
  (registries_of_ties hsets.ties).trans rfl

theorem jobs (hsets : w.Sets key h w') : w'.jobs = w.jobs :=
  (jobs_of_ties hsets.ties).trans rfl

theorem trans (hsets : w.Sets key h w') (hsets' : w'.Sets key h' w'') : w.Sets key h' w'' := by
  refine ⟨?_, hsets'.fetchLog.trans hsets.fetchLog⟩
  rw [hsets'.ties, setHost_ties hsets.ties]
  exact setHost_setHost_ties w key h h'

theorem update (hsets : w.Sets key h w') (f : Host → Host) :
    w.Sets key (f h) (w'.updateHost key f) := by
  have hset : w'.Sets key (f (w'.host key)) (w'.updateHost key f) := .setHost w' key _
  rw [hsets.host_self] at hset
  exact hsets.trans hset

theorem note (hsets : w.Sets key h w') (entry : Entry) (hentry : entry.isFetch = false) :
    w.Sets key h (w'.note entry) :=
  ⟨hsets.ties, by simpa [World.fetchLog, World.note, hentry] using hsets.fetchLog⟩

theorem publish (hsets : w.Sets key h w') (hkey : w.Has key) (event : Event) (source : Source) :
    w.Sets key (h.announce w'.clock event source) (w'.publish key event source) := by
  have hpublish : w'.Sets key ((w'.host key).announce w'.clock event source)
      (w'.publish key event source) :=
    ⟨publish_ties (by rwa [Has, hsets.keys hkey]) event source, publish_fetchLog w' key _ _⟩
  rw [hsets.host_self] at hpublish
  exact hsets.trans hpublish

theorem linked (hsets : w.Sets key h w') (hkey : w.Has key) (hlinked : w.Linked) : w'.Linked := by
  have hhas : ∀ other, w.Has other → w'.Has other := by
    intro other hother
    rwa [Has, hsets.keys hkey]
  have hlength : w'.hosts.length = w.hosts.length := by
    simpa [Store.keys] using congrArg List.length (hsets.keys hkey)
  refine ⟨by rw [hsets.keys hkey, hlength, hlinked.keys], ?_, ?_, ?_, ?_⟩
  · rw [names_of_ties hsets.ties]
    exact fun name other hname => hhas other (hlinked.names name other hname)
  · rw [handles_of_ties hsets.ties]
    exact fun handle other hhandle => hhas other (hlinked.handles handle other hhandle)
  · rw [fetches_of_ties hsets.ties]
    exact fun f hf => hhas f.host (hlinked.fetches f hf)
  · rw [hsets.jobs]
    exact fun name job hjob => hhas job.host (hlinked.jobs name job hjob)

end Sets

/-! What holds across every effect. -/

namespace Effect

variable {fetching waiting : Bool} {w w' : World}

/-- Hosts only undergo acts, under the stopping flag that they had at first. -/
theorem acts (heffect : Effect fetching waiting w w') (hlinked : w.Linked) {key : Nat}
    (hkey : w.Has key) : (w.host key).Acts (w.isStopping key) (w'.host key) := by
  cases heffect with
  | moves hmoves => exact hmoves.acts key
  | lapses hlapses => exact hlapses.acts key _
  | waits _ hcurbs => exact hcurbs.acts key _
  | builds plan api bus hties _ hlapses hnamed _ =>
      have hold : (w.enrol plan api bus).host key = w.host key := by
        rw [enrol_host, if_neg]
        rintro rfl
        exact hlinked.fresh hkey
      rw [host_of_ties hnamed, ← hold, ← host_of_ties hties]
      exact hlapses.acts key _
  | crash hties _ => rw [host_of_ties hties]; exact .refl

/-- A host that appears is as it is built, or was given up since. -/
theorem fresh (heffect : Effect fetching waiting w w') {key : Nat} (hkey : ¬ w.Has key) :
    w'.host key = default ∨ ∃ plan api id bus, ∀ stopping,
      (Host.ofPlan plan api id bus).Acts stopping (w'.host key) := by
  have hdefault : ∀ w'' : World, w''.hosts.keys = w.hosts.keys → w''.host key = default :=
    fun w'' hkeys => Store.get_of_not_mem _ _ fun hmem => hkey (by rwa [Has, ← hkeys])
  cases heffect with
  | moves hmoves => exact .inl (hdefault w' hmoves.keys)
  | lapses hlapses => exact .inl (hdefault w' hlapses.keys)
  | waits _ hcurbs => exact .inl (hdefault w' hcurbs.keys)
  | crash hties _ =>
      refine .inl (hdefault w' ?_)
      rw [hosts_of_ties hties]
  | @builds plan api bus built lapsed w' hties _ hlapses hnamed _ =>
      have hhost : built.host key = if w.hosts.fresh = key then
          .ofPlan plan api (w.registry plan.registry).nextId bus else w.host key := by
        rw [host_of_ties hties, enrol_host]
      have hacts := fun stopping => hlapses.acts key stopping
      rw [hhost] at hacts
      rw [host_of_ties hnamed]
      split at hacts
      · exact .inr ⟨plan, api, _, bus, hacts⟩
      · rename_i hne
        refine .inl (Store.get_of_not_mem _ _ fun hmem => hkey ?_)
        have hbuilt : key ∈ built.hosts.keys := by
          rw [← hlapses.keys]
          exact hmem
        rw [hosts_of_ties hties] at hbuilt
        show key ∈ Store.keys w.hosts
        have hput : key ∈ Store.keys (w.hosts.put w.hosts.fresh
            (.ofPlan plan api (w.registry plan.registry).nextId bus)) := hbuilt
        rw [Store.keys_put] at hput
        split at hput
        · exact hput
        · rcases List.mem_append.mp hput with hput | hput
          · exact hput
          · exact absurd (List.mem_singleton.mp hput).symm hne

theorem has (heffect : Effect fetching waiting w w') (hlinked : w.Linked) {key : Nat}
    (hkey : w.Has key) : w'.Has key := by
  cases heffect with
  | moves hmoves => exact hmoves.has hkey
  | lapses hlapses => exact hlapses.toCurbs.has hkey
  | waits _ hcurbs => exact hcurbs.has hkey
  | builds plan api bus hties _ hlapses hnamed _ =>
      have henrolled : (w.enrol plan api bus).Has key := by
        rw [Has, enrol_keys plan api bus hlinked]
        exact List.mem_append_left _ hkey
      have hlapsed := hlapses.toCurbs.has ((has_of_ties hties key).mpr henrolled)
      exact (has_of_ties hnamed key).mpr hlapsed
  | crash hties _ =>
      exact (has_of_ties hties key).mpr hkey

theorem linked (heffect : Effect fetching waiting w w') (hlinked : w.Linked) : w'.Linked := by
  cases heffect with
  | moves hmoves => exact hmoves.linked hlinked
  | lapses hlapses => exact hlapses.toCurbs.linked hlinked
  | waits _ hcurbs => exact hcurbs.linked hlinked
  | @builds plan api bus built lapsed w' hties _ hlapses hnamed _ =>
      have hbuilt := hlapses.toCurbs.linked (.of_ties hties (enrol_linked plan api bus hlinked))
      refine .of_ties hnamed ⟨hbuilt.keys, fun name key hname => ?_, hbuilt.handles,
        hbuilt.fetches, hbuilt.jobs⟩
      rw [Table.get?_put] at hname
      split at hname
      · cases hname
        show _ ∈ lapsed.hosts.keys
        rw [hlapses.keys, hosts_of_ties hties, enrol_keys plan api bus hlinked]
        exact List.mem_append_right _ (List.mem_singleton.mpr rfl)
      · exact hbuilt.names name key hname
  | crash hties _ =>
      exact .of_ties hties
        ⟨hlinked.keys, hlinked.names, hlinked.handles, hlinked.fetches, hlinked.jobs⟩

theorem roster (heffect : Effect fetching waiting w w') (hlinked : w.Linked)
    (hroster : w.Roster) : w'.Roster := by
  cases heffect with
  | moves hmoves => exact hmoves.roster hroster
  | lapses hlapses => exact hlapses.toCurbs.roster hroster
  | waits _ hcurbs => exact hcurbs.roster hroster
  | builds plan api bus hties _ hlapses hnamed _ =>
      have hbuilt := hlapses.toCurbs.roster
        (.of_ties hties (enrol_roster plan api bus hlinked hroster))
      exact .of_ties hnamed ⟨hbuilt.members, hbuilt.numbers, hbuilt.unique⟩
  | crash hties _ =>
      exact .of_ties hties ⟨hroster.members, hroster.numbers, hroster.unique⟩

/-- Members of registries were members before or were built just now. -/
theorem members (heffect : Effect fetching waiting w w') {name : String} {id key : Nat}
    (hmember : (id, key) ∈ (w'.registry name).members) (hkey : w.Has key) (hlinked : w.Linked) :
    (id, key) ∈ (w.registry name).members := by
  cases heffect with
  | moves hmoves => rwa [registry, ← hmoves.registries]
  | lapses hlapses => exact (hlapses.members name).subset hmember
  | waits _ hcurbs => exact (hcurbs.members name).subset hmember
  | @builds plan api bus built lapsed w' hties _ hlapses hnamed _ =>
      rw [registry_of_ties hnamed] at hmember
      have hbuilt := (hlapses.members name).subset hmember
      rw [registry_of_ties hties, enrol_registry] at hbuilt
      split at hbuilt
      · rcases List.mem_append.mp hbuilt with hbuilt | hbuilt
        · exact hbuilt
        · cases List.mem_singleton.mp hbuilt
          exact absurd hkey hlinked.fresh
      · exact hbuilt
  | crash hties _ => rwa [registry_of_ties hties] at hmember

/-- A host that was not there before was built, and comes last. -/
theorem founded (heffect : Effect fetching waiting w w') (hlinked : w.Linked) {key : Nat}
    (hnew : ¬ w.Has key) (hkey : w'.Has key) : key = w.hosts.fresh ∧
      ∃ (plan : HostPlan) (api : List Action) (bus : Nat) (built lapsed : World),
        built.ties = (w.enrol plan api bus).ties ∧ built.Lapses lapsed ∧
          w'.ties = { lapsed with names := lapsed.names.put plan.name w.hosts.fresh }.ties := by
  have hold : w'.hosts.keys = w.hosts.keys → False := by
    intro hkeys
    rw [Has, hkeys] at hkey
    exact hnew hkey
  cases heffect with
  | moves hmoves => exact (hold hmoves.keys).elim
  | lapses hlapses => exact (hold hlapses.keys).elim
  | waits _ hcurbs => exact (hold hcurbs.keys).elim
  | crash hties _ =>
      have hhosts := hosts_of_ties hties
      exact (hold (congrArg Store.keys hhosts)).elim
  | @builds plan api bus built lapsed w' hties _ hlapses hnamed _ =>
      refine ⟨?_, plan, api, bus, built, lapsed, hties, hlapses, hnamed⟩
      rw [has_of_ties hnamed] at hkey
      have hmem : key ∈ lapsed.hosts.keys := hkey
      rw [hlapses.keys, hosts_of_ties hties, enrol_keys plan api bus hlinked] at hmem
      rcases List.mem_append.mp hmem with hmem | hmem
      · exact absurd hmem hnew
      · exact List.mem_singleton.mp hmem

/-- A host that was built just now is a member of its registry, unless it has perished already. -/
theorem enrolled (heffect : Effect fetching waiting w w') (hlinked : w.Linked)
    (hroster : w.Roster) {key : Nat} (hnew : ¬ w.Has key) (hkey : w'.Has key)
    (halive : (w'.host key).alive = true) :
    ∃ id, (id, key) ∈ (w'.registry (w'.host key).registry).members := by
  obtain ⟨rfl, plan, api, bus, built, lapsed, hties, hlapses, hnamed⟩ :=
    heffect.founded hlinked hnew hkey
  have hhost : w'.host w.hosts.fresh = lapsed.host w.hosts.fresh := host_of_ties hnamed _
  have hregistry : (w'.host w.hosts.fresh).registry = plan.registry := by
    rw [hhost, (hlapses.acts _ true).works.registry, host_of_ties hties, enrol_host, if_pos rfl]
    rfl
  refine ⟨(w.registry plan.registry).nextId, ?_⟩
  rw [hregistry, registry_of_ties hnamed]
  refine hlapses.kept (.of_ties hties (enrol_roster plan api bus hlinked hroster)) _ _ _ ?_
    (by rwa [← hhost])
  rw [registry_of_ties hties, enrol_registry, if_pos rfl]
  exact List.mem_append_right _ (List.mem_singleton.mpr rfl)

/-- A host that was built just now got the next number of its registry. -/
theorem newcomer (heffect : Effect fetching waiting w w') (hlinked : w.Linked) {key : Nat}
    (hnew : ¬ w.Has key) (hkey : w'.Has key) :
    ∃ name, (w'.registry name).nextId ≠ (w.registry name).nextId ∧ key = w.hosts.fresh := by
  obtain ⟨hlast, plan, api, bus, built, lapsed, hties, hlapses, hnamed⟩ :=
    heffect.founded hlinked hnew hkey
  refine ⟨plan.registry, ?_, hlast⟩
  rw [registry_of_ties hnamed]
  show (lapsed.registry plan.registry).nextId ≠ _
  rw [hlapses.nextId, registry_of_ties hties, enrol_registry, if_pos rfl]
  exact Nat.succ_ne_self _

/-- Only what deals with jobs takes living hosts off a registry. -/
theorem kept (heffect : Effect fetching false w w') (hlinked : w.Linked) (hroster : w.Roster)
    {name : String} {id key : Nat} (hmember : (id, key) ∈ (w.registry name).members)
    (halive : (w'.host key).alive = true) : (id, key) ∈ (w'.registry name).members := by
  cases heffect with
  | moves hmoves => rwa [registry, hmoves.registries]
  | lapses hlapses => exact hlapses.kept hroster name id key hmember halive
  | waits hwaiting _ => cases hwaiting
  | @builds plan api bus built lapsed w' hties _ hlapses hnamed _ =>
      rw [registry_of_ties hnamed]
      refine hlapses.kept (.of_ties hties (enrol_roster plan api bus hlinked hroster)) name id key
        ?_ (by rwa [host_of_ties hnamed] at halive)
      rw [registry_of_ties hties, enrol_registry]
      split
      · exact List.mem_append_left _ hmember
      · exact hmember
  | crash hties _ => rwa [registry_of_ties hties]

/-- Only what deals with jobs touches jobs and begins or ends the stopping. -/
theorem untouched (heffect : Effect fetching false w w') :
    w'.jobs = w.jobs ∧ ∀ name, (w'.registry name).stopping = (w.registry name).stopping := by
  cases heffect with
  | moves hmoves => exact ⟨hmoves.jobs, fun name => by rw [registry, hmoves.registries, registry]⟩
  | lapses hlapses => exact ⟨hlapses.sameJobs, hlapses.stopping⟩
  | waits hwaiting _ => cases hwaiting
  | builds plan api bus hties _ hlapses hnamed _ =>
      refine ⟨?_, fun name => ?_⟩
      · exact (jobs_of_ties hnamed).trans (hlapses.sameJobs.trans
          ((jobs_of_ties hties).trans rfl))
      · rw [registry_of_ties hnamed]
        apply (hlapses.stopping name).trans
        rw [registry_of_ties hties, enrol_registry]
        split <;> rfl
  | crash hties _ =>
      exact ⟨(jobs_of_ties hties).trans rfl, fun name => by rw [registry_of_ties hties]; rfl⟩

/-- What fetches nothing leaves no trace of a fetch. -/
theorem unfetched (heffect : Effect false waiting w w') :
    w'.fetchLog = w.fetchLog ∧ w'.fetches.Sublist w.fetches := by
  have hsame : ∀ {f f' : List KeptFetch}, f' = f → f'.Sublist f := fun h => h ▸ .refl _
  cases heffect with
  | moves hmoves => exact hmoves.unfetched
  | lapses hlapses => exact ⟨hlapses.fetchLog, hsame hlapses.fetches⟩
  | waits _ hcurbs => exact ⟨hcurbs.fetchLog, hsame hcurbs.fetches⟩
  | builds plan api bus hties hlog hlapses hnamed hnamedLog =>
      refine ⟨hnamedLog.trans (hlapses.fetchLog.trans hlog), hsame ?_⟩
      exact (fetches_of_ties hnamed).trans
        (hlapses.fetches.trans ((fetches_of_ties hties).trans rfl))
  | crash hties hlog => exact ⟨hlog, hsame ((fetches_of_ties hties).trans rfl)⟩

end Effect

/-! Effects of single operations. -/

variable {fetching waiting : Bool} {w w' : World}

theorem Effect.note (heffect : Effect fetching waiting w w') (entry : Entry)
    (hentry : entry.isFetch = false) : Effect fetching waiting w (w'.note entry) := by
  cases heffect with
  | moves hmoves => exact .moves (hmoves.trans (note_moves w' entry (.inr hentry)))
  | lapses hlapses => exact .lapses (hlapses.note entry hentry)
  | waits hwaiting hcurbs => exact .waits hwaiting (hcurbs.note entry hentry)
  | builds plan api bus hties hlog hlapses hnamed hnamedLog =>
      refine .builds plan api bus hties hlog hlapses hnamed ?_
      simpa [fetchLog, World.note, hentry] using hnamedLog
  | crash hties hlog =>
      refine .crash hties ?_
      simpa [fetchLog, World.note, hentry] using hlog

theorem build_effect (w : World) (plan : HostPlan) (api : List Action) :
    Effect fetching waiting w (w.build plan api).1 := by
  rcases build_cases w plan api with hcrash | ⟨bus, entered, hties, hjournal, -, hbuild⟩
  · rw [hcrash]
    exact .crash rfl rfl
  · have hlog : entered.fetchLog = w.fetchLog := by rw [fetchLog, fetchLog, hjournal]
    rw [hbuild]
    exact .builds plan api bus hties hlog (unname_lapses entered plan.name) rfl rfl

end World

/-- What deals with jobs: stop-all calls and waiting. -/
def WorldDeed.waits : WorldDeed → Bool
  | stopAll _ _ | waitDone _ _ | waitEvaluations _ _ | poll _ | dropJob _ => true
  | _ => false

namespace World

variable {fetching : Bool} {w : World}

/-- What concerns no single host. -/
theorem doDeed_effect (hlinked : w.Linked) (deed : WorldDeed) :
    Effect fetching deed.waits w (w.doDeed deed).1 := by
  cases deed with
  | openBus name capacity =>
      unfold doDeed
      dsimp only
      split
      · exact .crash rfl rfl
      · exact .moves (.aside rfl (.inr rfl))
  | drain receiver => exact .moves (drain_moves w receiver)
  | unsubscribe _ | sleep _ | makeAvatar _ | dropAvatar _ | addPeer _ | removePeer _ =>
      exact .moves (.aside rfl (.inr rfl))
  | now | thread | registry _ | contains _ _ | spawn _ => exact .moves .refl
  | stopAll registry job => exact .waits rfl (stopAll_curbs w registry job)
  | waitDone handle job =>
      unfold doDeed
      dsimp only
      split
      · rename_i key hhandle
        have hkey : w.Has (Job.done key).host := hlinked.handles handle key hhandle
        exact .waits rfl (wait_curbs hkey job)
      · exact .moves .refl
  | waitEvaluations handle job =>
      unfold doDeed
      dsimp only
      split
      · rename_i key hhandle
        have hkey : w.Has (Job.evaluations key).host := hlinked.handles handle key hhandle
        exact .waits rfl (wait_curbs hkey job)
      · exact .moves .refl
  | poll job => exact .waits rfl (poll_curbs hlinked job)
  | dropJob job => exact .waits rfl (dropJob_curbs w job)
  | complete index => exact .moves (complete_moves hlinked index)
  | forget index => exact .moves (forget_moves w index)
  | dropHost name =>
      unfold doDeed
      dsimp only
      split
      · exact .lapses (unname_lapses w name)
      · exact .moves .refl
  | dropHandle handle => exact .moves (.single (.revoke handle))

end World

namespace Task

open World

/-- The owner of a host loads another text. -/
def loadsUrl : Task → Bool
  | perform _ (.onHost _ (.loadUrl _) :: _) => true
  | _ => false

/-- The host on whose behalf code is about to do something. -/
def actor? (w : World) : Task → Option Nat
  | perform _ (.inScript (some name) _ :: _) => w.names.get? name
  | perform scope (.inScript none _ :: _) => scope.host
  | directives key _ _ | call key _ _ => some key
  | _ => none

/-- Whether a task may fetch: as a load of an owner, or as an include of a host that is not
being stopped. -/
def fetches (w : World) (t : Task) : Bool :=
  t.loadsUrl || (t.actor? w).any fun key => !w.isStopping key

/-- Whether a task deals with jobs. -/
def waits : Task → Bool
  | perform _ (.onWorld deed :: _) => deed.waits
  | _ => false

/-- The host that a task is about. -/
def host? : Task → Option Nat
  | perform scope _ => scope.host
  | answer _ _ | answerRun _ | answerOutcome _ | leaveThread _ | give _ => none
  | release key | evaluate key _ _ _ | engine key _ _ _ | announce key | initialise key
  | report key | directives key _ _ | batch key _ _ | call key _ _ | notify key _ _ | beginRun key
  | confirmRun key | startTicking key _ | awaitTick key _ | pump key _ | drain key | fire key _ _
  | flush key _ | stream key _ | update key _ | close key _ | lastFlush key | finish key _ =>
    some key

/-- Tasks that are no part of the frame of an evaluation or a run. -/
def isPlain : Task → Bool
  | engine _ _ _ _ | announce _ | beginRun _ | confirmRun _ | startTicking _ _ | awaitTick _ _
  | pump _ _ | flush _ _ | stream _ _ | update _ _ | close _ _ | lastFlush _ | finish _ _ => false
  | _ => true

/-- All hosts that tasks are about were built. -/
def KeysIn (w : World) (tasks : List Task) : Prop :=
  ∀ t ∈ tasks, ∀ key, t.host? = some key → w.Has key

theorem KeysIn.nil {w : World} : KeysIn w [] := by
  simp [KeysIn]

/-- Tasks about one host. -/
theorem KeysIn.of_host {w : World} {key : Nat} {tasks : List Task} (hkey : w.Has key)
    (htasks : ∀ t ∈ tasks, t.host? = some key ∨ t.host? = none) : KeysIn w tasks := by
  intro t ht other hother
  rcases htasks t ht with h | h
  · rw [h] at hother
    cases hother
    exact hkey
  · rw [h] at hother
    cases hother

theorem KeysIn.append {w : World} {tasks after : List Task} (htasks : KeysIn w tasks)
    (hafter : KeysIn w after) : KeysIn w (tasks ++ after) := by
  intro t ht
  exact (List.mem_append.mp ht).elim (htasks t) (hafter t)

/-- What a task may put on the agenda without evaluating or ticking: plain tasks, or a new run of
a host that is not running. -/
inductive Follows (w : World) : List Task → Prop where
  | plain {next : List Task} (hplain : next.all isPlain = true)
      (hkeys : KeysIn w next) : Follows w next
  | run (key : Nat) (after : List Task) (hkey : w.Has key)
      (hidle : (w.host key).running = false) (hplain : after.all isPlain = true)
      (hkeys : KeysIn w after) :
      Follows w (initialise key :: beginRun key :: after)

variable {w : World}

theorem Follows.append {next after : List Task} (hfollows : Follows w next)
    (hplain : after.all isPlain = true) (hkeys : KeysIn w after) : Follows w (next ++ after) := by
  cases hfollows with
  | plain hnext hnextKeys =>
      exact .plain (by simp only [List.all_append, hnext, hplain, Bool.and_self])
        (hnextKeys.append hkeys)
  | run key rest hkey hidle hrest hrestKeys =>
      exact .run key (rest ++ after) hkey hidle
        (by simp only [List.all_append, hrest, hplain, Bool.and_self]) (hrestKeys.append hkeys)

theorem Follows.nil : Follows w [] :=
  .plain rfl .nil

end Task

end TickHost
