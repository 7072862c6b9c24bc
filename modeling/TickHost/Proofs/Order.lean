import TickHost.Proofs.Visits

/-!
The order that stop-all calls keep. In every state of every behavior the calls that are under way
are counted by their registries and fit the world, whatever hosts and their scripts do, and
however the calls overlap.
-/

namespace TickHost

open World

namespace World

/-- The calls among the jobs fit the world, and registries count them. -/
structure Orderly (w : World) (entering : Option Nat) : Prop where
  tally : w.Tally []
  fits : ∀ job call, w.jobs.get? job = some (.stopAll call) → call.Fits w entering

variable {w w' : World} {name : String}

/-- A member of the registry that a call stops cannot begin a run. -/
theorem Orderly.isStopping {entering : Option Nat} (h : w.Orderly entering) {job : String}
    {call : StopAll} (hjob : w.jobs.get? job = some (.stopAll call)) {key : Nat}
    (hregistry : (w.host key).registry = call.registry) : w.isStopping key = true := by
  rw [World.isStopping, hregistry]
  exact h.tally.isStopping hjob

theorem Orderly.curbs {entering : Option Nat} (h : w.Orderly entering) (hcurbs : w.Curbs w')
    (hjobs : w'.jobs = w.jobs)
    (hstopping : ∀ name, (w'.registry name).stopping = (w.registry name).stopping) :
    w'.Orderly entering where
  tally := h.tally.of hjobs hstopping
  fits job call hjob := (h.fits job call (hjobs ▸ hjob)).curbs hcurbs

theorem Orderly.mono (h : w.Orderly none) (entering : Option Nat) : w.Orderly entering where
  tally := h.tally
  fits job call hjob := by
    have hfits := h.fits job call hjob
    refine ⟨hfits.has, hfits.own, hfits.listed, fun id key hmem halive hrunning => ?_⟩
    rcases hfits.covers id key hmem halive hrunning with hhost | hrest | hnone
    · exact .inl hhost
    · exact .inr (.inl hrest)
    · cases hnone

theorem dropJob_orderly (h : w.Orderly none) (name : String) :
    (w.dropJob name).1.Orderly none where
  tally := dropJob_tally h.tally name
  fits job call hjob := by
    refine StopAll.Fits.curbs ?_ (dropJob_curbs w name)
    unfold dropJob at hjob
    split at hjob
    · exact h.fits job call hjob
    · rw [abandon_jobs, Table.get?_erase] at hjob
      split at hjob
      · cases hjob
      · exact h.fits job call hjob

theorem keep_fits {kept : Job} (hkey : w.Has kept.host)
    (hfits : ∀ job call, w.jobs.get? job = some (.stopAll call) → call.Fits w none)
    (hkept : ∀ call, kept = .stopAll call → call.Fits w none) (name : String) :
    ∀ job call, (w.keep name kept).1.jobs.get? job = some (.stopAll call) →
      call.Fits (w.keep name kept).1 none := by
  intro job call hjob
  refine StopAll.Fits.curbs ?_ (keep_curbs hkey name)
  rw [keep_get?] at hjob
  split at hjob
  · cases hjob
    exact hkept call rfl
  · exact hfits job call hjob

theorem keepCall_fits {left : Option StopAll × World}
    (hfits : ∀ job call, left.2.jobs.get? job = some (.stopAll call) → call.Fits left.2 none)
    (hleft : ∀ call, left.1 = some call → call.Fits left.2 none) (name : String) :
    ∀ job call, (keepCall name left).1.jobs.get? job = some (.stopAll call) →
      call.Fits (keepCall name left).1 none := by
  obtain ⟨_ | call, w'⟩ := left
  · exact hfits
  · refine keep_fits (hleft call rfl).has hfits (fun other heq => ?_) name
    cases heq
    exact hleft call rfl

/-- A call that begins is counted before it visits anyone. -/
theorem begin_tally (h : w.Tally []) (registry : String) :
    (w.updateRegistry registry fun r => { r with stopping := r.stopping + 1 }).Tally
      [registry] := by
  refine ⟨h.nodup, fun other => ?_⟩
  have hcount := h.count other
  show _ = w.jobs.total (fun job => job.halts.count other) + _
  rw [registry_updateRegistry]
  split
  · rename_i heq
    subst heq
    simpa using hcount
  · rename_i hne
    simpa [hne, List.count_singleton] using hcount

theorem stopAll_orderly (h : w.Orderly none) (hsettled : w.Settled) (hroster : w.Roster)
    (registry name : String) : (w.stopAll registry name).1.Orderly none := by
  have hbegin : w.Curbs
      (w.updateRegistry registry fun r => { r with stopping := r.stopping + 1 }) :=
    .stopping w registry (· + 1)
  have hlists := (hbegin.roster hroster).lists registry
  refine ⟨keepCall_tally (visitAll_tally _ (begin_tally h.tally registry)) name,
    keepCall_fits (fun job call hjob => ?_)
    (fun call hcall => visitAll_fits (hbegin.settled hsettled) hlists hcall) name⟩
  rw [visitAll_jobs] at hjob
  exact ((h.fits job call hjob).curbs hbegin).curbs (visitAll_curbs registry _ _)

/-- A job that only waits is kept or ready. -/
theorem wait_orderly (h : w.Orderly none) {job : Job} (hjob : ∀ call, job ≠ .stopAll call)
    (hkey : w.Has job.host) (name : String) : (w.wait name job).1.Orderly none := by
  unfold wait
  split
  · exact h
  · have hhalts : job.halts = [] := by
      cases job with
      | stopAll call => exact absurd rfl (hjob call)
      | done _ | evaluations _ => rfl
    exact ⟨keep_tally _ (hhalts.symm ▸ h.tally) name,
      keep_fits hkey h.fits (fun call heq => absurd heq (hjob call)) name⟩

theorem poll_orderly (h : w.Orderly none) (hsettled : w.Settled) (hlinked : w.Linked)
    (name : String) : (w.poll name).1.Orderly none := by
  unfold poll
  split
  · exact h
  · rename_i job hjob
    have herase := eraseJob_curbs w name
    have htally := eraseJob_tally h.tally name hjob
    have hfits : ∀ other call, (w.jobs.erase name).get? other = some (.stopAll call) →
        call.Fits { w with jobs := w.jobs.erase name } none := by
      intro other call hother
      rw [Table.get?_erase] at hother
      split at hother
      · cases hother
      · exact (h.fits other call hother).curbs herase
    have hkey := herase.has (hlinked.jobs name job hjob)
    dsimp only
    split
    · rename_i call
      have hcall := (h.fits name call hjob).curbs herase
      refine ⟨keepCall_tally (resume_tally htally) name, keepCall_fits (fun other kept hother => ?_)
        (fun next hnext => resume_fits (herase.settled hsettled) hcall hnext) name⟩
      rw [resume_jobs] at hother
      exact (hfits other kept hother).curbs (resume_curbs hcall.has)
    · rename_i hplain
      have hhalts : job.halts = [] := by
        cases job with
        | stopAll call => exact absurd rfl (hplain call)
        | done _ | evaluations _ => rfl
      exact wait_orderly ⟨hhalts ▸ htally, hfits⟩ (fun call heq => hplain call heq) hkey name

/-- Whatever deals with jobs keeps the order. -/
theorem doDeed_orderly (h : w.Orderly none) (hsettled : w.Settled) (hlinked : w.Linked)
    (hroster : w.Roster) {deed : WorldDeed} (hwaits : deed.waits = true) :
    (w.doDeed deed).1.Orderly none := by
  cases deed with
  | stopAll registry job => exact stopAll_orderly h hsettled hroster registry job
  | poll job => exact poll_orderly h hsettled hlinked job
  | dropJob job => exact dropJob_orderly h job
  | waitDone handle job =>
      unfold doDeed
      dsimp only
      split
      · rename_i key hhandle
        have hkey : w.Has (Job.done key).host := hlinked.handles handle key hhandle
        exact wait_orderly h (by simp) hkey job
      · exact h
  | waitEvaluations handle job =>
      unfold doDeed
      dsimp only
      split
      · rename_i key hhandle
        have hkey : w.Has (Job.evaluations key).host := hlinked.handles handle key hhandle
        exact wait_orderly h (by simp) hkey job
      · exact h
  | _ => cases hwaits

end World

namespace Task

/-- An action that deals with jobs is done at once. -/
theorem react_deed (w : World) (o : Outcome) (scope : Scope) {deed : WorldDeed}
    (hwaits : deed.waits = true) (rest : List Action) :
    react w o (.perform scope (.onWorld deed :: rest)) =
      ⟨(w.doDeed deed).1.note (.answered deed.name (w.doDeed deed).2), o,
        [.perform scope rest]⟩ := by
  cases deed <;> first | rfl | cases hwaits

theorem deed_of_waits {t : Task} (hwaits : t.waits = true) :
    ∃ scope deed rest, t = .perform scope (.onWorld deed :: rest) ∧ deed.waits = true := by
  unfold waits at hwaits
  split at hwaits
  · exact ⟨_, _, _, rfl, hwaits⟩
  · cases hwaits

/-- The host whose run has just begun and comes to be confirmed. -/
def enters? : Task → Option Nat
  | confirmRun key => some key
  | _ => none

variable {w : World} {o : Outcome} {t : Task} (hlinked : w.Linked)
  (hkeys : ∀ key, t.host? = some key → w.Has key)

include hlinked hkeys

/-- Only what deals with jobs touches jobs and begins or ends the stopping. -/
theorem react_untouched (hwaits : t.waits = false) : (react w o t).world.jobs = w.jobs ∧
    ∀ name, ((react w o t).world.registry name).stopping = (w.registry name).stopping := by
  cases hsets : t.sets? with
  | none =>
      have heffect := react_effect (o := o) hlinked hkeys hsets
      rw [hwaits] at heffect
      exact heffect.untouched
  | some key =>
      obtain ⟨h, hset, -⟩ := react_sets (o := o) hsets (hkeys key (host?_of_sets? hsets))
      have hjobs := jobs_of_ties hset.ties
      exact ⟨hjobs, fun name => by rw [registry_of_ties hset.ties]; rfl⟩

/-- Members of registries were members before or were built just now. -/
theorem react_members {name : String} {id key : Nat}
    (hmem : (id, key) ∈ ((react w o t).world.registry name).members) (hkey : w.Has key) :
    (id, key) ∈ (w.registry name).members := by
  cases hsets : t.sets? with
  | none => exact (react_effect (o := o) hlinked hkeys hsets).members hmem hkey hlinked
  | some other =>
      obtain ⟨h, hset, -⟩ := react_sets (o := o) hsets (hkeys other (host?_of_sets? hsets))
      rwa [registry_of_ties hset.ties] at hmem

/-- Only what deals with jobs takes living hosts off a registry. -/
theorem react_kept (hroster : w.Roster) (hwaits : t.waits = false) {name : String} {id key : Nat}
    (hmem : (id, key) ∈ (w.registry name).members)
    (halive : ((react w o t).world.host key).alive = true) :
    (id, key) ∈ ((react w o t).world.registry name).members := by
  cases hsets : t.sets? with
  | none =>
      have heffect := react_effect (o := o) hlinked hkeys hsets
      rw [hwaits] at heffect
      exact heffect.kept hlinked hroster hmem halive
  | some other =>
      obtain ⟨h, hset, -⟩ := react_sets (o := o) hsets (hkeys other (host?_of_sets? hsets))
      rwa [registry_of_ties hset.ties]

/-- While everything is stopping nobody comes to run, but a run that was accepted before may begin
and is refused at once. -/
theorem react_ran {key : Nat} (hstopping : w.isStopping key = true)
    (hrunning : ((react w o t).world.host key).running = true) :
    t = .beginRun key ∨ (w.host key).running = true ∧ t ≠ .confirmRun key := by
  by_cases hruns : t.runs? = some key
  · have hkey := hkeys key (host?_of_sets? (sets?_of_runs? hruns))
    cases t with
    | beginRun k =>
        cases hruns
        exact .inl rfl
    | confirmRun k =>
        cases hruns
        rw [(confirmRun_sets_refused hstopping).host_self] at hrunning
        cases hrunning
    | finish k origin =>
        cases hruns
        rw [(finish_sets hkey origin).host_self] at hrunning
        cases hrunning
    | update k t =>
        cases hruns
        refine .inr ⟨?_, by simp⟩
        cases hfinished : (w.host key).finished with
        | true => rwa [update_idle t hfinished] at hrunning
        | false =>
            rw [(update_sets hkey t hfinished).host_self] at hrunning
            exact hrunning
    | close k origin =>
        cases hruns
        rw [(close_sets hkey origin).host_self] at hrunning
        exact .inr ⟨hrunning, by simp⟩
    | _ => cases hruns
  · rw [(react_running (o := o) hlinked hkeys hruns).1] at hrunning
    refine .inr ⟨hrunning, ?_⟩
    rintro rfl
    exact hruns rfl

end Task

namespace Machine

/-- The host whose run comes to be confirmed next. -/
def entering (m : Machine) : Option Nat :=
  m.agenda.head?.bind Task.enters?

theorem entering_of_agenda {m : Machine} {t : Task} {rest : List Task}
    (hagenda : m.agenda = t :: rest) : m.entering = t.enters? := by
  rw [entering, hagenda]
  rfl

theorem Sound.settled {m : Machine} (hsound : m.Sound) : m.world.Settled :=
  hsound.done

/-- A call that fits goes on fitting while the hosts of its registry are stopping. Only a host that
begins a run may come to run, and it is about to be refused. -/
theorem Sound.fits_step {m : Machine} (hsound : m.Sound) {t : Task} {rest : List Task}
    (hagenda : m.agenda = t :: rest) {call : StopAll}
    (hstopping : ∀ key, (m.world.host key).registry = call.registry →
      m.world.isStopping key = true) (hfits : call.Fits m.world m.entering) :
    call.Fits m.step.world m.step.entering := by
  have hkeys := hsound.head hagenda
  have hhas : ∀ key, m.world.Has key → (t.react m.world m.outcome).world.Has key :=
    fun key hkey => Task.react_has hsound.linked hkeys hkey
  have hidentity : ∀ key, m.world.Has key →
      ((t.react m.world m.outcome).world.host key).id = (m.world.host key).id ∧
        ((t.react m.world m.outcome).world.host key).registry = (m.world.host key).registry := by
    intro key hkey
    obtain ⟨hid, hregistry, -⟩ := Task.react_identity (o := m.outcome) hsound.linked hkeys hkey
    exact ⟨hid, hregistry⟩
  rw [step_world hagenda]
  refine ⟨hhas _ hfits.has, ?_, fun id key hmem => ?_, fun id key hmem halive hrunning => ?_⟩
  · rw [(hidentity _ hfits.has).2, hfits.own]
  · obtain ⟨hkey, hid, hlisted⟩ := hfits.listed id key hmem
    exact ⟨hhas key hkey, (hidentity key hkey).1.trans hid, (hidentity key hkey).2.trans hlisted⟩
  · by_cases hkey : m.world.Has key
    · have hmember := Task.react_members hsound.linked hkeys hmem hkey
      have hown := (hsound.roster.members call.registry id key hmember).2.2
      rcases Task.react_ran hsound.linked hkeys (hstopping key hown) hrunning with
        rfl | ⟨hran, hconfirm⟩
      · have hcrashed : m.step.world.crashed = false := by
          rw [step_world hagenda, crashed_of_ties Task.beginRun_sets.ties]
          exact hsound.uncrashed hagenda
        refine .inr (.inr ?_)
        rw [entering, step_agenda hagenda, hcrashed]
        rfl
      · have hliving := Task.react_alive hsound.linked hkeys hkey halive
        rcases hfits.covers id key hmember hliving hran with hhost | hrest | henters
        · exact .inl hhost
        · exact .inr (.inl hrest)
        · rw [entering_of_agenda hagenda] at henters
          cases t with
          | confirmRun k =>
              cases henters
              exact absurd rfl hconfirm
          | _ => cases henters
    · -- a host that was built just now does not run
      have hsets : t.sets? ≠ some key := fun hsets =>
        hkey (hkeys key (Task.host?_of_sets? hsets))
      rw [(Task.react_still hsound.linked hkeys hsets).1] at hrunning
      exact absurd (has_of_running hrunning) hkey

/-- A step keeps the order of the calls. -/
theorem Sound.orderly_step {m : Machine} (hsound : m.Sound)
    (horderly : m.world.Orderly m.entering) : m.step.world.Orderly m.step.entering := by
  cases hagenda : m.agenda with
  | nil => rwa [step_nil hagenda]
  | cons t rest =>
      have hkeys := hsound.head hagenda
      cases hwaits : t.waits with
      | true =>
          obtain ⟨scope, deed, actions, rfl, hdeed⟩ := Task.deed_of_waits hwaits
          have hbefore : m.world.Orderly none := by
            rw [entering_of_agenda hagenda] at horderly
            exact horderly
          have hafter := doDeed_orderly hbefore hsound.settled hsound.linked hsound.roster hdeed
          rw [step_world hagenda, Task.react_deed _ _ _ hdeed]
          exact (hafter.mono _).curbs
            (.aside rfl (by simp [fetchLog, World.note, Entry.isFetch])) rfl fun name => rfl
      | false =>
          obtain ⟨hjobs, hstopping⟩ :=
            Task.react_untouched (o := m.outcome) hsound.linked hkeys hwaits
          rw [← step_world hagenda] at hjobs hstopping
          refine ⟨horderly.tally.of hjobs hstopping, fun job call hjob => ?_⟩
          rw [hjobs] at hjob
          exact hsound.fits_step hagenda (fun key => horderly.isStopping hjob)
            (horderly.fits job call hjob)

/-- Others keep the order of the calls: they get no turn before a run is confirmed. -/
theorem Interrupts.orderly {m m' : Machine} (hinterrupts : Interrupts m m')
    (horderly : m.world.Orderly m.entering) : m'.world.Orderly m'.entering := by
  have hsame := hinterrupts.same
  have hentering : m'.entering = m.entering := by
    cases hinterrupts with
    | chooses scope actions chosen rest hagenda =>
        rw [entering_of_agenda rfl, entering_of_agenda hagenda]
        rfl
    | intrudes scope actions t rest hagenda hpauses _ =>
        rw [entering_of_agenda rfl, entering_of_agenda hagenda]
        cases t with
        | confirmRun _ => cases hpauses
        | _ => rfl
    | reorders => rfl
  rw [hentering]
  refine ⟨horderly.tally.of hsame.jobs hsame.stopping, fun job call hjob => ?_⟩
  rw [hsame.jobs] at hjob
  have hfits := horderly.fits job call hjob
  refine ⟨(hsame.has _).mpr hfits.has, ?_, fun id key hmem => ?_, fun id key hmem => ?_⟩
  · rw [hsame.host]
    exact hfits.own
  · rw [hsame.has, hsame.host]
    exact hfits.listed id key hmem
  · rw [hsame.host]
    exact hfits.covers id key ((hsame.members _).subset hmem)

theorem Next.orderly {m m' : Machine} (hnext : m.Next m') (hsound : m.Sound)
    (horderly : m.world.Orderly m.entering) : m'.world.Orderly m'.entering := by
  cases hnext with
  | step => exact hsound.orderly_step horderly
  | interrupt hinterrupts => exact hinterrupts.orderly horderly

end Machine

/-- In every state of every behavior the calls are in order. -/
theorem Behavior.orderly {σ : Nat → Machine} (hσ : Behavior σ) (n : Nat) :
    (σ n).world.Orderly (σ n).entering := by
  induction n with
  | zero =>
      obtain ⟨disk, remote, programs, functions, network, actions, hstart⟩ := hσ.starts
      rw [hstart]
      exact ⟨⟨List.nodup_nil, fun _ => rfl⟩, nofun⟩
  | succ n ih => exact (hσ.next n).orderly (hσ.sound n) ih

end TickHost
