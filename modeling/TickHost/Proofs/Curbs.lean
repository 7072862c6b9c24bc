import TickHost.Proofs.Moves

/-!
What giving hosts up and stopping them does to the world. A host that nobody holds perishes and
leaves its registry; a stop-all call cuts hosts off, asks them to stop and takes them off the
registry; jobs are kept, looked after and dropped. All of this only curbs hosts, whatever their
registries are doing, and registries only lose members.
-/

namespace TickHost.World

open Relation

@[simp]
theorem registry_updateRegistry (w : World) (name other : String) (f : Registry → Registry) :
    (w.updateRegistry name f).registry other =
      if name = other then f (w.registry name) else w.registry other := by
  by_cases h : name = other <;> simp [updateRegistry, registry, Table.get?_put, h]

@[simp]
theorem host_updateRegistry (w : World) (name : String) (f : Registry → Registry) (key : Nat) :
    (w.updateRegistry name f).host key = w.host key := rfl

@[simp]
theorem isShared_updateRegistry (w : World) (name : String) (f : Registry → Registry)
    (key : Nat) : (w.updateRegistry name f).isShared key = w.isShared key := rfl

/-- A host that does something was built. -/
theorem has_of_ne_default {w : World} {key : Nat} (h : w.host key ≠ default) : w.Has key := by
  by_cases hkey : key ∈ w.hosts.keys
  · exact hkey
  · exact absurd (Store.get_of_not_mem _ _ hkey) h

theorem has_of_running {w : World} {key : Nat} (h : (w.host key).running = true) : w.Has key :=
  has_of_ne_default fun hdefault => by
    rw [hdefault] at h
    cases h

theorem has_of_alive {w : World} {key : Nat} (h : (w.host key).alive = true) : w.Has key :=
  has_of_ne_default fun hdefault => by
    rw [hdefault] at h
    cases h

/-- From one world to the next hosts were only curbed and registries only lost members. -/
structure Curbs (w w' : World) : Prop where
  keys : w'.hosts.keys = w.hosts.keys
  acts : ∀ key stopping, (w.host key).Acts stopping (w'.host key)
  names : ∀ name key, w'.names.get? name = some key → w.names.get? name = some key
  handles : w'.handles = w.handles
  fetches : w'.fetches = w.fetches
  fetchLog : w'.fetchLog = w.fetchLog
  crashed : w'.crashed = w.crashed
  jobs : (∀ name job, w.jobs.get? name = some job → w.Has job.host) →
    ∀ name job, w'.jobs.get? name = some job → w'.Has job.host
  members : ∀ name, (w'.registry name).members.Sublist (w.registry name).members
  nextId : ∀ name, (w'.registry name).nextId = (w.registry name).nextId

namespace Curbs

variable {w w' w'' : World}

theorem refl (w : World) : w.Curbs w where
  keys := rfl
  acts _ _ := .refl
  names _ _ h := h
  handles := rfl
  fetches := rfl
  fetchLog := rfl
  crashed := rfl
  jobs h := h
  members _ := .refl _
  nextId _ := rfl

theorem trans (h : w.Curbs w') (h' : w'.Curbs w'') : w.Curbs w'' where
  keys := h'.keys.trans h.keys
  acts key stopping := (h.acts key stopping).trans (h'.acts key stopping)
  names name key hname := h.names name key (h'.names name key hname)
  handles := h'.handles.trans h.handles
  fetches := h'.fetches.trans h.fetches
  fetchLog := h'.fetchLog.trans h.fetchLog
  crashed := h'.crashed.trans h.crashed
  jobs hjobs := h'.jobs (h.jobs hjobs)
  members name := (h'.members name).trans (h.members name)
  nextId name := (h'.nextId name).trans (h.nextId name)

theorem has (h : w.Curbs w') {key : Nat} (hkey : w.Has key) : w'.Has key := by
  rwa [Has, h.keys]

theorem linked (h : w.Curbs w') (hlinked : w.Linked) : w'.Linked := by
  have hlength : w'.hosts.length = w.hosts.length := by
    simpa [Store.keys] using congrArg List.length h.keys
  refine ⟨by rw [h.keys, hlength, hlinked.keys], fun name key hname => ?_, ?_, ?_,
    h.jobs hlinked.jobs⟩
  · exact h.has (hlinked.names name key (h.names name key hname))
  · rw [h.handles]
    exact fun handle key hhandle => h.has (hlinked.handles handle key hhandle)
  · rw [h.fetches]
    exact fun f hf => h.has (hlinked.fetches f hf)

/-- A change of one host by an act that is always allowed. -/
theorem act {key : Nat} (hkey : w.Has key) {h' : Host}
    (hact : ∀ stopping, (w.host key).Act stopping h') : w.Curbs (w.setHost key h') where
  keys := has_setHost hkey h'
  acts other stopping := by
    rw [host_setHost]
    split
    · rename_i heq
      subst heq
      exact .single (hact stopping)
    · exact .refl
  names _ _ h := h
  handles := rfl
  fetches := rfl
  fetchLog := rfl
  crashed := rfl
  jobs h name job hjob := by
    rw [Has, has_setHost hkey]
    exact h name job hjob
  members _ := .refl _
  nextId _ := rfl

/-- A change of one registry that takes members off. -/
theorem registry (w : World) (name : String) (f : Registry → Registry)
    (hmembers : (f (w.registry name)).members.Sublist (w.registry name).members)
    (hnext : (f (w.registry name)).nextId = (w.registry name).nextId) :
    w.Curbs (w.updateRegistry name f) where
  keys := rfl
  acts _ _ := .refl
  names _ _ h := h
  handles := rfl
  fetches := rfl
  fetchLog := rfl
  crashed := rfl
  jobs h := h
  members other := by
    rw [registry_updateRegistry]
    split
    · rename_i heq
      exact heq ▸ hmembers
    · exact .refl _
  nextId other := by
    rw [registry_updateRegistry]
    split
    · rename_i heq
      exact heq ▸ hnext
    · rfl

/-- One more or one less stop-all call. -/
theorem stopping (w : World) (name : String) (f : Nat → Nat) :
    w.Curbs (w.updateRegistry name fun r => { r with stopping := f r.stopping }) :=
  registry w name _ (.refl _) rfl

theorem unregister (w : World) (name : String) (id : Nat) :
    w.Curbs (w.updateRegistry name fun r => r.unregister id) :=
  registry w name _ List.filter_sublist rfl

/-- A change that no host depends on. -/
theorem aside (hties : w'.ties = w.ties) (hlog : w'.fetchLog = w.fetchLog) : w.Curbs w' where
  keys := by rw [hosts_of_ties hties]
  acts key stopping := by rw [host_of_ties hties]
  names name key hname := by rwa [names_of_ties hties] at hname
  handles := handles_of_ties hties
  fetches := fetches_of_ties hties
  fetchLog := hlog
  crashed := crashed_of_ties hties
  jobs hjobs name job hjob := by
    rw [jobs_of_ties hties] at hjob
    rw [Has, hosts_of_ties hties]
    exact hjobs name job hjob
  members name := by
    rw [World.registry, registries_of_ties hties]
    exact .refl _
  nextId name := by
    rw [World.registry, registries_of_ties hties,
      World.registry]

theorem note (h : w.Curbs w') (entry : Entry) (hentry : entry.isFetch = false) :
    w.Curbs (w'.note entry) :=
  h.trans (aside rfl (by simp [World.fetchLog, World.note, hentry]))

end Curbs

variable {w : World} {key : Nat}

theorem requestStop_curbs (hkey : w.Has key) : w.Curbs (w.requestStop key) := by
  unfold requestStop
  split
  · exact .refl w
  · rename_i hfinished
    have hflagged : (w.updateHost key fun h => { h with finished := true }).Has key := by
      rwa [Has, updateHost, has_setHost hkey]
    refine (Curbs.act hkey fun _ => .stop w.clock (by simpa using hfinished)).trans
      (.aside ?_ ?_)
    · rw [publish_ties hflagged, host_updateHost, if_pos rfl]
      exact setHost_setHost_ties w key _ _
    · rw [publish_fetchLog]
      rfl

/-- A host without evaluations is cut off. -/
theorem cutOff_curbs (hkey : w.Has key) (hidle : (w.host key).pending = 0) :
    w.Curbs (w.cutOff key) := by
  have hdetach : w.Curbs (w.updateHost key fun h => { h with outlet := h.outlet.detach }) :=
    .act hkey fun _ => .detach hidle
  exact hdetach.trans (requestStop_curbs (hdetach.has hkey))

theorem settle_curbs (w : World) (key : Nat) : w.Curbs (w.settle key) := by
  unfold settle
  split
  · rename_i hgone
    have halive : (w.host key).alive = true := (Bool.and_eq_true _ _ ▸ hgone).1
    have hperish : w.Curbs (w.updateHost key fun h => { h with alive := false, commands := [] }) :=
      .act (has_of_alive halive) fun _ => .perish
    dsimp only
    split
    · exact hperish
    · exact hperish.trans (.unregister _ _ _)
  · exact .refl w

theorem endStopAll_curbs (w : World) (registry : String) : w.Curbs (w.endStopAll registry) :=
  .registry w registry _ List.filter_sublist rfl

theorem visitAll_curbs (registry : String) (rest : List (Nat × Nat)) (w : World) :
    w.Curbs (visitAll registry rest w).2 := by
  induction rest generalizing w with
  | nil => exact endStopAll_curbs w registry
  | cons entry rest ih =>
      obtain ⟨id, key⟩ := entry
      have hskip : w.Curbs (w.updateRegistry registry fun r => r.unregister id) :=
        .unregister w registry id
      unfold visitAll
      split
      · exact hskip.trans (ih _)
      · split
        · exact ih w
        · rename_i hrunning
          split
          · exact .refl w
          · rename_i hidle
            have hcut : w.Curbs (w.cutOff key) :=
              cutOff_curbs (has_of_running (by simpa using hrunning)) (by omega)
            dsimp only
            split
            · exact (hcut.trans (.unregister _ registry id)).trans (ih _)
            · exact hcut

/-- A call waits for a host that was built. -/
theorem visitAll_has (registry : String) (rest : List (Nat × Nat)) (w : World) {call : StopAll}
    (hcall : (visitAll registry rest w).1 = some call) : w.Has call.host := by
  induction rest generalizing w with
  | nil => cases hcall
  | cons entry rest ih =>
      obtain ⟨id, key⟩ := entry
      unfold visitAll at hcall
      split at hcall
      · rw [Has, ← (Curbs.unregister w registry id).keys]
        exact ih _ hcall
      · split at hcall
        · exact ih w hcall
        · rename_i hrunning
          have hkey : w.Has key := has_of_running (by simpa using hrunning)
          split at hcall
          · cases hcall
            exact hkey
          · rename_i hidle
            have hcut : w.Curbs (w.cutOff key) := cutOff_curbs hkey (by omega)
            dsimp only at hcall
            split at hcall
            · have hrest := ih _ hcall
              rwa [Has, (hcut.trans (.unregister _ registry id)).keys] at hrest
            · cases hcall
              exact hkey

theorem visited_curbs (w : World) (call : StopAll) : w.Curbs (w.visited call).2 :=
  (Curbs.unregister w call.registry _).trans (visitAll_curbs _ _ _)

theorem resume_curbs {call : StopAll} (hkey : w.Has call.host) : w.Curbs (w.resume call).2 := by
  unfold resume
  split
  · split
    · exact .refl w
    · rename_i hidle
      have hcut : w.Curbs (w.cutOff call.host) := cutOff_curbs hkey (by omega)
      dsimp only
      split
      · exact hcut.trans (visited_curbs _ call)
      · exact hcut
  · split
    · exact visited_curbs w call
    · exact .refl w

theorem visited_has (w : World) {call next : StopAll} (hnext : (w.visited call).1 = some next) :
    w.Has next.host :=
  visitAll_has _ _ (w.updateRegistry call.registry fun r => r.unregister (w.host call.host).id)
    hnext

theorem resume_has {call next : StopAll} (hkey : w.Has call.host)
    (hnext : (w.resume call).1 = some next) : w.Has next.host := by
  unfold resume at hnext
  split at hnext
  · split at hnext
    · cases hnext
      exact hkey
    · rename_i hidle
      have hcut : w.Curbs (w.cutOff call.host) := cutOff_curbs hkey (by omega)
      dsimp only at hnext
      split at hnext
      · have hvisited := visited_has _ hnext
        rwa [Has, hcut.keys] at hvisited
      · cases hnext
        exact hkey
  · split at hnext
    · exact visited_has w hnext
    · cases hnext
      exact hkey

theorem abandon_curbs (w : World) (job : Job) : w.Curbs (w.abandon job) := by
  unfold abandon
  split
  · exact .stopping w _ (· - 1)
  · exact .refl w

theorem eraseJob_curbs (w : World) (name : String) :
    w.Curbs { w with jobs := w.jobs.erase name } :=
  { Curbs.refl w with
    jobs := by
      intro hjobs other job h
      rw [Table.get?_erase] at h
      split at h
      · cases h
      · exact hjobs other job h }

theorem dropJob_curbs (w : World) (name : String) : w.Curbs (w.dropJob name).1 := by
  unfold dropJob
  split
  · exact .refl w
  · exact (eraseJob_curbs w name).trans (abandon_curbs _ _)

theorem keep_curbs {job : Job} (hkey : w.Has job.host) (name : String) :
    w.Curbs (w.keep name job).1 := by
  have hput : ∀ w' : World, w.Curbs w' →
      w.Curbs { w' with jobs := w'.jobs.put name job } := fun w' hcurbs =>
    hcurbs.trans { Curbs.refl w' with
      jobs := by
        intro hjobs other kept h
        rw [Table.get?_put] at h
        split at h
        · cases h
          exact hcurbs.has hkey
        · exact hjobs other kept h }
  unfold keep
  dsimp only
  split
  · exact hput _ (abandon_curbs w _)
  · exact hput _ (.refl w)

theorem keepCall_curbs {name : String} {left : Option StopAll × World} (hcurbs : w.Curbs left.2)
    (hcall : ∀ call, left.1 = some call → w.Has call.host) : w.Curbs (keepCall name left).1 := by
  obtain ⟨_ | call, w'⟩ := left
  · exact hcurbs
  · have hkey : w'.Has (Job.stopAll call).host := hcurbs.has (hcall call rfl)
    exact hcurbs.trans (keep_curbs hkey name)

theorem stopAll_curbs (w : World) (registry name : String) :
    w.Curbs (w.stopAll registry name).1 := by
  have hbegin :
      w.Curbs (w.updateRegistry registry fun r => { r with stopping := r.stopping + 1 }) :=
    .stopping w registry (· + 1)
  refine hbegin.trans (keepCall_curbs (visitAll_curbs registry _ _) fun call hcall => ?_)
  exact visitAll_has registry _ _ hcall

theorem wait_curbs {job : Job} (hkey : w.Has job.host) (name : String) :
    w.Curbs (w.wait name job).1 := by
  unfold wait
  split
  · exact .refl w
  · exact keep_curbs hkey name

theorem poll_curbs (hlinked : w.Linked) (name : String) : w.Curbs (w.poll name).1 := by
  unfold poll
  split
  · exact .refl w
  · rename_i job hjob
    have herase := eraseJob_curbs w name
    have hkey : w.Has job.host := hlinked.jobs name job hjob
    apply herase.trans
    dsimp only
    split
    · exact keepCall_curbs (resume_curbs (herase.has hkey)) fun next hnext =>
        resume_has (herase.has hkey) hnext
    · exact wait_curbs (herase.has hkey) name

end TickHost.World
