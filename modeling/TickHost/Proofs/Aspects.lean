import TickHost.Proofs.Roster

/-!
Aspects of the world that few operations touch: the source text of a host, whether the host still
exists and who works on it, whether it is cut off, its timers, the commands posted to it, the
stopping of a registry, the fetches that are kept, and the clock. Every operation
keeps each of them, except for the ones that it is there to change.
-/

namespace TickHost

inductive Aspect where
  | script (host : Nat)
  | alive (host : Nat)
  | users (host : Nat)
  | cut (host : Nat)
  | timers (host : Nat)
  /-- The commands that were posted to a host and not carried out yet. -/
  | queue (host : Nat)
  | members (registry : String)
  /-- The numbers that a registry has given out. -/
  | numbers (registry : String)
  /-- The stop-all calls of a registry that are under way. -/
  | stopping (registry : String)
  | fetches
  | clock
deriving DecidableEq

/-- What makes up the aspects of a host. -/
structure Host.Traits where
  script : Script
  alive : Bool
  users : Nat
  cut : Bool
  timers : Timers Callback
  commands : List Command

def Host.traits (h : Host) : Traits :=
  ⟨h.script, h.alive, h.users, h.outlet.detached, h.timers, h.commands⟩

namespace World

/-- An aspect is the same in two worlds, up to the order of members. The clock may have gone on,
commands may have been posted to a host that is still alive, and stop-all calls may be over. -/
def Keeps (a : Aspect) (w w' : World) : Prop :=
  match a with
  | .script key => (w'.host key).script = (w.host key).script
  | .alive key => (w'.host key).alive = (w.host key).alive
  | .users key => (w'.host key).users = (w.host key).users
  | .cut key => (w'.host key).outlet.detached = (w.host key).outlet.detached
  | .timers key => (w'.host key).timers = (w.host key).timers
  | .queue key => (w'.host key).alive = true →
      (w.host key).alive = true ∧ (w.host key).commands <+: (w'.host key).commands
  | .members name => (w'.registry name).members.Perm (w.registry name).members
  | .numbers name => (w'.registry name).nextId = (w.registry name).nextId
  | .stopping name => (w'.registry name).stopping ≤ (w.registry name).stopping
  | .fetches => w'.fetches = w.fetches
  | .clock => w.clock ≤ w'.clock

namespace Keeps

variable {a : Aspect} {w w' w'' : World} {key : Nat} {h : Host}

theorem refl (w : World) : w.Keeps a w := by
  cases a with
  | members _ => exact List.Perm.refl _
  | queue _ => exact fun halive => ⟨halive, List.prefix_rfl⟩
  | stopping _ => exact Nat.le_refl _
  | clock => exact Nat.le_refl w.clock
  | _ => rfl

theorem trans (h : w.Keeps a w') (h' : w'.Keeps a w'') : w.Keeps a w'' := by
  cases a with
  | members _ => exact List.Perm.trans h' h
  | queue _ =>
      intro halive
      obtain ⟨hmiddle, hlast⟩ := h' halive
      obtain ⟨hfirst, hposted⟩ := h hmiddle
      exact ⟨hfirst, hposted.trans hlast⟩
  | stopping _ => exact Nat.le_trans h' h
  | clock => exact Nat.le_trans h h'
  | _ => exact Eq.trans h' h

/-- A change that hosts, registries and fetches have no part in. -/
theorem aside (hhosts : w'.hosts = w.hosts) (hregistries : w'.registries = w.registries)
    (hfetches : w'.fetches = w.fetches) (hclock : w.clock ≤ w'.clock) : w.Keeps a w' := by
  have hhost : ∀ key, w'.host key = w.host key := fun key => by rw [host, host, hhosts]
  cases a with
  | members name =>
      simp only [Keeps, registry, hregistries]
      exact List.Perm.refl _
  | numbers name => simp only [Keeps, registry, hregistries]
  | stopping name =>
      simp only [Keeps, registry, hregistries]
      exact Nat.le_refl _
  | fetches => exact hfetches
  | clock => exact hclock
  | queue key =>
      simp only [Keeps, hhost]
      exact fun halive => ⟨halive, List.prefix_rfl⟩
  | script key | alive key | users key | cut key | timers key => simp only [Keeps, hhost]

/-- A change of one host. -/
theorem setHost (hscript : a = .script key → h.script = (w.host key).script)
    (halive : a = .alive key → h.alive = (w.host key).alive)
    (husers : a = .users key → h.users = (w.host key).users)
    (hcut : a = .cut key → h.outlet.detached = (w.host key).outlet.detached)
    (htimers : a = .timers key → h.timers = (w.host key).timers)
    (hqueue : a = .queue key → h.alive = true →
      (w.host key).alive = true ∧ (w.host key).commands <+: h.commands) :
    w.Keeps a (w.setHost key h) := by
  cases a with
  | members _ => exact List.Perm.refl _
  | numbers _ | fetches => rfl
  | stopping _ => exact Nat.le_refl _
  | clock => exact Nat.le_refl w.clock
  | queue k =>
      simp only [Keeps, host_setHost]
      split
      · rename_i heq
        subst heq
        exact hqueue rfl
      · exact fun halive => ⟨halive, List.prefix_rfl⟩
  | script k | alive k | users k | cut k | timers k =>
      simp only [Keeps, host_setHost]
      split
      · rename_i heq
        subst heq
        simp_all
      · rfl

/-- A change of one host that has nothing to do with its aspects. -/
theorem edit (hsame : h.traits = (w.host key).traits) : w.Keeps a (w.setHost key h) := by
  simp only [Host.traits, Host.Traits.mk.injEq] at hsame
  obtain ⟨hscript, halive, husers, hcut, htimers, hcommands⟩ := hsame
  refine setHost (fun _ => hscript) (fun _ => halive) (fun _ => husers) (fun _ => hcut)
    (fun _ => htimers) fun _ hliving => ?_
  rw [hcommands]
  exact ⟨halive ▸ hliving, List.prefix_rfl⟩

theorem post (command : Command) : w.Keeps a (w.updateHost key fun h => h.post command) :=
  setHost (fun _ => rfl) (fun _ => rfl) (fun _ => rfl) (fun _ => rfl) (fun _ => rfl)
    fun _ hliving => ⟨hliving, List.prefix_append _ _⟩

theorem take (ha : a ≠ .queue key) (commands : List Command) :
    w.Keeps a (w.setHost key { w.host key with commands }) :=
  setHost (fun _ => rfl) (fun _ => rfl) (fun _ => rfl) (fun _ => rfl) (fun _ => rfl)
    fun h => absurd h ha

theorem hold (ha : a ≠ .users key) (users : Nat) :
    w.Keeps a (w.setHost key { w.host key with users }) :=
  setHost (fun _ => rfl) (fun _ => rfl) (fun h => absurd h ha) (fun _ => rfl) (fun _ => rfl)
    fun _ hliving => ⟨hliving, List.prefix_rfl⟩

theorem rewrite (ha : a ≠ .script key) (script : Script) :
    w.Keeps a (w.setHost key { w.host key with script }) :=
  setHost (fun h => absurd h ha) (fun _ => rfl) (fun _ => rfl) (fun _ => rfl) (fun _ => rfl)
    fun _ hliving => ⟨hliving, List.prefix_rfl⟩

theorem perish (ha : a ≠ .alive key) :
    w.Keeps a (w.updateHost key fun h => { h with alive := false, commands := [] }) :=
  setHost (fun _ => rfl) (fun h => absurd h ha) (fun _ => rfl) (fun _ => rfl) (fun _ => rfl)
    fun _ => nofun

theorem detach (ha : a ≠ .cut key) :
    w.Keeps a (w.updateHost key fun h => { h with outlet := h.outlet.detach }) :=
  setHost (fun _ => rfl) (fun _ => rfl) (fun _ => rfl) (fun h => absurd h ha) (fun _ => rfl)
    fun _ hliving => ⟨hliving, List.prefix_rfl⟩

theorem retime (ha : a ≠ .timers key) (timers : Timers Callback) :
    w.Keeps a (w.setHost key { w.host key with timers }) :=
  setHost (fun _ => rfl) (fun _ => rfl) (fun _ => rfl) (fun _ => rfl) (fun h => absurd h ha)
    fun _ hliving => ⟨hliving, List.prefix_rfl⟩

theorem refetch (ha : a ≠ .fetches) (fetches : List KeptFetch) :
    w.Keeps a { w with fetches } := by
  cases a with
  | fetches => exact absurd rfl ha
  | members _ => exact List.Perm.refl _
  | queue _ => exact fun halive => ⟨halive, List.prefix_rfl⟩
  | stopping _ => exact Nat.le_refl _
  | clock => exact Nat.le_refl w.clock
  | _ => rfl

end Keeps

variable {a : Aspect} (w : World) (key : Nat)

theorem note_keeps (entry : Entry) : w.Keeps a (w.note entry) :=
  .aside rfl rfl rfl (Nat.le_refl _)

theorem noteAll_keeps (entries : List Entry) : w.Keeps a (w.noteAll entries) := by
  induction entries generalizing w with
  | nil => exact .refl w
  | cons entry rest ih => exact (note_keeps w entry).trans (ih (w.note entry))

/-- A change of one registry. -/
theorem updateRegistry_keeps {name : String} {f : Registry → Registry}
    (hmembers : a = .members name → (f (w.registry name)).members = (w.registry name).members)
    (hnumbers : a = .numbers name → (f (w.registry name)).nextId = (w.registry name).nextId)
    (hstopping : a = .stopping name →
      (f (w.registry name)).stopping ≤ (w.registry name).stopping) :
    w.Keeps a (w.updateRegistry name f) := by
  cases a with
  | members other =>
      simp only [Keeps, registry_updateRegistry]
      split
      · rename_i heq
        subst heq
        exact .of_eq (hmembers rfl)
      · exact .refl _
  | numbers other =>
      simp only [Keeps, registry_updateRegistry]
      split
      · rename_i heq
        subst heq
        exact hnumbers rfl
      · rfl
  | stopping other =>
      simp only [Keeps, registry_updateRegistry]
      split
      · rename_i heq
        subst heq
        exact hstopping rfl
      · exact Nat.le_refl _
  | queue _ => exact fun halive => ⟨halive, List.prefix_rfl⟩
  | clock => exact Nat.le_refl w.clock
  | _ => rfl

theorem unregister_keeps {name : String} (ha : a ≠ .members name) (id : Nat) :
    w.Keeps a (w.updateRegistry name fun r => r.unregister id) :=
  updateRegistry_keeps w (fun h => absurd h ha) (fun _ => rfl) fun _ => Nat.le_refl _

theorem publish_keeps (event : Event) (source : Source) :
    w.Keeps a (w.publish key event source) := by
  unfold publish
  dsimp only
  split
  · exact .refl w
  · rename_i envelope outlet hpublish
    have hcut := Outlet.publish_detached_eq (w.host key).outlet w.clock event source
    rw [hpublish] at hcut
    have houtlet : w.Keeps a (w.setHost key { w.host key with outlet }) :=
      .edit (by simpa [Host.traits] using hcut)
    exact houtlet.trans (.aside rfl rfl rfl (Nat.le_refl _))

theorem requestStop_keeps : w.Keeps a (w.requestStop key) := by
  unfold requestStop
  split
  · exact .refl w
  · refine Keeps.trans ?_ (publish_keeps _ key _ _)
    exact .edit rfl

theorem reportFault_keeps (fault : ScriptFault) : w.Keeps a (w.reportFault key fault) :=
  publish_keeps w key _ _

theorem subscribe_keeps (receiver : String) (bus : Nat) : w.Keeps a (w.subscribe receiver bus) :=
  .aside rfl rfl rfl (Nat.le_refl _)

theorem acquire_keeps (ha : a ≠ .users key) : w.Keeps a (w.acquire key) :=
  .hold ha _

/-! Ending. -/

/-- A host that ends leaves its registry. -/
theorem settle_keeps (halive : a ≠ .alive key) (hmembers : a ≠ .members (w.host key).registry) :
    w.Keeps a (w.settle key) := by
  unfold settle
  split
  · dsimp only
    split
    · exact .perish halive
    · exact (Keeps.perish halive).trans (unregister_keeps _ hmembers _)
  · exact .refl w

theorem release_keeps (halive : a ≠ .alive key) (husers : a ≠ .users key)
    (hmembers : a ≠ .members (w.host key).registry) : w.Keeps a (w.release key) := by
  have hfree : w.Keeps a (w.updateHost key fun h => { h with users := h.users - 1 }) :=
    .hold husers _
  exact hfree.trans (settle_keeps _ key halive (by simpa using hmembers))

theorem unname_keeps {name : String} (halive : ∀ key, w.names.get? name = some key → a ≠ .alive key)
    (hmembers : ∀ registry, a ≠ .members registry) : w.Keeps a (w.unname name) := by
  unfold unname
  split
  · rename_i key hname
    refine Keeps.trans ?_ (settle_keeps _ key (halive key hname) (hmembers _))
    exact .aside rfl rfl rfl (Nat.le_refl _)
  · exact .refl w

/-! Loading. -/

section Loading

variable (ha : a ≠ .script key)

include ha

theorem scriptArrived_keeps (urls : List Url) (results : FetchResults) :
    w.Keeps a (w.scriptArrived key urls results) := by
  unfold scriptArrived
  dsimp only
  split
  · exact (Keeps.rewrite ha _).trans (publish_keeps _ key _ _)
  · exact publish_keeps w key _ _

theorem loadFile_keeps (url : Url) (reference : String) :
    w.Keeps a (w.loadFile key url reference) := by
  unfold loadFile
  split
  · exact publish_keeps w key _ _
  · dsimp only
    split
    · exact (Keeps.rewrite ha _).trans (publish_keeps _ key _ _)
    · exact (Keeps.rewrite ha _).trans (publish_keeps _ key _ _)

end Loading

/-- Only the answer to a load rewrites a source text. -/
theorem answerFetch_keeps (urls : List Url) (purpose : FetchPurpose) (results : FetchResults)
    (ha : purpose = .script → a ≠ .script key) :
    w.Keeps a (w.answerFetch key urls purpose results) := by
  unfold answerFetch
  split
  · exact scriptArrived_keeps w key (ha rfl) urls results
  · split
    · exact .post _
    · exact .refl w

theorem fetch_keeps (urls : List Url) (purpose : FetchPurpose) (hfetches : a ≠ .fetches)
    (ha : purpose = .script → a ≠ .script key) : w.Keeps a (w.fetch key urls purpose) := by
  unfold fetch
  split
  · exact answerFetch_keeps w key urls purpose _ ha
  · have hnote : w.Keeps a (w.note (.fetching (urls.map Url.render))) := note_keeps w _
    dsimp only
    split
    · exact hnote
    · split
      · exact hnote.trans (.refetch hfetches _)
      · exact hnote.trans (answerFetch_keeps _ key urls purpose _ ha)

theorem fetchNow_keeps (urls : List Url) : w.Keeps a (w.fetchNow key urls).2 := by
  unfold fetchNow
  split
  · exact .refl w
  · exact note_keeps w _

theorem complete_keeps (hfetches : a ≠ .fetches) {index : Nat}
    (ha : ∀ f, w.fetches[index]? = some f → f.purpose = .script → a ≠ .script f.host) :
    w.Keeps a (w.complete index).1 := by
  unfold complete
  split
  · exact .refl w
  · rename_i f hf
    exact (Keeps.refetch hfetches _).trans (answerFetch_keeps _ _ _ _ _ (ha f hf))

theorem forget_keeps (ha : a ≠ .fetches) (index : Nat) : w.Keeps a (w.forget index).1 := by
  unfold World.forget
  split
  · exact .refl w
  · exact .refetch ha _

theorem resolveAll_keeps (references : List String) :
    w.Keeps a (w.resolveAll key references).2 := by
  unfold resolveAll
  refine List.foldlRecOn (motive := fun found : List Url × World => w.Keeps a found.2)
    references _ (.refl w) fun found hfound reference _ => ?_
  dsimp only
  split
  · exact hfound
  · exact hfound.trans (publish_keeps _ key _ _)

theorem load_keeps (reference : String) : w.Keeps a (w.load key reference) := by
  unfold load
  split
  · exact .refl w
  · split
    · exact publish_keeps w key _ _
    · exact .refl w

theorem loadUrl_keeps (hfetches : a ≠ .fetches) (ha : a ≠ .script key) (reference : String) :
    w.Keeps a (w.loadUrl key reference).1 := by
  unfold loadUrl
  split
  · exact .refl w
  · extract_lets rewritten url
    have hrewrite : w.Keeps a rewritten := .rewrite ha _
    split
    · exact hrewrite.trans (loadFile_keeps _ key ha _ _)
    · exact hrewrite.trans (fetch_keeps _ key _ _ hfetches fun _ => ha)

/-! Stopping. -/

theorem cutOff_keeps (ha : a ≠ .cut key) : w.Keeps a (w.cutOff key) :=
  (Keeps.detach ha).trans (requestStop_keeps _ key)

section Stopping

variable (hmembers : ∀ registry, a ≠ .members registry)

include hmembers

theorem visitAll_keeps (registry : String) {rest : List (Nat × Nat)}
    (ha : ∀ id key, (id, key) ∈ rest → a ≠ .cut key) :
    w.Keeps a (visitAll registry rest w).2 := by
  induction rest generalizing w with
  | nil =>
      exact updateRegistry_keeps w (fun h => absurd h (hmembers registry)) (fun _ => rfl)
        fun _ => Nat.sub_le _ _
  | cons entry rest ih =>
      obtain ⟨id, key⟩ := entry
      have hrest : ∀ id key, (id, key) ∈ rest → a ≠ .cut key :=
        fun id key h => ha id key (List.mem_cons_of_mem _ h)
      unfold visitAll
      split
      · exact (unregister_keeps w (hmembers registry) id).trans (ih _ hrest)
      · split
        · exact ih w hrest
        · split
          · exact .refl w
          · have hcut := cutOff_keeps w key (ha id key List.mem_cons_self)
            dsimp only
            split
            · exact (hcut.trans (unregister_keeps _ (hmembers registry) id)).trans (ih _ hrest)
            · exact hcut

theorem visited_keeps {call : StopAll} (ha : ∀ id key, (id, key) ∈ call.rest → a ≠ .cut key) :
    w.Keeps a (w.visited call).2 :=
  (unregister_keeps w (hmembers call.registry) _).trans (visitAll_keeps _ hmembers _ ha)

theorem resume_keeps {call : StopAll} (hhost : a ≠ .cut call.host)
    (ha : ∀ id key, (id, key) ∈ call.rest → a ≠ .cut key) : w.Keeps a (w.resume call).2 := by
  have hcut := cutOff_keeps w call.host hhost
  unfold resume
  split
  · split
    · exact .refl w
    · dsimp only
      split
      · exact hcut.trans (visited_keeps _ hmembers ha)
      · exact hcut
  · split
    · exact visited_keeps w hmembers ha
    · exact .refl w

end Stopping

theorem abandon_keeps (job : Job) : w.Keeps a (w.abandon job) := by
  unfold abandon
  split
  · exact updateRegistry_keeps w (fun _ => rfl) (fun _ => rfl) fun _ => Nat.sub_le _ _
  · exact .refl w

theorem dropJob_keeps (name : String) : w.Keeps a (w.dropJob name).1 := by
  unfold dropJob
  split
  · exact .refl w
  · refine Keeps.trans ?_ (abandon_keeps _ _)
    exact .aside rfl rfl rfl (Nat.le_refl _)

theorem keep_keeps (name : String) (job : Job) : w.Keeps a (w.keep name job).1 := by
  unfold keep
  dsimp only
  split
  · exact (abandon_keeps w _).trans (.aside rfl rfl rfl (Nat.le_refl _))
  · exact .aside rfl rfl rfl (Nat.le_refl _)

theorem keepCall_keeps (name : String) (left : Option StopAll × World) :
    left.2.Keeps a (keepCall name left).1 := by
  obtain ⟨_ | call, w⟩ := left
  · exact .refl w
  · exact keep_keeps w name _

theorem stopAll_keeps (hmembers : ∀ registry, a ≠ .members registry) {registry : String}
    (hstopping : a ≠ .stopping registry)
    (ha : ∀ id key, (id, key) ∈ (w.registry registry).members → a ≠ .cut key) (name : String) :
    w.Keeps a (w.stopAll registry name).1 := by
  have hbegin : w.Keeps a
      (w.updateRegistry registry fun r => { r with stopping := r.stopping + 1 }) :=
    updateRegistry_keeps w (fun _ => rfl) (fun _ => rfl) fun h => absurd h hstopping
  refine (hbegin.trans (visitAll_keeps _ hmembers registry ?_)).trans (keepCall_keeps name _)
  rw [registry_updateRegistry, if_pos rfl]
  exact ha

theorem wait_keeps (name : String) (job : Job) : w.Keeps a (w.wait name job).1 := by
  unfold wait
  split
  · exact .refl w
  · exact keep_keeps w name job

theorem poll_keeps (hmembers : ∀ registry, a ≠ .members registry) {name : String}
    (ha : ∀ call, w.jobs.get? name = some (.stopAll call) →
      a ≠ .cut call.host ∧ ∀ id key, (id, key) ∈ call.rest → a ≠ .cut key) :
    w.Keeps a (w.poll name).1 := by
  unfold poll
  split
  · exact .refl w
  · rename_i job hjob
    have herase : w.Keeps a { w with jobs := w.jobs.erase name } :=
      .aside rfl rfl rfl (Nat.le_refl _)
    dsimp only
    split
    · rename_i call
      obtain ⟨hhost, hrest⟩ := ha call hjob
      exact (herase.trans (resume_keeps _ hmembers hhost hrest)).trans (keepCall_keeps name _)
    · exact herase.trans (wait_keeps _ name _)

/-! Building. -/

/-- A host that is built enters its registry with a source text of its own. -/
theorem enrol_keeps (hlinked : w.Linked) (plan : HostPlan) (api : List Action) (bus : Nat)
    (hscript : a ≠ .script w.hosts.fresh) (halive : a ≠ .alive w.hosts.fresh)
    (hmembers : a ≠ .members plan.registry) (hnumbers : a ≠ .numbers plan.registry)
    (hqueue : a ≠ .queue w.hosts.fresh) : w.Keeps a (w.enrol plan api bus) := by
  have hvacant : w.host w.hosts.fresh = default := Store.get_of_not_mem _ _ hlinked.fresh
  have hset : w.Keeps a (w.setHost w.hosts.fresh
      (.ofPlan plan api (w.registry plan.registry).nextId bus)) := by
    refine .setHost (fun h => absurd h hscript) (fun h => absurd h halive) (fun _ => ?_)
      (fun _ => ?_) (fun _ => ?_) fun h => absurd h hqueue
    · rw [hvacant]
      rfl
    · rw [hvacant]
      rfl
    · rw [hvacant]
      rfl
  exact hset.trans (updateRegistry_keeps _ (fun h => absurd h hmembers)
    (fun h => absurd h hnumbers) fun _ => Nat.le_refl _)

theorem build_keeps (hlinked : w.Linked) (plan : HostPlan) (api : List Action)
    (hscript : a ≠ .script w.hosts.fresh) (halive : ∀ key, a ≠ .alive key)
    (hmembers : ∀ registry, a ≠ .members registry) (hnumbers : a ≠ .numbers plan.registry)
    (hqueue : a ≠ .queue w.hosts.fresh) : w.Keeps a (w.build plan api).1 := by
  rcases build_cases w plan api with hcrash | ⟨bus, entered, hties, -, hclock, hbuild⟩
  · rw [hcrash]
    exact .aside rfl rfl rfl (Nat.le_refl _)
  · have hentered : (w.enrol plan api bus).Keeps a entered :=
      .aside (hosts_of_ties hties) (registries_of_ties hties) (fetches_of_ties hties)
        (Nat.le_of_eq hclock.symm)
    have henrol := enrol_keeps w hlinked plan api bus hscript (halive _) (hmembers _) hnumbers
      hqueue
    rw [hbuild]
    exact ((henrol.trans hentered).trans (unname_keeps _ (fun _ _ => halive _) hmembers)).trans
      (.aside rfl rfl rfl (Nat.le_refl _))

theorem drain_keeps (receiver : String) : w.Keeps a (w.drain receiver).1 := by
  unfold drain
  split
  · exact .refl w
  · exact .aside rfl rfl rfl (Nat.le_refl _)

/-! What hosts do themselves. -/

theorem post_keeps (command : Command) : w.Keeps a (w.post key command).1 := by
  unfold post
  split
  · exact .post command
  · exact .refl w

theorem doHandleDeed_keeps (handle : String) (deed : HandleDeed) :
    w.Keeps a (w.doHandleDeed handle key deed).1 := by
  cases deed with
  | info => exact .refl w
  | stop => exact requestStop_keeps w key
  | invoke _ | nodeKilled _ | avatarData _ | sound _ => exact post_keeps w key _
  | subscribe receiver => exact subscribe_keeps w _ _

theorem setTimer_keeps (ha : a ≠ .timers key) (callback : Callback) (milliseconds : Nat)
    (once : Bool) : w.Keeps a (w.setTimer key callback milliseconds once).2 := by
  unfold setTimer
  dsimp only
  split
  · exact .refl w
  · exact .retime ha _

theorem flushEdits_keeps : w.Keeps a (w.flushEdits key) := by
  unfold flushEdits
  split
  · exact noteAll_keeps w _
  · exact .refl w

theorem streamTick_keeps : w.Keeps a (w.streamTick key) := by
  unfold streamTick
  dsimp only
  split
  · have hstreamer : ∀ streamer, w.Keeps a (w.setHost key { w.host key with streamer }) :=
      fun _ => .edit rfl
    exact (hstreamer _).trans (noteAll_keeps _ _)
  · exact .refl w

end World

end TickHost
