import TickHost.Proofs.Fetches
import TickHost.Proofs.Hush

/-!
Worlds that are alike stay alike, whatever hosts, their owners, the holders of their handles and
their scripts do in both of them.
-/

namespace TickHost

namespace World

/-- A new host that publishes on some bus is entered and takes its name. -/
def install (w : World) (plan : HostPlan) (api : List Action) (bus : Nat) : World :=
  let key := w.hosts.fresh
  let host := Host.ofPlan plan api (w.registry plan.registry).nextId bus
  let entered := (((w.setHost key host).updateRegistry plan.registry fun r =>
    r.register key).subscribe plan.name bus).unname plan.name
  { entered with names := entered.names.put plan.name key }

theorem new?_history {capacity : Nat} {bus : Bus} (hnew : Bus.new? capacity = some bus) :
    bus.history = #[] := by
  unfold Bus.new? at hnew
  split at hnew <;> cases hnew
  rfl

theorem build_eq (w : World) (plan : HostPlan) (api : List Action) :
    w.build plan api =
      match plan.bus.bind w.sharedBuses.get?, Bus.new? plan.settings.eventCapacity with
      | some bus, _ => (w.install plan api bus, .number (w.registry plan.registry).nextId)
      | none, some made => ((w.addBus made).2.install plan api (w.addBus made).1,
          .number (w.registry plan.registry).nextId)
      | none, none => ({ w with crashed := true }, .nothing) := by
  unfold build
  cases plan.bus.bind w.sharedBuses.get? with
  | some bus => rfl
  | none => cases Bus.new? plan.settings.eventCapacity <;> rfl

end World

namespace World.Alike

variable {v v' w w' : World} (h : Alike v v' w w')

include h

/-! ### Hosts -/

theorem requestStop (key : Nat) : Alike v v' (w.requestStop key) (w'.requestStop key) := by
  simp only [World.requestStop, h.hosts]
  split
  · exact h
  · exact (h.edit key (fun h => { h with finished := true }) fun _ => ⟨rfl, rfl⟩).publish key _ _

theorem reportFault (key : Nat) (fault : ScriptFault) :
    Alike v v' (w.reportFault key fault) (w'.reportFault key fault) :=
  h.publish key _ _

theorem updateRegistry (name : String) (f : Registry → Registry) :
    Alike v v' (w.updateRegistry name f) (w'.updateRegistry name f) :=
  h.aside (congrArg (World.updateRegistry · name f) h.hushed) rfl rfl rfl

theorem settle (key : Nat) : Alike v v' (w.settle key) (w'.settle key) := by
  have hgone := h.edit key (fun h => { h with alive := false, commands := [] }) fun _ => ⟨rfl, rfl⟩
  simp only [World.settle, h.hosts, h.answers]
  split
  · split
    · exact hgone
    · exact hgone.updateRegistry _ _
  · exact h

theorem acquire (key : Nat) : Alike v v' (w.acquire key) (w'.acquire key) :=
  h.edit key (fun h => { h with users := h.users + 1 }) fun _ => ⟨rfl, rfl⟩

theorem release (key : Nat) : Alike v v' (w.release key) (w'.release key) :=
  (h.edit key (fun h => { h with users := h.users - 1 }) fun _ => ⟨rfl, rfl⟩).settle key

theorem unname (name : String) : Alike v v' (w.unname name) (w'.unname name) := by
  simp only [World.unname, h.worlds]
  split
  · refine Alike.settle ?_ _
    exact h.aside (by simp only [World.hushed, h.worlds]) rfl rfl rfl
  · exact h

theorem fresh : w'.hosts.fresh = w.hosts.fresh := by
  rw [← Store.fresh_each Host.hushed, ← Store.fresh_each Host.hushed w.hosts]
  simp only [h.worlds]

/-- A host that is built has said nothing. -/
theorem setFresh (hkeys : w.hosts.keys = List.range w.hosts.length) {g : Host}
    (hg : g.outlet.sent = #[]) :
    Alike v v' (w.setHost w.hosts.fresh g) (w'.setHost w.hosts.fresh g) := by
  have hsame : w'.hosts.keys = w.hosts.keys := by
    rw [← Store.keys_each Host.hushed, ← Store.keys_each Host.hushed w.hosts]
    simp only [h.worlds]
  have hdefault {u : World} (hu : u.hosts.keys = w.hosts.keys) :
      u.host w.hosts.fresh = default :=
    Store.get_of_not_mem _ _ (by simp [hu, hkeys, Store.fresh])
  exact h.setHost _ rfl (by rw [hdefault rfl, hg]; rfl) (by rw [hdefault hsame, hg]; rfl)

theorem install (hkeys : w.hosts.keys = List.range w.hosts.length) (plan : HostPlan)
    (api : List Action) (bus : Nat) :
    Alike v v' (w.install plan api bus) (w'.install plan api bus) := by
  have hset := h.setFresh hkeys
    (g := .ofPlan plan api (w.registry plan.registry).nextId bus) rfl
  have hentered := ((hset.updateRegistry plan.registry fun r =>
    r.register w.hosts.fresh).subscribe plan.name bus).unname plan.name
  simp only [World.install, h.fresh, h.answers]
  exact hentered.aside (by simp only [World.hushed, hentered.worlds]) rfl rfl rfl

theorem build (hkeys : w.hosts.keys = List.range w.hosts.length) (plan : HostPlan)
    (api : List Action) :
    Alike v v' (w.build plan api).1 (w'.build plan api).1 ∧
      (w'.build plan api).2 = (w.build plan api).2 := by
  simp only [build_eq, h.answers, h.worlds]
  cases plan.bus.bind w.sharedBuses.get? with
  | some bus => exact ⟨h.install hkeys plan api bus, rfl⟩
  | none =>
      cases hmade : Bus.new? plan.settings.eventCapacity with
      | none => exact ⟨h.aside (by simp only [World.hushed, h.worlds]) rfl rfl rfl, rfl⟩
      | some made =>
          obtain ⟨hbus, hadd⟩ := h.addBus (new?_history hmade)
          dsimp only
          rw [hbus]
          exact ⟨hadd.install hkeys plan api _, rfl⟩

/-- What a drain shows depends on what was said, and nothing else of it. -/
theorem drain (receiver : String) :
    Alike v v' (w.drain receiver).1 (w'.drain receiver).1 ∧
      (w'.drain receiver).2.hushed = (w.drain receiver).2.hushed := by
  have hfound : (w'.receivers.get? receiver).map Subscription.hushed =
      (w.receivers.get? receiver).map Subscription.hushed := by
    rw [← Table.get?_each, ← Table.get?_each]
    simp only [h.worlds]
  unfold World.drain
  cases hs : w.receivers.get? receiver with
  | none =>
      have hs' : w'.receivers.get? receiver = none := by simpa [hs] using hfound
      rw [hs']
      exact ⟨h, rfl⟩
  | some s =>
      obtain ⟨s', hs', hsame⟩ : ∃ s', w'.receivers.get? receiver = some s' ∧
          s'.hushed = s.hushed := by simpa [hs] using hfound
      have hbus : s'.bus = s.bus := by
        simpa only [Subscription.hushed] using congrArg Subscription.bus hsame
      rw [hs']
      refine ⟨h.aside ?_ rfl rfl rfl, ?_⟩
      · simp only [World.hushed, h.worlds, Table.each_put, Subscription.hushed, hbus]
      · simp only [Answer.hushed, hbus, h.answers]

/-! ### Source texts -/

theorem scriptArrived (key : Nat) (urls : List Url) (results : FetchResults) :
    Alike v v' (w.scriptArrived key urls results) (w'.scriptArrived key urls results) := by
  simp only [World.scriptArrived, h.hosts]
  split
  · refine Alike.publish ?_ key _ _
    exact h.edit key _ fun _ => ⟨rfl, rfl⟩
  · exact h.publish key _ _

theorem answerFetch (key : Nat) (urls : List Url) (purpose : FetchPurpose)
    (results : FetchResults) :
    Alike v v' (w.answerFetch key urls purpose results)
      (w'.answerFetch key urls purpose results) := by
  cases purpose with
  | script => exact h.scriptArrived key urls results
  | includeAll callback =>
      simp only [World.answerFetch, h.hosts]
      split
      · exact h.edit key _ fun _ => ⟨rfl, rfl⟩
      · exact h

theorem fetch (key : Nat) (urls : List Url) (purpose : FetchPurpose) :
    Alike v v' (w.fetch key urls purpose) (w'.fetch key urls purpose) := by
  simp only [World.fetch, h.hosts]
  split
  · exact h.answerFetch key urls purpose _
  · have hnote : Alike v v' (w.note (.fetching (urls.map Url.render)))
        (w'.note (.fetching (urls.map Url.render))) := h.note rfl
    simp only [hnote.worlds]
    split
    · exact hnote
    · split
      · exact hnote.aside (by simp only [World.hushed, hnote.worlds]) rfl rfl rfl
      · exact hnote.answerFetch key urls purpose _

theorem fetchNow (key : Nat) (urls : List Url) :
    (w'.fetchNow key urls).1 = (w.fetchNow key urls).1 ∧
      Alike v v' (w.fetchNow key urls).2 (w'.fetchNow key urls).2 := by
  simp only [World.fetchNow, h.hosts, h.worlds]
  split
  · exact ⟨rfl, h⟩
  · exact ⟨rfl, h.note rfl⟩

theorem complete (index : Nat) :
    Alike v v' (w.complete index).1 (w'.complete index).1 ∧
      (w'.complete index).2 = (w.complete index).2 := by
  simp only [World.complete, h.worlds]
  split
  · exact ⟨h, rfl⟩
  · refine ⟨Alike.answerFetch ?_ _ _ _ _, rfl⟩
    exact h.aside (by simp only [World.hushed, h.worlds]) rfl rfl rfl

theorem forget (index : Nat) :
    Alike v v' (w.forget index).1 (w'.forget index).1 ∧
      (w'.forget index).2 = (w.forget index).2 := by
  simp only [World.forget, h.worlds]
  split
  · exact ⟨h, rfl⟩
  · exact ⟨h.aside (by simp only [World.hushed, h.worlds]) rfl rfl rfl, rfl⟩

theorem resolveAll (key : Nat) (references : List String) :
    (w'.resolveAll key references).1 = (w.resolveAll key references).1 ∧
      Alike v v' (w.resolveAll key references).2 (w'.resolveAll key references).2 := by
  unfold World.resolveAll
  refine List.foldl_rel (r := fun found' found : List Url × World =>
    found'.1 = found.1 ∧ Alike v v' found.2 found'.2) ⟨rfl, h⟩ ?_
  rintro reference - ⟨urls', u'⟩ ⟨urls, u⟩ ⟨hurls, hu⟩
  dsimp only at hurls hu ⊢
  rw [hurls, (hu.answers.2.2.2 key).2.2.2.2.2.2 reference]
  cases (u.host key).resolve? reference with
  | some url => exact ⟨rfl, hu⟩
  | none => exact ⟨rfl, hu.publish key _ _⟩

theorem load (key : Nat) (reference : String) :
    Alike v v' (w.load key reference) (w'.load key reference) := by
  simp only [World.load, h.answers]
  split
  · exact h
  · split
    · exact h.publish key _ _
    · exact h

theorem loadFile (key : Nat) (url : Url) (reference : String) :
    Alike v v' (w.loadFile key url reference) (w'.loadFile key url reference) := by
  simp only [World.loadFile, h.worlds]
  split
  · exact h.publish key _ _
  · split <;>
    · refine Alike.publish ?_ key _ _
      exact h.edit key _ fun _ => ⟨rfl, rfl⟩

theorem loadUrl (key : Nat) (reference : String) :
    Alike v v' (w.loadUrl key reference).1 (w'.loadUrl key reference).1 ∧
      (w'.loadUrl key reference).2 = (w.loadUrl key reference).2 := by
  have hnamed := h.edit key (fun h => { h with script := ⟨h.script.contents, reference⟩ })
    fun _ => ⟨rfl, rfl⟩
  have hsame : (w'.host key).running = (w.host key).running := by simp only [h.hosts]
  cases hrunning : (w.host key).running with
  | true =>
      simp only [World.loadUrl, hsame, hrunning, if_true, and_true]
      exact h
  | false =>
      rw [loadUrl_eq w key hrunning, loadUrl_eq w' key (hsame.trans hrunning)]
      dsimp only
      split
      · exact ⟨hnamed.loadFile key _ reference, rfl⟩
      · exact ⟨hnamed.fetch key _ .script, rfl⟩

/-! ### Stopping -/

theorem cutOff (key : Nat) : Alike v v' (w.cutOff key) (w'.cutOff key) :=
  (h.edit key (fun h => { h with outlet := h.outlet.detach }) fun _ => ⟨rfl, rfl⟩).requestStop key

theorem endStopAll (registry : String) :
    Alike v v' (w.endStopAll registry) (w'.endStopAll registry) := by
  simp only [World.endStopAll, h.answers]
  exact h.updateRegistry registry _

theorem visitAll (registry : String) (members : List (Nat × Nat)) :
    (World.visitAll registry members w').1 = (World.visitAll registry members w).1 ∧
      Alike v v' (World.visitAll registry members w).2 (World.visitAll registry members w').2 := by
  induction members generalizing w w' with
  | nil => exact ⟨rfl, h.endStopAll registry⟩
  | cons member rest ih =>
      obtain ⟨id, key⟩ := member
      have hcut := h.cutOff key
      simp only [World.visitAll, h.answers, h.hosts, hcut.hosts]
      split
      · exact ih (h.updateRegistry registry _)
      · split
        · exact ih h
        · split
          · exact ⟨rfl, h⟩
          · split
            · exact ih (hcut.updateRegistry registry _)
            · exact ⟨rfl, hcut⟩

theorem visited (call : StopAll) :
    (w'.visited call).1 = (w.visited call).1 ∧
      Alike v v' (w.visited call).2 (w'.visited call).2 := by
  simp only [World.visited, h.hosts]
  exact (h.updateRegistry call.registry _).visitAll call.registry call.rest

theorem resume (call : StopAll) :
    (w'.resume call).1 = (w.resume call).1 ∧ Alike v v' (w.resume call).2 (w'.resume call).2 := by
  have hcut := h.cutOff call.host
  unfold World.resume
  cases call.stage with
  | evaluations =>
      simp only [h.hosts, hcut.hosts]
      split
      · exact ⟨rfl, h⟩
      · split
        · exact hcut.visited call
        · exact ⟨rfl, hcut⟩
  | done =>
      simp only [h.hosts]
      split
      · exact h.visited call
      · exact ⟨rfl, h⟩

theorem abandon (job : Job) : Alike v v' (w.abandon job) (w'.abandon job) := by
  cases job with
  | stopAll call =>
      exact h.updateRegistry call.registry fun r => { r with stopping := r.stopping - 1 }
  | done _ | evaluations _ => exact h

theorem dropJob (name : String) :
    Alike v v' (w.dropJob name).1 (w'.dropJob name).1 ∧
      (w'.dropJob name).2 = (w.dropJob name).2 := by
  simp only [World.dropJob, h.worlds]
  split
  · exact ⟨h, rfl⟩
  · refine ⟨Alike.abandon ?_ _, rfl⟩
    exact h.aside (by simp only [World.hushed, h.worlds]) rfl rfl rfl

theorem keep (name : String) (job : Job) :
    Alike v v' (w.keep name job).1 (w'.keep name job).1 ∧
      (w'.keep name job).2 = (w.keep name job).2 := by
  have hput {u u' : World} (hu : Alike v v' u u') :
      Alike v v' { u with jobs := u.jobs.put name job } { u' with jobs := u'.jobs.put name job } :=
    hu.aside (by simp only [World.hushed, hu.worlds]) rfl rfl rfl
  unfold World.keep
  rw [show w'.jobs.get? name = w.jobs.get? name by simp only [h.worlds]]
  cases w.jobs.get? name with
  | none => exact ⟨hput h, rfl⟩
  | some old => exact ⟨hput (h.abandon old), rfl⟩

theorem keepCall (name : String) (call : Option StopAll) :
    Alike v v' (World.keepCall name (call, w)).1 (World.keepCall name (call, w')).1 ∧
      (World.keepCall name (call, w')).2 = (World.keepCall name (call, w)).2 := by
  cases call with
  | none => exact ⟨h, rfl⟩
  | some call => exact h.keep name (.stopAll call)

theorem stopAll (registry name : String) :
    Alike v v' (w.stopAll registry name).1 (w'.stopAll registry name).1 ∧
      (w'.stopAll registry name).2 = (w.stopAll registry name).2 := by
  have hbegun := h.updateRegistry registry fun r => { r with stopping := r.stopping + 1 }
  simp only [World.stopAll, hbegun.answers]
  obtain ⟨hcall, hvisited⟩ := hbegun.visitAll registry
    ((w.updateRegistry registry fun r =>
      { r with stopping := r.stopping + 1 }).registry registry).members
  rw [← Prod.eta (World.visitAll _ _ (w'.updateRegistry _ _)), hcall]
  exact hvisited.keepCall name _

theorem wait (name : String) (job : Job) :
    Alike v v' (w.wait name job).1 (w'.wait name job).1 ∧
      (w'.wait name job).2 = (w.wait name job).2 := by
  simp only [World.wait, h.answers]
  split
  · exact ⟨h, rfl⟩
  · exact h.keep name job

theorem poll (name : String) :
    Alike v v' (w.poll name).1 (w'.poll name).1 ∧ (w'.poll name).2 = (w.poll name).2 := by
  have hpolled : Alike v v' { w with jobs := w.jobs.erase name }
      { w' with jobs := w'.jobs.erase name } :=
    h.aside (by simp only [World.hushed, h.worlds]) rfl rfl rfl
  unfold World.poll
  rw [show w'.jobs.get? name = w.jobs.get? name by simp only [h.worlds]]
  cases w.jobs.get? name with
  | none => exact ⟨h, rfl⟩
  | some job =>
      cases job with
      | done key => exact hpolled.wait name (.done key)
      | evaluations key => exact hpolled.wait name (.evaluations key)
      | stopAll call =>
          obtain ⟨hcall, hresumed⟩ := hpolled.resume call
          dsimp only
          rw [← Prod.eta (World.resume { w' with jobs := w'.jobs.erase name } call), hcall]
          exact hresumed.keepCall name _

/-! ### Deeds -/

theorem openBus (name : String) (capacity : Nat) :
    Alike v v' (w.doDeed (.openBus name capacity)).1 (w'.doDeed (.openBus name capacity)).1 ∧
      (w'.doDeed (.openBus name capacity)).2 = (w.doDeed (.openBus name capacity)).2 := by
  simp only [World.doDeed]
  cases hmade : Bus.new? capacity with
  | none => exact ⟨h.aside (by simp only [World.hushed, h.worlds]) rfl rfl rfl, rfl⟩
  | some made =>
      obtain ⟨hkey, hadd⟩ := h.addBus (new?_history hmade)
      refine ⟨?_, rfl⟩
      dsimp only
      rw [hkey]
      refine Alike.subscribe ?_ _ _
      exact hadd.shareBus name (Store.mem_keys_put _ _ _)

theorem unsubscribe (receiver : String) :
    Alike v v' { w with receivers := w.receivers.erase receiver }
        { w' with receivers := w'.receivers.erase receiver } ∧
      w'.receivers.has receiver = w.receivers.has receiver := by
  refine ⟨h.aside ?_ rfl rfl rfl, ?_⟩
  · simp only [World.hushed, h.worlds, Table.each_erase]
  · rw [← Table.has_each Subscription.hushed, ← Table.has_each Subscription.hushed w.receivers]
    simp only [h.worlds]

theorem doDeed (deed : WorldDeed) :
    Alike v v' (w.doDeed deed).1 (w'.doDeed deed).1 ∧
      (w'.doDeed deed).2.hushed = (w.doDeed deed).2.hushed := by
  have hanswer {r r' : World × Answer} (hr : Alike v v' r.1 r'.1 ∧ r'.2 = r.2) :
      Alike v v' r.1 r'.1 ∧ r'.2.hushed = r.2.hushed := ⟨hr.1, congrArg Answer.hushed hr.2⟩
  cases deed with
  | openBus name capacity => exact hanswer (h.openBus name capacity)
  | drain receiver => exact h.drain receiver
  | unsubscribe receiver =>
      obtain ⟨halike, hhas⟩ := h.unsubscribe receiver
      simp only [World.doDeed, hhas]
      exact ⟨halike, trivial⟩
  | stopAll registry job => exact hanswer (h.stopAll registry job)
  | waitDone handle job =>
      simp only [World.doDeed, h.worlds]
      cases w.handles.get? handle with
      | none => exact ⟨h, rfl⟩
      | some key => exact hanswer (h.wait job (.done key))
  | waitEvaluations handle job =>
      simp only [World.doDeed, h.worlds]
      cases w.handles.get? handle with
      | none => exact ⟨h, rfl⟩
      | some key => exact hanswer (h.wait job (.evaluations key))
  | poll job => exact hanswer (h.poll job)
  | dropJob job => exact hanswer (h.dropJob job)
  | complete index => exact hanswer (h.complete index)
  | forget index => exact hanswer (h.forget index)
  | dropHost name =>
      simp only [World.doDeed, h.worlds]
      split
      · exact ⟨h.unname name, rfl⟩
      · exact ⟨h, rfl⟩
  | now | thread | registry _ | contains _ _ | spawn _ =>
      simp only [World.doDeed, h.worlds, h.answers]
      exact ⟨h, trivial⟩
  | sleep _ | makeAvatar _ | dropAvatar _ | addPeer _ | removePeer _ | dropHandle _ =>
      simp only [World.doDeed, h.worlds]
      exact ⟨h.aside (by simp only [World.hushed, h.worlds]) rfl rfl rfl, trivial⟩

theorem post (key : Nat) (command : Command) :
    Alike v v' (w.post key command).1 (w'.post key command).1 ∧
      (w'.post key command).2 = (w.post key command).2 := by
  simp only [World.post, h.hosts]
  split
  · exact ⟨h.edit key (Host.post · command) fun _ => ⟨rfl, rfl⟩, rfl⟩
  · exact ⟨h, rfl⟩

theorem doHandleDeed (handle : String) (key : Nat) (deed : HandleDeed) :
    Alike v v' (w.doHandleDeed handle key deed).1 (w'.doHandleDeed handle key deed).1 ∧
      (w'.doHandleDeed handle key deed).2 = (w.doHandleDeed handle key deed).2 := by
  cases deed with
  | info =>
      simp only [World.doHandleDeed, h.answers, h.hosts]
      exact ⟨h, trivial⟩
  | stop => exact ⟨h.requestStop key, rfl⟩
  | subscribe receiver =>
      simp only [World.doHandleDeed, h.hosts]
      exact ⟨h.subscribe receiver _, trivial⟩
  | avatarData avatar =>
      simp only [World.doHandleDeed, h.worlds]
      exact h.post key _
  | invoke _ | nodeKilled _ | sound _ => exact h.post key _

theorem updateStreamer (key : Nat) (f : Streamer → Streamer) :
    Alike v v' (w.updateStreamer key f) (w'.updateStreamer key f) :=
  h.edit key (fun h => { h with streamer := f h.streamer }) fun _ => ⟨rfl, rfl⟩

theorem doHostDeed (key : Nat) (deed : HostDeed) :
    Alike v v' (w.doHostDeed key deed).1 (w'.doHostDeed key deed).1 ∧
      (w'.doHostDeed key deed).2 = (w.doHostDeed key deed).2 := by
  cases deed with
  | run | initialise => exact ⟨h, rfl⟩
  | stop => exact ⟨h.requestStop key, rfl⟩
  | setContents contents origin =>
      simp only [World.doHostDeed, h.hosts]
      split
      · exact ⟨h, rfl⟩
      · exact ⟨h.edit key (fun h => { h with script := ⟨contents, origin⟩ }) fun _ => ⟨rfl, rfl⟩,
          rfl⟩
  | loadUrl reference => exact h.loadUrl key reference
  | setParent parent =>
      exact ⟨h.edit key (fun h => { h with parent }) fun _ => ⟨rfl, rfl⟩, rfl⟩
  | avatarData avatar =>
      simp only [World.doHostDeed, h.worlds]
      exact ⟨h.updateStreamer key _, trivial⟩
  | nodeKilled peer => exact ⟨h.updateStreamer key fun s => s.peerGone peer, rfl⟩
  | subscribe receiver =>
      simp only [World.doHostDeed, h.hosts]
      exact ⟨h.subscribe receiver _, trivial⟩
  | info =>
      simp only [World.doHostDeed, World.hostReport, h.answers, h.hosts]
      exact ⟨h, trivial⟩

theorem setTimer (key : Nat) (callback : Callback) (milliseconds : Nat) (once : Bool) :
    (w'.setTimer key callback milliseconds once).1 =
        (w.setTimer key callback milliseconds once).1 ∧
      Alike v v' (w.setTimer key callback milliseconds once).2
        (w'.setTimer key callback milliseconds once).2 := by
  simp only [World.setTimer, h.answers, h.hosts, h.worlds]
  split
  · exact ⟨rfl, h⟩
  · exact ⟨rfl, h.setHost key (by simp only [Host.hushed, h.hosts]) rfl rfl⟩

theorem setNamedTimer (key : Nat) (name : String) (callback : Callback) (milliseconds : Nat)
    (once : Bool) :
    Alike v v' (w.setNamedTimer key name callback milliseconds once).1
        (w'.setNamedTimer key name callback milliseconds once).1 ∧
      (w'.setNamedTimer key name callback milliseconds once).2 =
        (w.setNamedTimer key name callback milliseconds once).2 := by
  obtain ⟨hid, hset⟩ := h.setTimer key callback milliseconds once
  simp only [World.setNamedTimer, hid]
  exact ⟨hset.aside (by simp only [World.hushed, hset.worlds]) rfl rfl rfl, trivial⟩

theorem doScriptDeed (key : Nat) (name : String) (deed : ScriptDeed) :
    Alike v v' (w.doScriptDeed key name deed).1 (w'.doScriptDeed key name deed).1 ∧
      (w'.doScriptDeed key name deed).2 = (w.doScriptDeed key name deed).2 := by
  cases deed with
  | timeout timer call ms => exact h.setNamedTimer key timer _ ms true
  | interval timer call ms => exact h.setNamedTimer key timer _ ms false
  | clear timer =>
      simp only [World.doScriptDeed, h.worlds, h.hosts]
      split
      · exact ⟨h.setHost key (by simp only [Host.hushed, h.hosts]) rfl rfl, rfl⟩
      · exact ⟨h, rfl⟩
  | timers =>
      simp only [World.doScriptDeed, h.hosts]
      exact ⟨h, trivial⟩
  | resolve reference =>
      simp only [World.doScriptDeed, h.answers]
      split <;> exact ⟨h, rfl⟩
  | includeAll references call =>
      cases call with
      | none => exact ⟨h, rfl⟩
      | some call =>
          obtain ⟨hurls, hresolved⟩ := h.resolveAll key references
          simp only [World.doScriptDeed, h.answers, hurls]
          split
          · exact ⟨h, rfl⟩
          · exact ⟨hresolved.fetch key _ _, rfl⟩
  | load reference => exact ⟨h.load key reference, rfl⟩
  | evaluate _ _ _ => exact ⟨h, rfl⟩
  | print text => exact ⟨h.publish key _ _, rfl⟩
  | stop => exact ⟨h.requestStop key, rfl⟩
  | connect signal call =>
      exact ⟨h.edit key (fun h => { h with signals := h.signals ++ [(signal, callback name call)] })
        fun _ => ⟨rfl, rfl⟩, rfl⟩
  | avatarMode on =>
      have hstreamer := h.updateStreamer key fun s => s.setAvatarMode on w.clock
      simp only [World.doScriptDeed, h.worlds, hstreamer.hosts]
      exact ⟨hstreamer, trivial⟩
  | listen on =>
      have hstreamer := h.updateStreamer key fun s => s.setListening on
      simp only [World.doScriptDeed, hstreamer.hosts]
      exact ⟨hstreamer, trivial⟩
  | sound pcm =>
      have hstreamer := h.updateStreamer key fun s => s.setSound pcm
      simp only [World.doScriptDeed, hstreamer.hosts]
      exact ⟨hstreamer, trivial⟩
  | avatarData avatar =>
      have hstreamer := h.updateStreamer key fun s => s.setAvatar (w.avatars.named? avatar)
      simp only [World.doScriptDeed, h.worlds, hstreamer.hosts, hstreamer.worlds]
      exact ⟨hstreamer, trivial⟩
  | handle handle =>
      simp only [World.doScriptDeed, and_true]
      exact h.aside (by simp only [World.hushed, h.worlds]) rfl rfl rfl
  | state =>
      simp only [World.doScriptDeed, World.scriptReport, h.answers, h.hosts, h.worlds]
      exact ⟨h, trivial⟩

theorem flushEdits (key : Nat) : Alike v v' (w.flushEdits key) (w'.flushEdits key) := by
  simp only [World.flushEdits, h.hosts]
  split
  · exact h.noteAll _
  · exact h

theorem streamTick (key : Nat) : Alike v v' (w.streamTick key) (w'.streamTick key) := by
  simp only [World.streamTick, h.hosts, h.worlds]
  split
  · refine Alike.noteAll ?_ _
    exact h.setHost key (by simp only [Host.hushed, h.hosts]) rfl rfl
  · exact h

end World.Alike

end TickHost
