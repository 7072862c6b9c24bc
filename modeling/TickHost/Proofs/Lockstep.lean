import TickHost.Proofs.Alike
import TickHost.Proofs.Sequels

/-!
Machines in step. A machine does the same in worlds that are alike. The outcome of the last script
or callback need not be the same in both, as long as nobody asks for it: there are tasks that read
the outcome, tasks that leave it to those after them, and tasks that bring an outcome of their own.
-/

namespace TickHost

/-- What a task does with the outcome that it finds. -/
inductive Hearing where
  | reads
  | keeps
  | makes
deriving DecidableEq

namespace Task

def hearing : Task → Hearing
  | report _ | announce _ | answerRun _ | answerOutcome _ => .reads
  | answer _ _ | release _ | leaveThread _ | initialise _ | directives _ _ _ | batch _ _ _
  | notify _ _ _ | drain _ | fire _ _ _ | lastFlush _ => .keeps
  | _ => .makes

/-- Whatever the outcome is, the tasks of an agenda make another one before they read it. -/
def Deaf : List Task → Prop
  | [] => True
  | t :: rest =>
      match t.hearing with
      | .reads => False
      | .keeps => Deaf rest
      | .makes => True

/-- Whether a task goes on calling callbacks. -/
def loops : Task → Bool
  | notify _ _ _ | drain _ | fire _ _ _ => true
  | _ => false

/-- The host whose callback a task calls. -/
def calls? : Task → Option Nat
  | call key _ _ => some key
  | _ => none

/-- A callback has returned to the loop that called it, and its host is about to look at the
outcome. -/
def Reports (key : Nat) : List Task → Prop
  | report host :: t :: _ => host = key ∧ t.loops = true
  | _ => False

/-- Callbacks are called by loops, and nobody reads the outcome of the last one of a loop. -/
def Tidy : List Task → Prop
  | [] => True
  | t :: rest =>
      (t.loops = true → Deaf rest) ∧ (∀ key, t.calls? = some key → Reports key rest) ∧ Tidy rest

theorem deaf_of_loops {t : Task} {rest : List Task} (hloops : t.loops = true)
    (htidy : Tidy (t :: rest)) : Deaf (t :: rest) := by
  have hdeaf := htidy.1 hloops
  cases t <;> first | exact hdeaf | cases hloops

/-- A task that neither is a loop nor calls a callback. -/
theorem Tidy.cons {t : Task} {rest : List Task} (hloops : t.loops = false)
    (hcalls : t.calls? = none) (hrest : Tidy rest) : Tidy (t :: rest) := by
  refine ⟨fun hloop => ?_, fun key hcall => ?_, hrest⟩
  · rw [hloops] at hloop
    cases hloop
  · rw [hcalls] at hcall
    cases hcall

/-- Tasks that neither are loops nor call callbacks, and read no outcome but their own. -/
structure Discreet (tasks : List Task) : Prop where
  quiet : ∀ t ∈ tasks, t.loops = false ∧ t.calls? = none
  deaf : ∀ rest, Deaf rest → Deaf (tasks ++ rest)

theorem Discreet.nil : Discreet [] :=
  ⟨nofun, fun _ hrest => hrest⟩

theorem Discreet.tidy {tasks rest : List Task} (h : Discreet tasks) (hrest : Tidy rest) :
    Tidy (tasks ++ rest) := by
  have hquiet := h.quiet
  clear h
  induction tasks with
  | nil => exact hrest
  | cons t tasks ih =>
      obtain ⟨hloops, hcalls⟩ := hquiet t List.mem_cons_self
      exact .cons hloops hcalls (ih fun t' ht' => hquiet t' (List.mem_cons_of_mem t ht'))

variable {v v' w w' : World} (h : World.Alike v v' w w')

/-! ### Actions -/

/-- A host that nobody uses leaves for a thread of its own. -/
def depart (w : World) (name : String) (key : Nat) : World × List Task :=
  let moved := { w.acquire key with
    names := w.names.erase name
    handles := w.handles.put name key
    thread := "script-" ++ toString (w.host key).id }
  (moved, (if moved.isStopping key || (moved.host key).running then [] else running key) ++
    [leaveThread w.thread, release key, answer "spawn" (.flag true)])

theorem spawn_eq (w : World) (name : String) :
    spawn w name =
      match w.names.get? name with
      | none => (w.note (.answered "spawn" (.missing .host)), [])
      | some key =>
          if 0 < (w.host key).users then (w.note (.answered "spawn" .busy), [])
          else depart (w.updateHost key fun h => { h with updates := 0 }) name key := by
  unfold spawn
  cases w.names.get? name with
  | none => rfl
  | some key =>
      dsimp only
      split <;> rfl

/-- An answer may show what was said, but otherwise it is the same. -/
theorem answered_alike {r r' : World × Answer} (halike : World.Alike v v' r.1 r'.1)
    (hanswer : r'.2.hushed = r.2.hushed) (action : String) :
    World.Alike v v' (r.1.note (.answered action r.2)) (r'.1.note (.answered action r'.2)) :=
  halike.note (by rw [Entry.hushed, Entry.hushed, hanswer])

section Start

include h

theorem run_alike (key : Nat) (after : List Task) :
    World.Alike v v' (run w key after).1 (run w' key after).1 ∧
      (run w' key after).2 = (run w key after).2 := by
  have hreset := h.edit key (fun h => { h with updates := 0 }) fun _ => ⟨rfl, rfl⟩
  simp only [run, hreset.answers, hreset.hosts]
  split
  · exact ⟨hreset.note rfl, rfl⟩
  · split
    · exact ⟨hreset.note rfl, rfl⟩
    · exact ⟨hreset.acquire key, rfl⟩

theorem depart_alike (name : String) (key : Nat) :
    World.Alike v v' (depart w name key).1 (depart w' name key).1 ∧
      (depart w' name key).2 = (depart w name key).2 := by
  have hacquired := h.acquire key
  have hmoved : World.Alike v v' (depart w name key).1 (depart w' name key).1 :=
    hacquired.aside (by simp only [World.hushed, depart, hacquired.worlds, h.worlds, h.hosts])
      rfl rfl rfl
  have htasks (w : World) : (depart w name key).2 =
      (if (depart w name key).1.isStopping key || ((depart w name key).1.host key).running then []
        else running key) ++
        [leaveThread w.thread, release key, answer "spawn" (.flag true)] := rfl
  refine ⟨hmoved, ?_⟩
  rw [htasks, htasks]
  simp only [hmoved.answers, hmoved.hosts, h.worlds]

theorem spawn_alike (name : String) :
    World.Alike v v' (spawn w name).1 (spawn w' name).1 ∧
      (spawn w' name).2 = (spawn w name).2 := by
  rw [spawn_eq, spawn_eq]
  simp only [h.worlds]
  cases w.names.get? name with
  | none => exact ⟨h.note rfl, rfl⟩
  | some key =>
      simp only [h.hosts]
      split
      · exact ⟨h.note rfl, rfl⟩
      · have hreset := h.edit key (fun h => { h with updates := 0 }) fun _ => ⟨rfl, rfl⟩
        exact depart_alike hreset name key

theorem startHostDeed_alike (key : Nat) (deed : HostDeed) :
    World.Alike v v' (startHostDeed w key deed).1 (startHostDeed w' key deed).1 ∧
      (startHostDeed w' key deed).2 = (startHostDeed w key deed).2 := by
  rcases startHostDeed_cases deed with rfl | rfl | hdone
  · exact run_alike h key _
  · exact ⟨h.acquire key, rfl⟩
  · obtain ⟨halike, hanswer⟩ := h.doHostDeed key deed
    rw [hdone, hdone]
    exact ⟨answered_alike halike (congrArg Answer.hushed hanswer) deed.name, rfl⟩

theorem startScriptDeed_alike (key : Nat) (name : String) (deed : ScriptDeed) :
    World.Alike v v' (startScriptDeed w key name deed).1 (startScriptDeed w' key name deed).1 ∧
      (startScriptDeed w' key name deed).2 = (startScriptDeed w key name deed).2 := by
  rcases startScriptDeed_cases deed with ⟨program, origin, line, rfl⟩ | ⟨references, rfl⟩ | hdone
  · exact ⟨h.acquire key, rfl⟩
  · obtain ⟨hurls, hresolved⟩ := h.resolveAll key references
    obtain ⟨hresults, hfetched⟩ := hresolved.fetchNow key (w.resolveAll key references).1
    simp only [startScriptDeed, h.answers, hurls, hresults]
    split
    · exact ⟨h.note rfl, rfl⟩
    · exact ⟨hfetched.acquire key, rfl⟩
  · obtain ⟨halike, hanswer⟩ := h.doScriptDeed key name deed
    rw [hdone, hdone]
    exact ⟨answered_alike halike (congrArg Answer.hushed hanswer) deed.name, rfl⟩

theorem start_alike (hkeys : w.hosts.keys = List.range w.hosts.length) (scope : Scope)
    (action : Action) :
    World.Alike v v' (start w scope action).1 (start w' scope action).1 ∧
      (start w' scope action).2 = (start w scope action).2 := by
  cases action with
  | build plan api =>
      obtain ⟨halike, hanswer⟩ := h.build hkeys plan api
      exact ⟨answered_alike halike (congrArg Answer.hushed hanswer) "build", rfl⟩
  | onWorld deed =>
      obtain ⟨halike, hanswer⟩ := h.doDeed deed
      have hdone := answered_alike halike hanswer deed.name
      cases deed with
      | spawn name => exact spawn_alike h name
      | openBus _ _ | drain _ | unsubscribe _ | sleep _ | now | thread | registry _
      | contains _ _ | stopAll _ _ | waitDone _ _ | waitEvaluations _ _ | poll _ | dropJob _
      | complete _ | forget _ | makeAvatar _ | dropAvatar _ | addPeer _ | removePeer _
      | dropHost _ | dropHandle _ => exact ⟨hdone, rfl⟩
  | onHandle handle deed =>
      simp only [start, h.worlds]
      cases w.handles.get? handle with
      | none => exact ⟨h.note rfl, rfl⟩
      | some key =>
          obtain ⟨halike, hanswer⟩ := h.doHandleDeed handle key deed
          exact ⟨answered_alike halike (congrArg Answer.hushed hanswer) deed.name, rfl⟩
  | onHost named deed =>
      simp only [start, h.worlds]
      split
      · split
        · exact startHostDeed_alike h _ deed
        · exact ⟨h.note rfl, rfl⟩
      · exact ⟨h.note rfl, rfl⟩
      · split
        · exact startHostDeed_alike h _ deed
        · exact ⟨h.note rfl, rfl⟩
  | inScript named deed =>
      simp only [start, h.worlds]
      split
      · split
        · exact startScriptDeed_alike h _ _ deed
        · exact ⟨h.note rfl, rfl⟩
      · exact ⟨h.note rfl, rfl⟩
      · exact startScriptDeed_alike h _ _ deed
  | give _ | throw _ => exact ⟨h, rfl⟩
  | unknown name => exact ⟨h.note rfl, rfl⟩

end Start

/-! ### What actions begin -/

theorem Begun.discreet {scope : Scope} {begun : List Task} (hbegun : Begun w scope begun) :
    Discreet begun := by
  cases hbegun with
  | nothing => exact .nil
  | _ => exact ⟨by simp [loops, calls?], by simp [Deaf, hearing]⟩

/-! ### Tasks -/

/-- Two reactions of a machine that has some tasks left go on in the same way. -/
structure ReactsAlike (v v' : World) (rest : List Task)
    (r r' : Reaction) : Prop where
  world : World.Alike v v' r.world r'.world
  next : r'.next = r.next
  outcome : r'.outcome = r.outcome ∨ Deaf (r.next ++ rest)

section React

variable {o o' : Outcome} {rest : List Task}

include h

theorem performOne_alike (hkeys : w.hosts.keys = List.range w.hosts.length) (scope : Scope)
    (actions : List Action) :
    ReactsAlike v v' rest (performOne w o scope actions) (performOne w' o' scope actions) := by
  cases actions with
  | nil => exact ⟨h, rfl, .inl rfl⟩
  | cons action actions =>
      obtain ⟨halike, htasks⟩ := start_alike h hkeys scope action
      have hfault (key : Nat) (message : String) :
          faultAt w' key scope.place message = faultAt w key scope.place message := by
        simp only [faultAt, h.hosts]
      simp only [performOne, hfault]
      split
      · exact ⟨h, rfl, .inl rfl⟩
      · exact ⟨h, rfl, .inl rfl⟩
      · refine ⟨halike, by rw [htasks], .inr ?_⟩
        rw [List.append_assoc]
        exact (start_begun w scope _).discreet.deaf _ trivial

theorem runDirective_alike (key : Nat) (origin : String) (line : Nat) (text : List Char) :
    World.Alike v v' (runDirective w key origin line text).world
        (runDirective w' key origin line text).world ∧
      (runDirective w' key origin line text).next = (runDirective w key origin line text).next ∧
      (runDirective w' key origin line text).outcome =
        (runDirective w key origin line text).outcome := by
  unfold runDirective
  dsimp only
  split
  · exact ⟨h, rfl, rfl⟩
  · exact ⟨h, rfl, rfl⟩
  · exact ⟨h, rfl, rfl⟩
  · exact ⟨h.publish key _ _, rfl, rfl⟩
  · exact ⟨h.load key _, rfl, rfl⟩
  · exact ⟨(h.setTimer key _ _ _).2, rfl, rfl⟩
  · exact ⟨(h.setTimer key _ _ _).2, rfl, rfl⟩
  · rw [h.worlds.1]
    exact ⟨h.updateStreamer key fun s => s.setAvatarMode _ w.clock, rfl, rfl⟩
  · exact ⟨h.requestStop key, rfl, rfl⟩
  · obtain ⟨hurls, hresolved⟩ := h.resolveAll key _
    obtain ⟨hresults, hfetched⟩ := hresolved.fetchNow key _
    rw [(h.answers.2.2.2 key).1]
    split
    · exact ⟨h, rfl, rfl⟩
    · rw [hurls, hresults]
      exact ⟨hfetched, rfl, rfl⟩

theorem runDirectives_alike (key : Nat) (origin : String) (lines : List (Nat × List Char))
    (ho : o' = o ∨ Deaf rest) :
    ReactsAlike v v' rest (runDirectives w o key origin lines)
      (runDirectives w' o' key origin lines) := by
  cases lines with
  | nil => exact ⟨h, rfl, ho⟩
  | cons first lines =>
      obtain ⟨halike, hnext, houtcome⟩ := runDirective_alike h key origin first.1 first.2
      simp only [runDirectives, houtcome]
      split
      · exact ⟨halike, hnext, .inl houtcome⟩
      · exact ⟨halike, by rw [hnext], .inl rfl⟩

theorem callBack_alike (key : Nat) (callback : Callback) (args : List Value) :
    ReactsAlike v v' rest (callBack w o key callback args) (callBack w' o' key callback args) := by
  cases callback with
  | guard =>
      have hcounted := h.edit key (fun h => h.countUpdate.2) fun _ => ⟨rfl, rfl⟩
      have hreached : (w'.host key).countUpdate.1 = (w.host key).countUpdate.1 := by
        simp only [Host.countUpdate, h.hosts]
      simp only [callBack, hreached]
      refine ⟨?_, rfl, .inl rfl⟩
      dsimp only
      split
      · exact hcounted.requestStop key
      · exact hcounted
  | native owner actions => exact ⟨h.note rfl, rfl, .inr trivial⟩
  | script function =>
      simp only [callBack, h.hosts]
      split
      · obtain ⟨halike, hnext, houtcome⟩ := runDirective_alike h key
          (w.host key).script.origin 0 function.toList
        exact ⟨halike, hnext, .inl houtcome⟩
      · have hfunctions (w : World) (entry : Entry) : (w.note entry).functions = w.functions := rfl
        simp only [hfunctions, h.worlds]
        split
        · exact ⟨h.note rfl, rfl, .inl rfl⟩
        · exact ⟨h.note rfl, rfl, .inr trivial⟩

theorem enterEngine_alike (key : Nat) (program origin : String) (line : Nat) :
    ReactsAlike v v' rest (enterEngine w o key program origin line)
      (enterEngine w' o' key program origin line) := by
  have hentered := h.edit key (fun h => { h with pending := h.pending + 1 }) fun _ => ⟨rfl, rfl⟩
  have hname : (w'.host key).name = (w.host key).name := by simp only [h.hosts]
  have hdirectives : (w'.host key).directives = (w.host key).directives := by simp only [h.hosts]
  have hprograms : w'.programs = w.programs := by simp only [h.worlds]
  unfold enterEngine
  dsimp only
  by_cases hlines : (w.host key).directives = true
  · have hlines' := hdirectives.trans hlines
    rw [if_pos hlines, if_pos hlines']
    exact ⟨hentered, rfl, .inl rfl⟩
  · have hlines' : ¬(w'.host key).directives = true := by rwa [hdirectives]
    have hnoted := hentered.note (congrArg Entry.hushed
      (congrArg (Entry.evaluated · program origin line) hname))
    rw [if_neg hlines, if_neg hlines']
    split
    · exact ⟨hnoted, rfl, .inl rfl⟩
    · have hkept (w : World) (g : Host) (entry : Entry) :
          ((w.setHost key g).note entry).programs = w.programs := rfl
      rw [hkept, hkept, hprograms]
      split
      · exact ⟨hnoted, rfl, .inl rfl⟩
      · exact ⟨hnoted, by rw [hname], .inr trivial⟩

theorem announceOutcome_alike (key : Nat) :
    World.Alike v v' (announceOutcome w o key) (announceOutcome w' o key) := by
  have hleft := h.edit key (fun h => { h with pending := h.pending - 1 }) fun _ => ⟨rfl, rfl⟩
  cases o with
  | returned v => exact hleft.publish key _ _
  | faulted f => exact (hleft.reportFault key f).publish key _ _
  | refused _ => exact hleft

theorem runBatch_alike (key : Nat) (results : FetchResults) (urls : List Url)
    (ho : o' = o ∨ Deaf rest) :
    ReactsAlike v v' rest (runBatch w o key results urls) (runBatch w' o' key results urls) := by
  cases urls with
  | nil => exact ⟨h, rfl, ho⟩
  | cons url urls =>
      unfold runBatch
      dsimp only
      split
      · exact ⟨h, rfl, .inr trivial⟩
      · exact ⟨h.publish key _ _, rfl, ho⟩

theorem drainOne_alike (key : Nat) (ho : o' = o ∨ Deaf rest) :
    ReactsAlike v v' rest (drainOne w o key) (drainOne w' o' key) := by
  have hcommands : (w'.host key).commands = (w.host key).commands := by simp only [h.hosts]
  unfold drainOne
  dsimp only
  rw [hcommands]
  cases (w.host key).commands with
  | nil =>
      simp only [h.hosts, h.worlds]
      exact ⟨h, rfl, ho⟩
  | cons command commands =>
      have htaken := h.edit key (fun h => { h with commands }) fun _ => ⟨rfl, rfl⟩
      cases command with
      | nodeKilled peer => exact ⟨htaken.updateStreamer key fun s => s.peerGone peer, rfl, ho⟩
      | avatarData avatar => exact ⟨htaken.updateStreamer key fun s => s.setAvatar avatar, rfl, ho⟩
      | sound pcm => exact ⟨htaken.updateStreamer key fun s => s.setSound pcm, rfl, ho⟩
      | includeReady urls callback results => exact ⟨htaken, rfl, .inr trivial⟩
      | task handle actions => exact ⟨htaken.note rfl, rfl, .inr trivial⟩

theorem fireOne_alike (key now : Nat) (due : List TimerId) (ho : o' = o ∨ Deaf rest) :
    ReactsAlike v v' rest (fireOne w o key now due) (fireOne w' o' key now due) := by
  have hfinished : (w'.host key).finished = (w.host key).finished := by simp only [h.hosts]
  have htimers : (w'.host key).timers = (w.host key).timers := by simp only [h.hosts]
  cases due with
  | nil => exact ⟨h, rfl, ho⟩
  | cons id due =>
      unfold fireOne
      dsimp only
      by_cases hover : (w.host key).finished = true
      · rw [if_pos hover, if_pos (hfinished.trans hover)]
        exact ⟨h, rfl, ho⟩
      · rw [if_neg hover, if_neg (by rwa [hfinished]), htimers]
        split
        · exact ⟨h, rfl, ho⟩
        · rename_i callback timers _
          exact ⟨h.edit key (fun h => { h with timers }) fun _ => ⟨rfl, rfl⟩, rfl, .inr trivial⟩

theorem initialise_alike (key : Nat) (ho : o' = o ∨ Deaf rest) :
    ReactsAlike v v' rest (react w o (initialise key)) (react w' o' (initialise key)) := by
  have hbegun := h.edit key (fun h => { h with initialized := true }) fun _ => ⟨rfl, rfl⟩
  have hname : (w'.host key).name = (w.host key).name := by simp only [h.hosts]
  have hapi : (w'.host key).api = (w.host key).api := by simp only [h.hosts]
  have hinitialized : (w'.host key).initialized = (w.host key).initialized := by
    simp only [h.hosts]
  have hdirectives : (w'.host key).directives = (w.host key).directives := by simp only [h.hosts]
  simp only [react]
  by_cases hdone : (w.host key).initialized = true
  · have hdone' := hinitialized.trans hdone
    rw [if_pos hdone, if_pos hdone']
    exact ⟨h, rfl, ho⟩
  · have hdone' : ¬(w'.host key).initialized = true := by rwa [hinitialized]
    rw [if_neg hdone, if_neg hdone']
    by_cases hlines : (w.host key).directives = true
    · have hlines' := hdirectives.trans hlines
      rw [if_pos hlines, if_pos hlines']
      exact ⟨hbegun, rfl, ho⟩
    · have hlines' : ¬(w'.host key).directives = true := by rwa [hdirectives]
      rw [if_neg hlines, if_neg hlines']
      exact ⟨hbegun.note (by rw [hname]), by rw [hname, hapi], .inr trivial⟩

/-- A machine goes on in worlds that are alike in the same way, if it has found the same outcome
or the outcome does not matter. -/
theorem react_alike (hkeys : w.hosts.keys = List.range w.hosts.length) {t : Task}
    (ho : o' = o ∨ Deaf (t :: rest)) : ReactsAlike v v' rest (react w o t) (react w' o' t) := by
  cases t with
  | perform scope actions => exact performOne_alike h hkeys scope actions
  | answer action a => exact ⟨h.note rfl, rfl, ho⟩
  | answerRun action =>
      obtain rfl := ho.resolve_right id
      exact ⟨h.note rfl, rfl, .inl rfl⟩
  | answerOutcome action =>
      obtain rfl := ho.resolve_right id
      exact ⟨h.note rfl, rfl, .inl rfl⟩
  | release key => exact ⟨h.release key, rfl, ho⟩
  | leaveThread previous =>
      refine ⟨h.aside ?_ rfl rfl rfl, rfl, ho⟩
      simp only [react, World.hushed, h.worlds]
  | evaluate key program origin line =>
      simp only [react, h.answers]
      split
      · exact ⟨h, rfl, .inl rfl⟩
      · exact ⟨h, rfl, .inr trivial⟩
  | engine key program origin line => exact enterEngine_alike h key program origin line
  | announce key =>
      obtain rfl := ho.resolve_right id
      exact ⟨announceOutcome_alike h key, rfl, .inl rfl⟩
  | initialise key => exact initialise_alike h key ho
  | report key =>
      obtain rfl := ho.resolve_right id
      simp only [react]
      split
      · exact ⟨h.reportFault key _, rfl, .inl rfl⟩
      · exact ⟨h, rfl, .inl rfl⟩
  | directives key origin lines => exact runDirectives_alike h key origin lines ho
  | give v => exact ⟨h, rfl, .inl rfl⟩
  | batch key urls results => exact runBatch_alike h key results urls ho
  | call key callback args => exact callBack_alike h key callback args
  | notify key callbacks args =>
      cases callbacks with
      | nil => exact ⟨h, rfl, ho⟩
      | cons callback callbacks => exact ⟨h, rfl, .inr trivial⟩
  | beginRun key => exact ⟨h.edit key Host.beginRun fun _ => ⟨rfl, rfl⟩, rfl, .inr trivial⟩
  | confirmRun key =>
      have hpublished := h.publish key .runningStateChanged .host
      have hended := (h.edit key Host.endRun fun _ => ⟨rfl, rfl⟩).edit key Host.markDone
        fun _ => ⟨rfl, rfl⟩
      simp only [react, h.answers, hpublished.hosts]
      split
      · exact ⟨hended, rfl, .inl rfl⟩
      · exact ⟨hpublished, rfl, .inr trivial⟩
  | startTicking key origin =>
      simp only [react, h.worlds]
      exact ⟨h, rfl, .inr trivial⟩
  | awaitTick key t =>
      simp only [react, awaitNext, h.hosts, h.worlds]
      split
      · exact ⟨h, rfl, .inr trivial⟩
      · refine ⟨?_, rfl, .inr trivial⟩
        exact h.aside (by simp only [World.hushed, h.worlds]) rfl rfl rfl
  | pump key t | flush key t | stream key t =>
      simp only [react, h.hosts]
      split
      · exact ⟨h, rfl, .inr trivial⟩
      · first
          | exact ⟨h, rfl, .inr trivial⟩
          | exact ⟨h.flushEdits key, rfl, .inr trivial⟩
          | exact ⟨h.streamTick key, rfl, .inr trivial⟩
  | drain key => exact drainOne_alike h key ho
  | fire key now due => exact fireOne_alike h key now due ho
  | update key t =>
      have hdelta : w'.clock = w.clock := by simp only [h.worlds]
      simp only [react, sendUpdate, hdelta]
      have hupdated := h.publish key (.update (Binary.Single.ofSeconds (w.clock - t.last))) .host
      simp only [h.hosts, hupdated.answers]
      split
      · exact ⟨h, rfl, .inr trivial⟩
      · exact ⟨hupdated, rfl, .inr trivial⟩
  | close key origin =>
      have hclosed := (h.edit key (fun h => { h with timers := h.timers.cancelAll.2 })
        fun _ => ⟨rfl, rfl⟩).publish key .scriptEnding .host
      simp only [react, closeRun, hclosed.answers]
      exact ⟨hclosed, rfl, .inr trivial⟩
  | lastFlush key => exact ⟨h.flushEdits key, rfl, ho⟩
  | finish key origin =>
      have hfinished := (h.publish key (.finished origin) .host).edit key Host.endRun
        fun _ => ⟨rfl, rfl⟩
      have hstopped := hfinished.publish key .runningStateChanged .host
      have hdone := (hstopped.publish key .doneRunning .host).edit key Host.markDone
        fun _ => ⟨rfl, rfl⟩
      exact ⟨hdone, rfl, .inl rfl⟩

end React

/-! ### The agenda -/

section Agenda

variable (w : World) (o : Outcome) {rest : List Task}

/-- Nobody but loops begins to call callbacks, and nobody begins to read the outcome of the last
callback of a loop. -/
theorem react_tidy {t : Task} (htidy : Tidy (t :: rest)) : Tidy ((react w o t).next ++ rest) := by
  obtain ⟨hdeaf, -, hrest⟩ := htidy
  have hsequel := react_sequel w o t
  generalize (react w o t).next = next at hsequel
  cases hsequel with
  | nothing => exact hrest
  | perform scope action actions hbegun =>
      rw [List.append_assoc]
      exact hbegun.discreet.tidy (.cons rfl rfl hrest)
  -- a loop that goes on leaves the tasks below it as deaf as they were
  | notify | drain | drained | drainInclude | drainTask | fire | pass =>
      simp [Tidy, Reports, loops, calls?, hdeaf rfl, hrest]
  | _ => simp [Tidy, loops, calls?, Deaf, hearing, hrest]

end Agenda

end Task

end TickHost
