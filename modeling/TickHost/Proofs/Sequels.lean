import TickHost.Proofs.Effects

/-!
How actions are begun and what tasks put on the agenda. An action is done at once, or it begins a
run, an evaluation or a batch, after which the host that it works on is given back. Every other task
goes on with a few tasks of fixed kinds. What an agenda looks like is shown of these lists, so that
no invariant of the agenda has to open the tasks again.
-/

namespace TickHost

open World

theorem World.publish_script (w : World) (key : Nat) (event : Event) (source : Source) :
    ((w.publish key event source).host key).script = (w.host key).script := by
  unfold publish
  dsimp only
  split
  · rfl
  · simp [host, setHost]

namespace Task

/-! Where actions go. -/

/-- What an owner does with a host is done at once, unless it runs scripts. -/
theorem startHostDeed_cases (deed : HostDeed) :
    deed = .run ∨ deed = .initialise ∨ ∀ (w : World) (key : Nat), startHostDeed w key deed =
      ((w.doHostDeed key deed).1.note (.answered deed.name (w.doHostDeed key deed).2), []) := by
  cases deed with
  | run => exact .inl rfl
  | initialise => exact .inr (.inl rfl)
  | stop | setContents _ _ | loadUrl _ | setParent _ | avatarData _ | nodeKilled _
  | subscribe _ | info => exact .inr (.inr fun _ _ => rfl)

/-- What a script does with its host is done at once, unless it runs scripts. -/
theorem startScriptDeed_cases (deed : ScriptDeed) :
    (∃ program origin line, deed = .evaluate program origin line) ∨
      (∃ references, deed = .includeAll references none) ∨
        ∀ (w : World) (key : Nat) (name : String), startScriptDeed w key name deed =
          ((w.doScriptDeed key name deed).1.note
            (.answered deed.name (w.doScriptDeed key name deed).2), []) := by
  cases deed with
  | evaluate program origin line => exact .inl ⟨program, origin, line, rfl⟩
  | includeAll references call =>
      cases call with
      | some call => exact .inr (.inr fun _ _ _ => rfl)
      | none => exact .inr (.inl ⟨references, rfl⟩)
  | timeout _ _ _ | interval _ _ _ | clear _ | timers | resolve _ | load _ | print _ | stop
  | connect _ _ | avatarMode _ | listen _ | sound _ | avatarData _ | handle _ | state =>
      exact .inr (.inr fun _ _ _ => rfl)

/-- How an action is begun: with the host that it names or belongs to, if there is one. -/
inductive Onset (w : World) (scope : Scope) : Action → World × List Task → Prop where
  | build (plan : HostPlan) (api : List Action) :
      Onset w scope (.build plan api)
        ((w.build plan api).1.note (.answered "build" (w.build plan api).2), [])
  | spawn (name : String) : Onset w scope (.onWorld (.spawn name)) (spawn w name)
  | onWorld (deed : WorldDeed) :
      Onset w scope (.onWorld deed)
        ((w.doDeed deed).1.note (.answered deed.name (w.doDeed deed).2), [])
  | onHandle (handle : String) (key : Nat) (deed : HandleDeed)
      (hhandle : w.handles.get? handle = some key) :
      Onset w scope (.onHandle handle deed)
        ((w.doHandleDeed handle key deed).1.note
          (.answered deed.name (w.doHandleDeed handle key deed).2), [])
  | onHost (named : Option String) (name : String) (key : Nat) (deed : HostDeed)
      (hname : w.names.get? name = some key) :
      Onset w scope (.onHost named deed) (startHostDeed w key deed)
  | inScript (named : Option String) (name : String) (key : Nat) (deed : ScriptDeed)
      (hserved : named.elim scope.host w.names.get? = some key) :
      Onset w scope (.inScript named deed) (startScriptDeed w key name deed)
  /-- Nobody is there. -/
  | answer (action : Action) (name : String) (a : Answer) :
      Onset w scope action (w.note (.answered name a), [])
  | nothing (action : Action) : Onset w scope action (w, [])

theorem start_onset (w : World) (scope : Scope) (action : Action) :
    Onset w scope action (start w scope action) := by
  cases action with
  | build plan api => exact .build plan api
  | give _ | throw _ => exact .nothing _
  | unknown name => exact .answer _ name .unknown
  | onWorld deed =>
      cases deed with
      | spawn name => exact .spawn name
      | openBus _ _ | drain _ | unsubscribe _ | sleep _ | now | thread | registry _
      | contains _ _ | stopAll _ _ | waitDone _ _ | waitEvaluations _ _ | poll _ | dropJob _
      | complete _ | forget _ | makeAvatar _ | dropAvatar _ | addPeer _ | removePeer _
      | dropHost _ | dropHandle _ => exact .onWorld _
  | onHandle handle deed =>
      unfold start
      dsimp only
      split
      · exact .onHandle handle _ deed ‹_›
      · exact .answer _ _ _
  | onHost named deed =>
      unfold start
      dsimp only
      split
      · split
        · exact .onHost _ _ _ deed ‹_›
        · exact .answer _ _ _
      · exact .answer _ _ _
      · split
        · exact .onHost _ _ _ deed ‹_›
        · exact .answer _ _ _
  | inScript named deed =>
      unfold start
      dsimp only
      split
      · split
        · exact .inScript _ _ _ deed ‹_›
        · exact .answer _ _ _
      · exact .answer _ _ _
      · exact .inScript _ _ _ deed ‹_›

/-- What an action of a script puts on the agenda. A script works on the host that it belongs to or
on one that has a name, and only a host that has a name and does not run yet is run. -/
inductive Begun (w : World) (scope : Scope) : List Task → Prop where
  | nothing : Begun w scope []
  | initialise (name : String) (key : Nat) (hname : w.names.get? name = some key) :
      Begun w scope [initialise key, answer "init" (.flag true), release key]
  | run (name : String) (key : Nat) (hname : w.names.get? name = some key)
      (hidle : (w.host key).running = false) :
      Begun w scope [initialise key, beginRun key, answerRun "run", release key]
  /-- A host runs on a thread of its own. -/
  | spawn (name : String) (key : Nat) (previous : String) (hname : w.names.get? name = some key)
      (hidle : (w.host key).running = false) :
      Begun w scope [initialise key, beginRun key, leaveThread previous, release key,
        answer "spawn" (.flag true)]
  /-- A host gets a thread of its own and does not run there. -/
  | leave (name : String) (key : Nat) (previous : String)
      (hname : w.names.get? name = some key) :
      Begun w scope [leaveThread previous, release key, answer "spawn" (.flag true)]
  | evaluate (key : Nat) (program origin : String) (line : Nat)
      (hserved : scope.host = some key ∨ ∃ name, w.names.get? name = some key) :
      Begun w scope [evaluate key program origin line, answerOutcome "evaluate", release key]
  | includeAll (key : Nat) (urls : List Url) (results : FetchResults)
      (hserved : scope.host = some key ∨ ∃ name, w.names.get? name = some key) :
      Begun w scope [batch key urls results, answer "include" .nothing, release key]

/-- What a task puts on the agenda, and under which condition. Any task may leave nothing to do. -/
inductive Sequel (w : World) : Task → List Task → Prop where
  | nothing (t : Task) : Sequel w t []
  | perform (scope : Scope) (action : Action) (actions : List Action) {begun : List Task}
      (hbegun : Begun w scope begun) :
      Sequel w (perform scope (action :: actions)) (begun ++ [perform scope actions])
  | evaluate (key : Nat) (program origin : String) (line : Nat)
      (hopen : w.isStopping key = false) :
      Sequel w (evaluate key program origin line)
        [initialise key, engine key program origin line, announce key]
  | program (key : Nat) (program origin : String) (line : Nat) (name : String)
      (actions : List Action) :
      Sequel w (engine key program origin line)
        [perform ⟨some key, name, .program origin line⟩ actions]
  | lines (key : Nat) (program origin : String) (line : Nat) :
      Sequel w (engine key program origin line)
        [directives key origin (Directive.linesOf program line)]
  | initialise (key : Nat) (name : String) (api : List Action) :
      Sequel w (initialise key) [perform ⟨some key, name, .host⟩ api, report key]
  | directive (key : Nat) (origin : String) (line : Nat × List Char)
      (lines : List (Nat × List Char)) :
      Sequel w (directives key origin (line :: lines)) [directives key origin lines]
  | includeAll (key : Nat) (origin : String) (line : Nat × List Char)
      (lines : List (Nat × List Char)) (urls : List Url) (results : FetchResults) :
      Sequel w (directives key origin (line :: lines))
        [batch key urls results, give .undefined, directives key origin lines]
  | contents (key : Nat) (url : Url) (urls : List Url) (results : FetchResults)
      (contents : String) :
      Sequel w (batch key (url :: urls) results)
        [evaluate key contents url.render 1, batch key urls results]
  | missing (key : Nat) (url : Url) (urls : List Url) (results : FetchResults) :
      Sequel w (batch key (url :: urls) results) [batch key urls results]
  | call (key : Nat) (callback : Callback) (args : List Value) (name : String)
      (actions : List Action) :
      Sequel w (call key callback args) [perform ⟨some key, name, .host⟩ actions]
  /-- A callback that is a directive asks for a batch. -/
  | callInclude (key : Nat) (callback : Callback) (args : List Value) (urls : List Url)
      (results : FetchResults) :
      Sequel w (call key callback args) [batch key urls results, give .undefined]
  | notify (key : Nat) (callback : Callback) (callbacks : List Callback) (args : List Value) :
      Sequel w (notify key (callback :: callbacks) args)
        [call key callback args, report key, notify key callbacks args]
  | beginRun (key : Nat) : Sequel w (beginRun key) [confirmRun key]
  | confirmRun (key : Nat) (hopen : w.isStopping key = false) :
      Sequel w (confirmRun key)
        [evaluate key (w.host key).script.contents (w.host key).script.origin 1,
          startTicking key (w.host key).script.origin]
  | startTicking (key : Nat) (origin : String) :
      Sequel w (startTicking key origin) [awaitTick key ⟨origin, w.clock, w.clock, 0⟩]
  | awaitTick (key : Nat) (ticking : Ticking) (frame : UInt32)
      (hlive : (w.host key).finished = false) :
      Sequel w (awaitTick key ticking) [pump key { ticking with frame }]
  /-- A ticking run finds that its host has stopped. -/
  | awaitStop (key : Nat) (ticking : Ticking) (hfinished : (w.host key).finished = true) :
      Sequel w (awaitTick key ticking) [close key ticking.origin]
  | pump (key : Nat) (ticking : Ticking) (hlive : (w.host key).finished = false) :
      Sequel w (pump key ticking) [drain key, flush key ticking]
  | pumpStop (key : Nat) (ticking : Ticking) (hfinished : (w.host key).finished = true) :
      Sequel w (pump key ticking) [close key ticking.origin]
  | drained (key : Nat) :
      Sequel w (drain key) [fire key w.clock ((w.host key).timers.due w.clock)]
  | drain (key : Nat) : Sequel w (drain key) [drain key]
  | drainInclude (key : Nat) (urls : List Url) (results : FetchResults) (callback : Callback) :
      Sequel w (drain key)
        [batch key urls results, call key callback [], report key, drain key]
  | drainTask (key : Nat) (handle : String) (actions : List Action) :
      Sequel w (drain key) [perform ⟨some key, handle, .host⟩ actions, drain key]
  | fire (key now : Nat) (id : TimerId) (due : List TimerId) (callback : Callback)
      (hlive : (w.host key).finished = false) :
      Sequel w (fire key now (id :: due))
        [call key callback [], report key, fire key now due]
  | pass (key now : Nat) (id : TimerId) (due : List TimerId)
      (hlive : (w.host key).finished = false) :
      Sequel w (fire key now (id :: due)) [fire key now due]
  | flush (key : Nat) (ticking : Ticking) (hlive : (w.host key).finished = false) :
      Sequel w (flush key ticking) [stream key ticking]
  | flushStop (key : Nat) (ticking : Ticking) (hfinished : (w.host key).finished = true) :
      Sequel w (flush key ticking) [close key ticking.origin]
  | stream (key : Nat) (ticking : Ticking) (hlive : (w.host key).finished = false) :
      Sequel w (stream key ticking) [update key ticking]
  | streamStop (key : Nat) (ticking : Ticking) (hfinished : (w.host key).finished = true) :
      Sequel w (stream key ticking) [close key ticking.origin]
  | update (key : Nat) (ticking : Ticking) (callbacks : List Callback) (args : List Value)
      (hlive : (w.host key).finished = false) :
      Sequel w (update key ticking)
        [notify key callbacks args, awaitTick key { ticking with last := w.clock }]
  | skip (key : Nat) (ticking : Ticking) (hfinished : (w.host key).finished = true) :
      Sequel w (update key ticking) [awaitTick key { ticking with last := w.clock }]
  | close (key : Nat) (origin : String) (callbacks : List Callback) :
      Sequel w (close key origin) [notify key callbacks [], lastFlush key, finish key origin]

/-! What actions begin. -/

section Begun

variable {w : World} {name : String} {key : Nat}

theorem run_begun (scope : Scope) (hname : w.names.get? name = some key) :
    Begun w scope (run w key [answerRun "run"]).2 := by
  unfold run
  dsimp only
  split
  · exact .nothing
  · split
    · exact .nothing
    · rename_i hidle
      rw [host_updateHost, if_pos rfl] at hidle
      exact .run name key hname (by simpa using hidle)

theorem spawn_begun (w : World) (scope : Scope) (name : String) :
    Begun w scope (spawn w name).2 := by
  unfold spawn
  split
  · exact .nothing
  · rename_i key hname
    split
    · exact .nothing
    · dsimp only
      split
      · exact .leave name key w.thread hname
      · rename_i hidle
        refine .spawn name key w.thread hname ?_
        simp only [Bool.or_eq_true, not_or, Bool.not_eq_true] at hidle
        have hrunning := hidle.2
        simp only [host, acquire, updateHost, setHost, Store.get_put, if_true] at hrunning
        exact hrunning

theorem startHostDeed_begun (scope : Scope) (hname : w.names.get? name = some key)
    (deed : HostDeed) : Begun w scope (startHostDeed w key deed).2 := by
  rcases startHostDeed_cases deed with rfl | rfl | hdone
  · exact run_begun scope hname
  · exact .initialise name key hname
  · rw [hdone]
    exact .nothing

theorem startScriptDeed_begun {scope : Scope} {named : Option String}
    (hserved : named.elim scope.host w.names.get? = some key) (name : String)
    (deed : ScriptDeed) : Begun w scope (startScriptDeed w key name deed).2 := by
  have hserved : scope.host = some key ∨ ∃ name, w.names.get? name = some key := by
    cases named with
    | none => exact .inl hserved
    | some name => exact .inr ⟨name, hserved⟩
  rcases startScriptDeed_cases deed with ⟨program, origin, line, rfl⟩ | ⟨references, rfl⟩ | hdone
  · exact .evaluate key program origin line hserved
  · unfold startScriptDeed
    dsimp only
    split
    · exact .nothing
    · exact .includeAll key _ _ hserved
  · rw [hdone]
    exact .nothing

theorem start_begun (w : World) (scope : Scope) (action : Action) :
    Begun w scope (start w scope action).2 := by
  have honset := start_onset w scope action
  generalize start w scope action = started at honset
  cases honset with
  | spawn name => exact spawn_begun w scope name
  | onHost named name key deed hname => exact startHostDeed_begun scope hname deed
  | inScript named name key deed hserved => exact startScriptDeed_begun hserved name deed
  | _ => exact .nothing

end Begun

/-! What tasks go on with. -/

section Sequel

variable (w : World) (o : Outcome) (key : Nat)

theorem performOne_sequel (scope : Scope) (actions : List Action) :
    Sequel w (perform scope actions) (performOne w o scope actions).next := by
  cases actions with
  | nil => exact .nothing _
  | cons action rest =>
      have hbegun := start_begun w scope action
      simp only [performOne]
      split
      · exact .nothing _
      · exact .nothing _
      · exact .perform scope _ rest hbegun

theorem enterEngine_sequel (program origin : String) (line : Nat) :
    Sequel w (engine key program origin line) (enterEngine w o key program origin line).next := by
  unfold enterEngine
  dsimp only
  split
  · exact .lines key program origin line
  · split
    · exact .nothing _
    · split
      · exact .nothing _
      · exact .program key program origin line _ _

/-- A directive leaves nothing to do, or it asks for a batch and does not fault. -/
theorem runDirective_asks (origin : String) (line : Nat) (text : List Char) :
    (runDirective w key origin line text).next = [] ∨
      (runDirective w key origin line text).outcome = .returned .undefined ∧ ∃ urls results,
        (runDirective w key origin line text).next =
          [batch key urls results, give .undefined] := by
  unfold runDirective
  dsimp only
  split <;> try exact .inl rfl
  split
  · exact .inl rfl
  · exact .inr ⟨rfl, _, _, rfl⟩

theorem runDirectives_sequel (origin : String) (lines : List (Nat × List Char)) :
    Sequel w (directives key origin lines) (runDirectives w o key origin lines).next := by
  cases lines with
  | nil => exact .nothing _
  | cons first rest =>
      have hnext := runDirective_asks w key origin first.1 first.2
      simp only [runDirectives]
      split
      · rename_i hfault
        rcases hnext with hnone | ⟨hreturned, -⟩
        · rw [hnone]
          exact .nothing _
        · cases hreturned.symm.trans hfault
      · rcases hnext with hnone | ⟨-, urls, results, hsome⟩
        · rw [hnone]
          exact .directive key origin first rest
        · rw [hsome]
          exact .includeAll key origin first rest urls results

theorem callBack_sequel (callback : Callback) (args : List Value) :
    Sequel w (call key callback args) (callBack w o key callback args).next := by
  unfold callBack
  dsimp only
  split
  · exact .nothing _
  · exact .call key _ args _ _
  · split
    · rename_i function _
      rcases runDirective_asks w key (w.host key).script.origin 0 function.toList with
        hnone | ⟨-, urls, results, hsome⟩
      · rw [hnone]
        exact .nothing _
      · rw [hsome]
        exact .callInclude key _ args urls results
    · split
      · exact .nothing _
      · exact .call key _ args _ _

theorem runBatch_sequel (urls : List Url) (results : FetchResults) :
    Sequel w (batch key urls results) (runBatch w o key results urls).next := by
  cases urls with
  | nil => exact .nothing _
  | cons url rest =>
      simp only [runBatch]
      split
      · exact .contents key url rest results _
      · exact .missing key url rest results

theorem drainOne_sequel : Sequel w (drain key) (drainOne w o key).next := by
  unfold drainOne
  dsimp only
  split
  · exact .drained key
  · split
    · exact .drain key
    · exact .drain key
    · exact .drain key
    · exact .drainInclude key _ _ _
    · exact .drainTask key _ _

theorem fireOne_sequel (now : Nat) (due : List TimerId) :
    Sequel w (fire key now due) (fireOne w o key now due).next := by
  cases due with
  | nil => exact .nothing _
  | cons id rest =>
      simp only [fireOne]
      split
      · exact .nothing _
      · rename_i hlive
        have hlive : (w.host key).finished = false := by simpa using hlive
        split
        · exact .pass key now id rest hlive
        · exact .fire key now id rest _ hlive

/-- Each task goes on with a sequel of its own. -/
theorem react_sequel (t : Task) : Sequel w t (react w o t).next := by
  cases t with
  | perform scope actions => exact performOne_sequel w o scope actions
  | answer _ _ | answerRun _ | answerOutcome _ | release _ | leaveThread _ | announce _ | give _
  | lastFlush _ | finish _ _ => exact .nothing _
  | evaluate key program origin line =>
      simp only [react]
      cases hstopping : w.isStopping key with
      | true => exact .nothing _
      | false => exact .evaluate key program origin line hstopping
  | engine key program origin line => exact enterEngine_sequel w o key program origin line
  | initialise key =>
      simp only [react]
      split
      · exact .nothing _
      · split
        · exact .nothing _
        · exact .initialise key _ _
  | report key =>
      simp only [react]
      split <;> exact .nothing _
  | directives key origin lines => exact runDirectives_sequel w o key origin lines
  | batch key urls results => exact runBatch_sequel w o key urls results
  | call key callback args => exact callBack_sequel w o key callback args
  | notify key callbacks args =>
      cases callbacks with
      | nil => exact .nothing _
      | cons callback callbacks => exact .notify key callback callbacks args
  | beginRun key => exact .beginRun key
  | confirmRun key =>
      simp only [react]
      cases hstopping : w.isStopping key with
      | true => exact .nothing _
      | false =>
          simp only [publish_script, Bool.false_eq_true, if_false]
          exact .confirmRun key hstopping
  | startTicking key origin => exact .startTicking key origin
  | awaitTick key ticking =>
      simp only [react, awaitNext]
      cases hfinished : (w.host key).finished with
      | true => exact .awaitStop key ticking hfinished
      | false => exact .awaitTick key ticking _ hfinished
  | pump key ticking =>
      simp only [react]
      cases hfinished : (w.host key).finished with
      | true => exact .pumpStop key ticking hfinished
      | false => exact .pump key ticking hfinished
  | drain key => exact drainOne_sequel w o key
  | fire key now due => exact fireOne_sequel w o key now due
  | flush key ticking =>
      simp only [react]
      cases hfinished : (w.host key).finished with
      | true => exact .flushStop key ticking hfinished
      | false => exact .flush key ticking hfinished
  | stream key ticking =>
      simp only [react]
      cases hfinished : (w.host key).finished with
      | true => exact .streamStop key ticking hfinished
      | false => exact .stream key ticking hfinished
  | update key ticking =>
      simp only [react, sendUpdate]
      cases hfinished : (w.host key).finished with
      | true => exact .skip key ticking hfinished
      | false => exact .update key ticking _ _ hfinished
  | close key origin => exact .close key origin _

end Sequel

/-! What is put on the agenda is about hosts that were built, and is plain or a new run. -/

variable {w : World} {o : Outcome} {key : Nat}

theorem has_of_served (hlinked : w.Linked) {scope : Scope}
    (hscope : ∀ key, scope.host = some key → w.Has key)
    (hserved : scope.host = some key ∨ ∃ name, w.names.get? name = some key) : w.Has key :=
  hserved.elim (hscope key) fun ⟨name, hname⟩ => hlinked.names name key hname

theorem Follows.keysIn {next : List Task} (hfollows : Follows w next) : KeysIn w next := by
  cases hfollows with
  | plain _ hnext => exact hnext
  | run key after hkey _ _ hafter =>
      have hstart : KeysIn w [initialise key, Task.beginRun key] :=
        .of_host hkey (by simp [host?])
      exact hstart.append hafter

theorem Begun.follows (hlinked : w.Linked) {scope : Scope}
    (hscope : ∀ key, scope.host = some key → w.Has key) {begun : List Task}
    (hbegun : Begun w scope begun) : Follows w begun := by
  cases hbegun with
  | nothing => exact .nil
  | run name key hname hidle | spawn name key previous hname hidle =>
      have hkey : w.Has key := hlinked.names name key hname
      exact .run key _ hkey hidle rfl (.of_host hkey (by simp [host?]))
  | initialise name key hname | leave name key previous hname =>
      exact .plain rfl (.of_host (hlinked.names name key hname) (by simp [host?]))
  | evaluate key program origin line hserved | includeAll key urls results hserved =>
      have hkey := has_of_served hlinked hscope hserved
      exact .plain rfl (.of_host hkey (by simp [host?]))

/-- Whatever tasks put on the agenda is about hosts that were built. -/
theorem react_keysIn (hlinked : w.Linked) {t : Task}
    (hkeys : ∀ key, t.host? = some key → w.Has key) : KeysIn w (react w o t).next := by
  have hsequel := react_sequel w o t
  generalize (react w o t).next = next at hsequel
  cases hsequel with
  | nothing => exact .nil
  | perform scope action actions hbegun =>
      have hscript : KeysIn w [perform scope actions] := by simpa [KeysIn, host?] using hkeys
      exact (hbegun.follows hlinked hkeys).keysIn.append hscript
  | _ => exact .of_host (hkeys _ rfl) (by simp [host?])

/-- Inside the engine there are only plain tasks. -/
theorem engine_follows (hkey : w.Has key) (program origin : String) (line : Nat) :
    (react w o (.engine key program origin line)).next.all isPlain = true ∧
      KeysIn w (react w o (.engine key program origin line)).next := by
  have hsequel := enterEngine_sequel w o key program origin line
  simp only [react]
  generalize (enterEngine w o key program origin line).next = next at hsequel
  cases hsequel with
  | nothing => exact ⟨rfl, .nil⟩
  | program | lines => exact ⟨rfl, .of_host hkey (by simp [host?])⟩

/-! How runs come onto the agenda. -/

variable {pre post : List Task}

theorem eq_of_begins {k : Nat} {after : List Task} (hafter : beginRun key ∉ after)
    (hlist : initialise k :: beginRun k :: after = pre ++ beginRun key :: post) :
    k = key ∧ pre = [initialise key] ∧ post = after := by
  rcases pre with _ | ⟨first, _ | ⟨second, pre⟩⟩
  · cases hlist
  · cases hlist
    exact ⟨rfl, rfl, rfl⟩
  · cases hlist
    exact absurd (by simp) hafter

/-- A run is begun by an action on a host that has a name, behind the set-up of its script engine,
and the host is given back after it. -/
theorem begins_of_pushes {t : Task} (hnext : (react w o t).next = pre ++ beginRun key :: post) :
    pre = [initialise key] ∧ (∃ name, w.names.get? name = some key) ∧ release key ∈ post := by
  have hsequel := react_sequel w o t
  generalize (react w o t).next = next at hsequel hnext
  have hmem : beginRun key ∈ next := by
    rw [hnext]
    simp
  cases hsequel with
  | perform scope action actions hbegun =>
      cases hbegun with
      | run name k hname | spawn name k previous hname =>
          obtain ⟨rfl, hpre, hpost⟩ := eq_of_begins (by simp) hnext
          exact ⟨hpre, ⟨name, hname⟩, by simp [hpost]⟩
      | _ => simp at hmem
  | _ => simp at hmem

end Task

end TickHost
