import Mathlib.Data.List.Nodup
import TickHost.Proofs.Spans
import TickHost.Proofs.Touches

/-!
Requests of owners for source texts and the fetches that they leave behind. A request is accepted
unless its host runs. It gives the host a label at once, and a text if there is one; otherwise a
fetch may be kept, which supplies the text when it is answered. Kept fetches are answered and given
up in any order, so the history of each is followed from the step in which it was kept.
-/

namespace TickHost

open World Machine

/-- The text that a batch was asked for, if it came. -/
def FetchResults.text? (results : FetchResults) (urls : List Url) : Option String :=
  match urls.head?.bind results.get? with
  | some (.ok text) => some text
  | _ => none

/-- What an owner means by a reference to a source text. -/
def Url.ofSource (reference : String) : Url :=
  match Url.parse? reference with
  | some url => if 1 < url.scheme.length then url else Url.ofPathText reference
  | none => Url.ofPathText reference

/-- The host of the fetch gets its source text from it. -/
def KeptFetch.loads (f : KeptFetch) (key : Nat) : Bool :=
  f.host = key && match f.purpose with
    | .script => true
    | .includeAll _ => false

namespace HostDeed

/-- The label under which an owner asks for a source text. Files go by their paths. -/
def label? : HostDeed → Option String
  | setContents _ origin => some origin
  | loadUrl reference =>
      let url := Url.ofSource reference
      some <| if url.scheme = "file" then
          (url.toPath?.map fun path => String.ofList (Utf8.decodeLossy path)).getD reference
        else reference
  | _ => none

/-- The text that an owner gets without having to wait. -/
def text? (w : World) (key : Nat) : HostDeed → Option String
  | setContents contents _ => some contents
  | loadUrl reference =>
      let url := Url.ofSource reference
      if url.scheme = "file" then url.toPath?.bind fun path => (w.disk.readText path).toOption
      else (w.host key).fetcher.bind fun fetcher =>
        if fetcher.silent || fetcher.deferred then none
        else (fetcher.results w.disk w.remote [url]).text? [url]
  | _ => none

end HostDeed

namespace World

/-- The host that an owner acts on: the one of a name, or of the name that the caller goes by. -/
def owned? (w : World) (scope : Scope) (named : Option String) : Option Nat :=
  (named.or (scope.host.map fun _ => scope.name)).bind w.names.get?

variable (w : World) (key : Nat)

/-- A text that arrives is reported under the label that the host has by now. -/
theorem scriptArrived_script (urls : List Url) (results : FetchResults) :
    ((w.scriptArrived key urls results).host key).script =
      ⟨(results.text? urls).getD (w.host key).script.contents, (w.host key).script.origin⟩ := by
  have hpublish : ∀ (w' : World) (event : Event) (source : Source),
      ((w'.publish key event source).host key).script = (w'.host key).script :=
    fun w' event source => publish_keeps (a := .script key) w' key event source
  unfold scriptArrived FetchResults.text?
  dsimp only
  cases urls.head?.bind results.get? with
  | none => exact hpublish _ _ _
  | some result =>
      cases result with
      | error _ => exact hpublish _ _ _
      | ok text =>
          dsimp only
          rw [hpublish, host_updateHost, if_pos rfl]
          rfl

theorem loadFile_script (url : Url) (reference : String)
    (horigin : (w.host key).script.origin = reference) :
    ((w.loadFile key url reference).host key).script =
      ⟨(url.toPath?.bind fun path => (w.disk.readText path).toOption).getD
          (w.host key).script.contents,
        (url.toPath?.map fun path => String.ofList (Utf8.decodeLossy path)).getD reference⟩ := by
  have hpublish : ∀ (w' : World) (event : Event) (source : Source),
      ((w'.publish key event source).host key).script = (w'.host key).script :=
    fun w' event source => publish_keeps (a := .script key) w' key event source
  unfold loadFile
  cases url.toPath? with
  | none =>
      dsimp only
      rw [hpublish, ← horigin]
      rfl
  | some path =>
      dsimp only [Option.bind_some, Option.map_some, Option.getD_some]
      cases w.disk.readText path with
      | ok contents =>
          dsimp only
          rw [hpublish, host_updateHost, if_pos rfl]
          rfl
      | error fault =>
          dsimp only
          rw [hpublish, host_updateHost, if_pos rfl]
          rfl

theorem unconfigured_text? (url : Url) : (FetchResults.unconfigured [url]).text? [url] = none := by
  have hfound : (FetchResults.unconfigured [url]).get? url =
      some (.error (.io url.render "no fetcher configured")) := List.lookup_cons_self
  rw [FetchResults.text?, List.head?_cons, Option.bind_some, hfound]

theorem fetch_script (url : Url) : ((w.fetch key [url] .script).host key).script =
    ⟨((w.host key).fetcher.bind fun fetcher =>
        if fetcher.silent || fetcher.deferred then none
        else (fetcher.results w.disk w.remote [url]).text? [url]).getD
          (w.host key).script.contents,
      (w.host key).script.origin⟩ := by
  cases hfetcher : (w.host key).fetcher with
  | none =>
      simp only [fetch, hfetcher, answerFetch]
      rw [scriptArrived_script, unconfigured_text?]
      rfl
  | some fetcher =>
      simp only [fetch, hfetcher, answerFetch, Option.bind_some]
      cases fetcher.silent with
      | true => rfl
      | false =>
          cases fetcher.deferred with
          | true => rfl
          | false =>
              simp only [Bool.false_eq_true, if_false, Bool.or_false]
              rw [scriptArrived_script]
              rfl

/-- The label is written before anything is read or fetched. -/
theorem loadUrl_eq (hidle : (w.host key).running = false) (reference : String) :
    w.loadUrl key reference =
      let asked := w.updateHost key fun h => { h with script := ⟨h.script.contents, reference⟩ }
      if (Url.ofSource reference).scheme = "file" then
        (asked.loadFile key (Url.ofSource reference) reference, .done)
      else (asked.fetch key [Url.ofSource reference] .script, .done) := by
  rw [loadUrl, hidle]
  rfl

theorem loadUrl_script (hidle : (w.host key).running = false) (reference : String) {label : String}
    (hlabel : (HostDeed.loadUrl reference).label? = some label) :
    ((w.loadUrl key reference).1.host key).script =
      ⟨((HostDeed.loadUrl reference).text? w key).getD (w.host key).script.contents, label⟩ := by
  simp only [HostDeed.label?, Option.some.injEq] at hlabel
  rw [loadUrl_eq w key hidle]
  simp only [HostDeed.text?]
  by_cases hfile : (Url.ofSource reference).scheme = "file"
  · rw [if_pos hfile] at hlabel
    rw [if_pos hfile, if_pos hfile, ← hlabel]
    dsimp only
    rw [loadFile_script _ _ _ _ (by rw [host_updateHost, if_pos rfl]), host_updateHost,
      if_pos rfl]
    rfl
  · rw [if_neg hfile] at hlabel
    rw [if_neg hfile, if_neg hfile, ← hlabel]
    dsimp only
    rw [fetch_script, host_updateHost, if_pos rfl]
    rfl

/-- An accepted request sets the label, and the text if there is one already. -/
theorem doHostDeed_script (hidle : (w.host key).running = false) {deed : HostDeed} {label : String}
    (hlabel : deed.label? = some label) : ((w.doHostDeed key deed).1.host key).script =
      ⟨(deed.text? w key).getD (w.host key).script.contents, label⟩ := by
  cases deed with
  | setContents contents origin =>
      cases hlabel
      simp only [doHostDeed, hidle, Bool.false_eq_true, if_false]
      rw [host_updateHost, if_pos rfl]
      rfl
  | loadUrl reference => exact loadUrl_script w key hidle reference hlabel
  | _ => cases hlabel

/-- A request that comes while the host runs changes nothing. -/
theorem doHostDeed_refused (hrunning : (w.host key).running = true) {deed : HostDeed}
    {label : String} (hlabel : deed.label? = some label) :
    w.doHostDeed key deed = (w, .refused .alreadyRunning) := by
  cases deed with
  | setContents contents origin => simp [doHostDeed, hrunning]
  | loadUrl reference => simp [doHostDeed, loadUrl, hrunning]
  | _ => cases hlabel

/-- What an owner does to one host leaves the source texts of others alone. -/
theorem doHostDeed_keeps_script {other : Nat} (hne : other ≠ key) (deed : HostDeed) :
    w.Keeps (.script other) (w.doHostDeed key deed).1 := by
  have hother : Aspect.script other ≠ .script key := by simpa using hne
  cases deed with
  | setContents contents origin =>
      simp only [doHostDeed]
      split
      · exact .refl w
      · exact .rewrite hother _
  | loadUrl reference => exact loadUrl_keeps w key (by simp) hother reference
  | _ => exact doHostDeed_keeps w key rfl

/-! The fetches that are kept. -/

theorem fetch_fetches (urls : List Url) (purpose : FetchPurpose) :
    (w.fetch key urls purpose).fetches = w.fetches ∨ ∃ fetcher,
      (w.fetch key urls purpose).fetches = w.fetches ++ [⟨key, fetcher, urls, purpose⟩] := by
  have hanswer : ∀ (w' : World) (results : FetchResults),
      (w'.answerFetch key urls purpose results).fetches = w'.fetches :=
    fun w' results => answerFetch_keeps (a := .fetches) w' key urls purpose results nofun
  unfold fetch
  split
  · exact .inl (hanswer w _)
  · rename_i fetcher _
    dsimp only
    split
    · exact .inl rfl
    · split
      · exact .inr ⟨fetcher, rfl⟩
      · exact .inl (hanswer _ _)

theorem loadUrl_fetches (reference : String) :
    (w.loadUrl key reference).1.fetches = w.fetches ∨ (w.host key).running = false ∧ ∃ f,
      (w.loadUrl key reference).1.fetches = w.fetches ++ [f] ∧ f.host = key := by
  cases hrunning : (w.host key).running with
  | true =>
      rw [loadUrl, hrunning]
      exact .inl rfl
  | false =>
      rw [loadUrl_eq w key hrunning]
      dsimp only
      split
      · exact .inl (loadFile_keeps (a := .fetches) _ key nofun _ _)
      · rcases fetch_fetches (w.updateHost key fun h =>
          { h with script := ⟨h.script.contents, reference⟩ }) key [Url.ofSource reference]
          .script with hsame | ⟨fetcher, hkept⟩
        · exact .inl hsame
        · exact .inr ⟨rfl, _, hkept, rfl⟩

theorem complete_fetches (index : Nat) :
    (w.complete index).1.fetches = w.fetches.eraseIdx index := by
  unfold complete
  split
  · rename_i hnone
    rw [List.eraseIdx_of_length_le (by simpa using hnone)]
  · exact answerFetch_keeps (a := .fetches) _ _ _ _ _ nofun

theorem forget_fetches (index : Nat) :
    (w.forget index).1.fetches = w.fetches.eraseIdx index := by
  unfold World.forget
  split
  · rename_i hnone
    rw [List.eraseIdx_of_length_le (by simpa using hnone)]
  · rfl

theorem includeAll_fetches (name : String) (references : List String) (call : Call) :
    (w.doScriptDeed key name (.includeAll references (some call))).1.fetches = w.fetches ∨ ∃ f,
      (w.doScriptDeed key name (.includeAll references (some call))).1.fetches = w.fetches ++ [f] ∧
        ∀ other, f.loads other = false := by
  simp only [doScriptDeed]
  split
  · exact .inl rfl
  · have hresolve : (w.resolveAll key references).2.fetches = w.fetches :=
      resolveAll_keeps (a := .fetches) w key references
    rcases fetch_fetches (w.resolveAll key references).2 key (w.resolveAll key references).1
      (.includeAll (callback name call)) with hsame | ⟨fetcher, hkept⟩
    · exact .inl (hsame.trans hresolve)
    · refine .inr ⟨_, hkept.trans (by rw [hresolve]), fun other => ?_⟩
      simp [KeptFetch.loads]

/-! What a single step does. -/

theorem start_onHost {w : World} {scope : Scope} {named : Option String} {key : Nat}
    (howned : w.owned? scope named = some key) (deed : HostDeed) :
    Task.start w scope (.onHost named deed) = Task.startHostDeed w key deed := by
  cases named with
  | some name =>
      have hname : w.names.get? name = some key := howned
      simp [Task.start, hname]
  | none =>
      cases hhost : scope.host with
      | none => simp [owned?, hhost] at howned
      | some caller =>
          have hname : w.names.get? scope.name = some key := by simpa [owned?, hhost] using howned
          simp [Task.start, hhost, hname]

theorem start_onHost_none {w : World} {scope : Scope} {named : Option String}
    (hnobody : w.owned? scope named = none) (deed : HostDeed) : ∃ a,
    Task.start w scope (.onHost named deed) = (w.note (.answered deed.name a), []) := by
  cases named with
  | some name =>
      have hname : w.names.get? name = none := hnobody
      exact ⟨.missing .host, by simp [Task.start, hname]⟩
  | none =>
      cases hhost : scope.host with
      | none => exact ⟨.missing .host, by simp [Task.start, hhost]⟩
      | some caller =>
          have hname : w.names.get? scope.name = none := by simpa [owned?, hhost] using hnobody
          exact ⟨.unknown, by simp [Task.start, hhost, hname]⟩

/-- A request is done at once. -/
theorem startHostDeed_of_label (w : World) (key : Nat) {deed : HostDeed} {label : String}
    (hlabel : deed.label? = some label) : Task.startHostDeed w key deed =
      ((w.doHostDeed key deed).1.note (.answered deed.name (w.doHostDeed key deed).2), []) := by
  cases deed <;> first | rfl | cases hlabel

/-- An answer that comes for a host brings its text, and the host keeps its label. -/
theorem complete_script (w : World) (key index : Nat) :
    ((w.complete index).1.host key).script =
      ⟨(w.fetches[index]?.bind fun f =>
          if f.loads key then (f.fetcher.results w.disk w.remote f.urls).text? f.urls
          else none).getD (w.host key).script.contents,
        (w.host key).script.origin⟩ := by
  cases hfound : w.fetches[index]? with
  | none =>
      rw [complete, hfound]
      rfl
  | some f =>
      obtain ⟨host, fetcher, urls, purpose⟩ := f
      rw [Option.bind_some]
      cases hloads : KeptFetch.loads ⟨host, fetcher, urls, purpose⟩ key with
      | true =>
          obtain ⟨hhost, hpurpose⟩ := Bool.and_eq_true _ _ ▸ hloads
          obtain rfl : host = key := of_decide_eq_true hhost
          cases purpose with
          | includeAll _ => cases hpurpose
          | script =>
              simp only [complete, hfound, answerFetch, if_true]
              rw [scriptArrived_script]
              rfl
      | false =>
          refine complete_keeps (a := .script key) w nofun fun f hf hscript heq => ?_
          cases hfound.symm.trans hf
          cases heq
          cases hscript
          simp [KeptFetch.loads] at hloads

end World

namespace Task

/-- The label that a host gets from the task: from its builder, or by an accepted request. -/
def label? (w : World) (key : Nat) : Task → Option String
  | perform _ (.build plan _ :: _) => if w.hosts.fresh = key then some plan.origin else none
  | perform scope (.onHost named deed :: _) =>
      if w.owned? scope named = some key ∧ (w.host key).running = false then deed.label? else none
  | _ => none

/-- The text that a host gets from the task: from its builder, by an accepted request or by the
answer to an earlier one. -/
def text? (w : World) (key : Nat) : Task → Option String
  | perform _ (.build plan _ :: _) => if w.hosts.fresh = key then some plan.contents else none
  | perform scope (.onHost named deed :: _) =>
      if w.owned? scope named = some key ∧ (w.host key).running = false then deed.text? w key
      else none
  | perform _ (.onWorld (.complete index) :: _) =>
      w.fetches[index]?.bind fun f =>
        if f.loads key then (f.fetcher.results w.disk w.remote f.urls).text? f.urls else none
  | _ => none

/-- The place of the fetch that a task takes from those that are kept. -/
def takes? : Task → Option Nat
  | perform _ (.onWorld (.complete index) :: _) | perform _ (.onWorld (.forget index) :: _) =>
      some index
  | _ => none

/-- An owner asks for a text from elsewhere while the host does not run. -/
def loads (w : World) (key : Nat) : Task → Bool
  | perform scope (.onHost named (.loadUrl _) :: _) =>
      w.owned? scope named = some key ∧ (w.host key).running = false
  | _ => false

variable {w : World} {o : Outcome} {key : Nat}

theorem react_onHost (scope : Scope) (named : Option String) (deed : HostDeed)
    (rest : List Action) : (react w o (.perform scope (.onHost named deed :: rest))).world =
      (start w scope (.onHost named deed)).1 :=
  rfl

theorem onHost_script (scope : Scope) (named : Option String) (deed : HostDeed)
    (rest : List Action) :
    ((react w o (.perform scope (.onHost named deed :: rest))).world.host key).script =
      ⟨((perform scope (.onHost named deed :: rest)).text? w key).getD
          (w.host key).script.contents,
        ((perform scope (.onHost named deed :: rest)).label? w key).getD
          (w.host key).script.origin⟩ := by
  rw [react_onHost, text?, label?]
  cases howned : w.owned? scope named with
  | none =>
      obtain ⟨a, hstart⟩ := start_onHost_none howned deed
      rw [hstart]
      rfl
  | some other =>
      rw [start_onHost howned]
      cases hlabel : deed.label? with
      | none =>
          have hkept : w.Keeps (.script key) (startHostDeed w other deed).1 := by
            refine startHostDeed_keeps w other ?_
            cases deed <;> first | rfl | cases hlabel
          have hnothing : deed.text? w key = none := by
            cases deed <;> first | rfl | cases hlabel
          simp only [hnothing, ite_self]
          exact hkept
      | some label =>
          rw [startHostDeed_of_label w other hlabel]
          by_cases hself : other = key
          · subst hself
            cases hrunning : (w.host other).running with
            | true =>
                rw [doHostDeed_refused w other hrunning hlabel]
                simp [World.host, World.note]
            | false =>
                simp only [and_self, if_true, Option.getD_some]
                exact doHostDeed_script w other hrunning hlabel
          · have hother : ¬ some other = some key := by simpa using hself
            simp only [hother, false_and, if_false]
            exact doHostDeed_keeps_script w other (Ne.symm hself) deed

/-- What a task does to the source text of a host that was built. -/
theorem react_script (hlinked : w.Linked) (hkey : w.Has key) (t : Task) :
    ((react w o t).world.host key).script =
      ⟨(t.text? w key).getD (w.host key).script.contents,
        (t.label? w key).getD (w.host key).script.origin⟩ := by
  have hfresh : w.hosts.fresh ≠ key := by
    rintro rfl
    exact hlinked.fresh hkey
  cases t with
  | perform scope actions =>
      cases actions with
      | nil => exact react_keeps (a := .script key) w o hlinked rfl
      | cons action rest =>
          cases action with
          | onHost named deed => exact onHost_script scope named deed rest
          | build plan api =>
              simp only [text?, label?, if_neg hfresh]
              refine react_keeps (a := .script key) w o hlinked ?_
              simpa [touches] using Ne.symm hfresh
          | onWorld deed =>
              cases deed with
              | complete index => exact complete_script w key index
              | _ => exact react_keeps (a := .script key) w o hlinked rfl
          | inScript named deed =>
              refine react_keeps (a := .script key) w o hlinked ?_
              cases htouches : deed.touches (.script key) with
              | false => exact htouches
              | true =>
                  rcases ScriptDeed.touches_cases htouches with
                    ⟨_, hnot⟩ | ⟨_, hnot⟩ | hnot <;> cases hnot
          | onHandle _ _ | give _ | throw _ | unknown _ =>
              exact react_keeps (a := .script key) w o hlinked rfl
  | _ => exact react_keeps (a := .script key) w o hlinked rfl

theorem onHost_fetches (scope : Scope) (named : Option String) (reference : String)
    (rest : List Action) :
    (react w o (.perform scope (.onHost named (.loadUrl reference) :: rest))).world.fetches =
        w.fetches ∨
      ∃ f, (react w o (.perform scope (.onHost named (.loadUrl reference) :: rest))).world.fetches =
          w.fetches ++ [f] ∧ ∀ key, f.loads key = true →
        (perform scope (.onHost named (.loadUrl reference) :: rest)).loads w key = true := by
  rw [react_onHost]
  cases howned : w.owned? scope named with
  | none =>
      obtain ⟨a, hstart⟩ := start_onHost_none howned (.loadUrl reference)
      rw [hstart]
      exact .inl rfl
  | some key =>
      rw [start_onHost howned]
      rcases loadUrl_fetches w key reference with hsame | ⟨hidle, f, hkept, hhost⟩
      · exact .inl hsame
      · refine .inr ⟨f, hkept, fun other hloads => ?_⟩
        simp only [KeptFetch.loads, Bool.and_eq_true, decide_eq_true_eq] at hloads
        obtain rfl : key = other := hhost.symm.trans hloads.1
        simp [loads, howned, hidle]

theorem inScript_fetches (scope : Scope) (named : Option String) (references : List String)
    (call : Call) (rest : List Action) :
    (react w o (.perform scope
        (.inScript named (.includeAll references (some call)) :: rest))).world.fetches =
        w.fetches ∨
      ∃ f, (react w o (.perform scope
          (.inScript named (.includeAll references (some call)) :: rest))).world.fetches =
        w.fetches ++ [f] ∧ ∀ key, f.loads key = false := by
  show (start w scope (.inScript named (.includeAll references (some call)))).1.fetches = _ ∨ _
  simp only [react, performOne, start]
  split
  · split
    · exact includeAll_fetches w _ _ references call
    · exact .inl rfl
  · exact .inl rfl
  · exact includeAll_fetches w _ _ references call

/-- What a task does to the fetches that are kept. -/
theorem react_fetches (hlinked : w.Linked) (t : Task) :
    (react w o t).world.fetches = w.fetches ∨
      (∃ f, (react w o t).world.fetches = w.fetches ++ [f] ∧
        ∀ key, f.loads key = true → t.loads w key = true) ∨
      ∃ index, t.takes? = some index ∧
        (react w o t).world.fetches = w.fetches.eraseIdx index := by
  cases htouches : t.touches w .fetches with
  | false => exact .inl (react_keeps (a := .fetches) w o hlinked htouches)
  | true =>
      rcases touches_cases htouches with ⟨_, _, _, _, rfl⟩ | ⟨scope, deed, rest, rfl, hdeed⟩ |
        ⟨scope, named, deed, rest, rfl, hdeed⟩ | ⟨scope, named, deed, rest, rfl, hdeed⟩ | hplain
      · cases htouches
      · cases deed with
        | complete index => exact .inr (.inr ⟨index, rfl, complete_fetches w index⟩)
        | forget index => exact .inr (.inr ⟨index, rfl, forget_fetches w index⟩)
        | _ => cases hdeed
      · cases deed with
        | loadUrl reference => exact (onHost_fetches scope named reference rest).imp id .inl
        | _ => cases hdeed
      · cases deed with
        | includeAll references call =>
            cases call with
            | none => cases hdeed
            | some call =>
                rcases inScript_fetches scope named references call rest with
                  hsame | ⟨f, hkept, hnot⟩
                · exact .inl hsame
                · refine .inr (.inl ⟨f, hkept, fun key hloads => ?_⟩)
                  rw [hnot key] at hloads
                  cases hloads
        | _ => cases hdeed
      · cases t <;> first | cases hplain; done | cases htouches

theorem react_takes {t : Task} {index : Nat} (htakes : t.takes? = some index) :
    (react w o t).world.fetches = w.fetches.eraseIdx index := by
  unfold takes? at htakes
  split at htakes <;> cases htakes
  · exact complete_fetches w index
  · exact forget_fetches w index

end Task

/-! Histories of fetches. -/

/-- When the fetches were kept that are kept at a moment. -/
def dates (σ : Nat → Machine) : Nat → List Nat
  | 0 => []
  | n + 1 =>
      if (σ n).world.fetches.length < (σ (n + 1)).world.fetches.length then dates σ n ++ [n]
      else if (σ (n + 1)).world.fetches.length < (σ n).world.fetches.length then
        ((σ n).agenda.head?.bind Task.takes?).elim (dates σ n) (dates σ n).eraseIdx
      else dates σ n

/-- At moment `n` a fetch that was kept in step `a` is in a place. -/
structure KeptAt (σ : Nat → Machine) (a n index : Nat) (f : KeptFetch) : Prop where
  date : (dates σ n)[index]? = some a
  fetch : (σ n).world.fetches[index]? = some f

namespace Behavior

variable {σ : Nat → Machine} (hσ : Behavior σ) {a i n index : Nat} {f : KeptFetch}

include hσ

/-- In one step the fetches stay, or one is kept, or one is taken away. -/
theorem fetches_cases (n : Nat) :
    (σ (n + 1)).world.fetches = (σ n).world.fetches ∧ dates σ (n + 1) = dates σ n ∨
      (∃ f, (σ (n + 1)).world.fetches = (σ n).world.fetches ++ [f] ∧
        dates σ (n + 1) = dates σ n ++ [n] ∧ ∃ t rest, Executes σ n t rest ∧
          ∀ key, f.loads key = true → t.loads (σ n).world key = true) ∨
      ∃ index, (σ (n + 1)).world.fetches = (σ n).world.fetches.eraseIdx index ∧
        dates σ (n + 1) = (dates σ n).eraseIdx index ∧
        ∃ t rest, Executes σ n t rest ∧ t.takes? = some index := by
  have hsame : (σ (n + 1)).world.fetches = (σ n).world.fetches →
      dates σ (n + 1) = dates σ n := by
    intro h
    simp only [dates, h, Nat.lt_irrefl, if_false]
  rcases hσ.cases n with hkeeps | ⟨t, rest, hexec⟩
  · have hkept : (σ (n + 1)).world.fetches = (σ n).world.fetches := hkeeps .fetches
    exact .inl ⟨hkept, hsame hkept⟩
  · have hworld := world_after hexec
    rcases Task.react_fetches (o := (σ n).outcome) (hσ.sound n).linked t with
      hkept | ⟨f, hkept, hloads⟩ | ⟨index, htakes, hkept⟩
    · rw [← hworld] at hkept
      exact .inl ⟨hkept, hsame hkept⟩
    · rw [← hworld] at hkept
      refine .inr (.inl ⟨f, hkept, ?_, t, rest, hexec, hloads⟩)
      simp [dates, hkept]
    · rw [← hworld] at hkept
      by_cases hindex : index < (σ n).world.fetches.length
      · refine .inr (.inr ⟨index, hkept, ?_, t, rest, hexec, htakes⟩)
        have hlength : (σ (n + 1)).world.fetches.length < (σ n).world.fetches.length := by
          rw [hkept, List.length_eraseIdx_of_lt hindex]
          omega
        rw [dates, if_neg (Nat.lt_asymm hlength), if_pos hlength, hexec.agenda]
        simp [htakes]
      · have hnone : (σ (n + 1)).world.fetches = (σ n).world.fetches := by
          rw [hkept, List.eraseIdx_of_length_le (Nat.le_of_not_lt hindex)]
        exact .inl ⟨hnone, hsame hnone⟩

theorem dates_length (n : Nat) : (dates σ n).length = (σ n).world.fetches.length := by
  induction n with
  | zero =>
      obtain ⟨disk, remote, programs, functions, network, actions, hstart⟩ := hσ.starts
      rw [hstart]
      rfl
  | succ n ih =>
      rcases hσ.fetches_cases n with ⟨hkept, hdates⟩ | ⟨f, hkept, hdates, -⟩ |
        ⟨index, hkept, hdates, -⟩
      · rw [hkept, hdates, ih]
      · rw [hkept, hdates, List.length_append, List.length_append, ih]
        rfl
      · rw [hkept, hdates, List.length_eraseIdx, List.length_eraseIdx, ih]

/-- Every fetch was kept in some step. -/
theorem keptAt (hf : (σ n).world.fetches[index]? = some f) : ∃ a, KeptAt σ a n index f := by
  have hindex : index < (dates σ n).length := by
    rw [hσ.dates_length]
    exact (List.getElem?_eq_some_iff.mp hf).1
  exact ⟨(dates σ n)[index], List.getElem?_eq_getElem hindex, hf⟩

/-- Where a fetch was before: it was kept just now, or it had a place. -/
theorem kept_before (hkept : KeptAt σ a (n + 1) index f) :
    (a = n ∧ ∃ t rest, Executes σ n t rest ∧
      ∀ key, f.loads key = true → t.loads (σ n).world key = true) ∨
      ∃ place, KeptAt σ a n place f := by
  obtain ⟨hdate, hfetch⟩ := hkept
  rcases hσ.fetches_cases n with ⟨hsame, hdates⟩ | ⟨g, happend, hdates, t, rest, hexec, hloads⟩ |
    ⟨gone, herase, hdates, -⟩
  · rw [hdates] at hdate
    rw [hsame] at hfetch
    exact .inr ⟨index, hdate, hfetch⟩
  · rw [hdates, List.getElem?_append] at hdate
    rw [happend, List.getElem?_append, ← hσ.dates_length n] at hfetch
    split at hdate
    · rename_i hold
      rw [if_pos hold] at hfetch
      exact .inr ⟨index, hdate, hfetch⟩
    · rename_i hnew
      rw [if_neg hnew] at hfetch
      obtain rfl := List.mem_singleton.mp (List.mem_of_getElem? hdate)
      obtain rfl := List.mem_singleton.mp (List.mem_of_getElem? hfetch)
      exact .inl ⟨rfl, t, rest, hexec, hloads⟩
  · right
    rw [hdates, List.getElem?_eraseIdx] at hdate
    rw [herase, List.getElem?_eraseIdx] at hfetch
    split at hdate
    · rename_i hbefore
      rw [if_pos hbefore] at hfetch
      exact ⟨index, hdate, hfetch⟩
    · rename_i hafter
      rw [if_neg hafter] at hfetch
      exact ⟨index + 1, hdate, hfetch⟩

/-- A fetch for a source text was kept by an accepted request. -/
theorem requested_of_kept {key : Nat} (hkept : KeptAt σ a n index f) (hloads : f.loads key = true) :
    a < n ∧ ∃ t rest, Executes σ a t rest ∧ t.loads (σ a).world key = true := by
  induction n generalizing index with
  | zero =>
      have hdate := hkept.date
      simp [dates] at hdate
  | succ n ih =>
      rcases hσ.kept_before hkept with ⟨rfl, t, rest, hexec, hasked⟩ | ⟨place, hearlier⟩
      · exact ⟨Nat.lt_succ_self a, t, rest, hexec, hasked key hloads⟩
      · obtain ⟨han, hasked⟩ := ih hearlier
        exact ⟨Nat.lt_succ_of_lt han, hasked⟩

/-- A fetch has been kept ever since. -/
theorem kept_since (hkept : KeptAt σ a n index f) (hai : a < i) (hin : i ≤ n) :
    ∃ place, KeptAt σ a i place f := by
  induction n generalizing index with
  | zero =>
      have hdate := hkept.date
      simp [dates] at hdate
  | succ n ih =>
      rcases Nat.lt_or_eq_of_le hin with hlt | rfl
      · rcases hσ.kept_before hkept with ⟨rfl, -⟩ | ⟨place, hearlier⟩
        · omega
        · exact ih hearlier (Nat.le_of_lt_succ hlt)
      · exact ⟨index, hkept⟩

/-- The fetches are kept in the order in which they came. -/
theorem dates_sorted (n : Nat) : (dates σ n).Pairwise (· < ·) ∧ ∀ a ∈ dates σ n, a < n := by
  induction n with
  | zero => exact ⟨.nil, nofun⟩
  | succ n ih =>
      obtain ⟨hsorted, hbefore⟩ := ih
      have hbound : ∀ a ∈ dates σ n, a < n + 1 := fun a ha => Nat.lt_succ_of_lt (hbefore a ha)
      rcases hσ.fetches_cases n with ⟨-, hdates⟩ | ⟨f, -, hdates, -⟩ | ⟨index, -, hdates, -⟩
      · rw [hdates]
        exact ⟨hsorted, hbound⟩
      · rw [hdates]
        refine ⟨List.pairwise_append.mpr ⟨hsorted, List.pairwise_singleton .., ?_⟩, ?_⟩
        · intro a ha b hb
          rw [List.mem_singleton.mp hb]
          exact hbefore a ha
        · intro a ha
          rcases List.mem_append.mp ha with hold | hnew
          · exact hbound a hold
          · exact (List.mem_singleton.mp hnew).symm ▸ Nat.lt_succ_self n
      · rw [hdates]
        exact ⟨hsorted.sublist (List.eraseIdx_sublist ..),
          fun a ha => hbound a (List.mem_of_mem_eraseIdx ha)⟩

/-- A step that is over does not keep a fetch any more. -/
theorem not_kept_later {m : Nat} (han : a < n) (hnm : n ≤ m) (hgone : a ∉ dates σ n) :
    a ∉ dates σ m := by
  induction hnm with
  | refl => exact hgone
  | @step m hnm ih =>
      rcases hσ.fetches_cases m with ⟨-, hdates⟩ | ⟨f, -, hdates, -⟩ | ⟨index, -, hdates, -⟩
      · rwa [hdates]
      · rw [hdates, List.mem_append, List.mem_singleton]
        rintro (hold | rfl)
        · exact ih hold
        · exact Nat.lt_irrefl _ (Nat.lt_of_lt_of_le han hnm)
      · rw [hdates]
        exact fun hmem => ih (List.mem_of_mem_eraseIdx hmem)

/-- A fetch that was kept stays, perhaps in an earlier place, unless it is taken. -/
theorem kept_after (hkept : KeptAt σ a n index f) :
    (∃ place, KeptAt σ a (n + 1) place f) ∨
      ∃ t rest, Executes σ n t rest ∧ t.takes? = some index := by
  obtain ⟨hdate, hfetch⟩ := hkept
  obtain ⟨hindex, -⟩ := List.getElem?_eq_some_iff.mp hdate
  rcases hσ.fetches_cases n with ⟨hsame, hdates⟩ | ⟨g, happend, hdates, -⟩ |
    ⟨gone, herase, hdates, t, rest, hexec, htakes⟩
  · exact .inl ⟨index, by rwa [hdates], by rwa [hsame]⟩
  · refine .inl ⟨index, ?_, ?_⟩
    · rwa [hdates, List.getElem?_append_left hindex]
    · rw [happend, List.getElem?_append_left (by rwa [← hσ.dates_length n]), hfetch]
  · rcases Nat.lt_trichotomy index gone with hlt | rfl | hgt
    · refine .inl ⟨index, ?_, ?_⟩
      · rwa [hdates, List.getElem?_eraseIdx, if_pos hlt]
      · rwa [herase, List.getElem?_eraseIdx, if_pos hlt]
    · exact .inr ⟨t, rest, hexec, htakes⟩
    · refine .inl ⟨index - 1, ?_, ?_⟩
      · rwa [hdates, List.getElem?_eraseIdx, if_neg (by omega), Nat.sub_add_cancel (by omega)]
      · rwa [herase, List.getElem?_eraseIdx, if_neg (by omega), Nat.sub_add_cancel (by omega)]

/-- A fetch that is taken is gone. -/
theorem taken (hkept : KeptAt σ a n index f) {t : Task} {rest : List Task}
    (hexec : Executes σ n t rest) (htakes : t.takes? = some index) : a ∉ dates σ (n + 1) := by
  obtain ⟨hdate, hfetch⟩ := hkept
  obtain ⟨hindex, -⟩ := List.getElem?_eq_some_iff.mp hdate
  have hshort : (σ (n + 1)).world.fetches.length < (σ n).world.fetches.length := by
    rw [world_after hexec, Task.react_takes htakes,
      List.length_eraseIdx_of_lt (List.getElem?_eq_some_iff.mp hfetch).1]
    have hpositive := (List.getElem?_eq_some_iff.mp hfetch).1
    omega
  rcases hσ.fetches_cases n with ⟨hsame, -⟩ | ⟨g, happend, -⟩ |
    ⟨gone, -, hdates, t', rest', hexec', htakes'⟩
  · rw [hsame] at hshort
    omega
  · rw [happend, List.length_append] at hshort
    omega
  · obtain rfl := (hexec.unique hexec').1
    cases htakes.symm.trans htakes'
    rw [hdates]
    intro hmem
    obtain ⟨place, hother, hplace⟩ := List.mem_eraseIdx_iff_getElem?.mp hmem
    have hnodup : (dates σ n).Nodup := (hσ.dates_sorted n).1.imp Nat.ne_of_lt
    obtain ⟨hlt, -⟩ := List.getElem?_eq_some_iff.mp hplace
    exact hother ((List.Nodup.getElem_inj_iff hnodup).mp (Option.some.inj (by
      rw [← List.getElem?_eq_getElem hlt, ← List.getElem?_eq_getElem hindex, hplace, hdate])))

theorem not_kept_of_taken (hkept : KeptAt σ a n index f) {t : Task} {rest : List Task}
    (hexec : Executes σ n t rest) (htakes : t.takes? = some index) {m : Nat} (hnm : n < m) :
    a ∉ dates σ m := by
  have han : a < n := (hσ.dates_sorted n).2 a (List.mem_of_getElem? hkept.date)
  exact hσ.not_kept_later (Nat.lt_succ_of_lt han) hnm (hσ.taken hkept hexec htakes)

/-- A fetch is taken once. -/
theorem taken_once (hkept : KeptAt σ a n index f) {t t' : Task} {rest rest' : List Task}
    (hexec : Executes σ n t rest) (htakes : t.takes? = some index) {m place : Nat} {g : KeptFetch}
    (hkept' : KeptAt σ a m place g) (hexec' : Executes σ m t' rest')
    (htakes' : t'.takes? = some place) : n = m := by
  rcases Nat.lt_trichotomy n m with hlt | heq | hgt
  · exact absurd (List.mem_of_getElem? hkept'.date) (hσ.not_kept_of_taken hkept hexec htakes hlt)
  · exact heq
  · exact absurd (List.mem_of_getElem? hkept.date)
      (hσ.not_kept_of_taken hkept' hexec' htakes' hgt)

/-- A fetch was the last one when it was kept. -/
theorem kept_first (hkept : KeptAt σ a n index f) :
    (σ (a + 1)).world.fetches = (σ a).world.fetches ++ [f] := by
  have han : a < n := (hσ.dates_sorted n).2 a (List.mem_of_getElem? hkept.date)
  have hnew : a ∉ dates σ a := fun hmem => Nat.lt_irrefl a ((hσ.dates_sorted a).2 a hmem)
  obtain ⟨place, hdate, hfetch⟩ := hσ.kept_since hkept (Nat.lt_succ_self a) han
  rcases hσ.fetches_cases a with ⟨-, hdates⟩ | ⟨g, happend, hdates, -⟩ | ⟨gone, -, hdates, -⟩
  · rw [hdates] at hdate
    exact absurd (List.mem_of_getElem? hdate) hnew
  · rw [hdates, List.getElem?_append] at hdate
    split at hdate
    · exact absurd (List.mem_of_getElem? hdate) hnew
    · rename_i hlast
      rw [happend, List.getElem?_append, ← hσ.dates_length a, if_neg hlast] at hfetch
      rw [happend, List.mem_singleton.mp (List.mem_of_getElem? hfetch)]
  · rw [hdates] at hdate
    exact absurd (List.mem_of_mem_eraseIdx (List.mem_of_getElem? hdate)) hnew

/-- A fetch that is left behind in this step is dated from it. -/
theorem kept_now (happend : (σ (n + 1)).world.fetches = (σ n).world.fetches ++ [f]) :
    KeptAt σ n (n + 1) (σ n).world.fetches.length f := by
  constructor
  · rw [dates, if_pos (by simp [happend]), ← hσ.dates_length n]
    exact List.getElem?_concat_length
  · rw [happend]
    exact List.getElem?_concat_length

end Behavior

end TickHost
