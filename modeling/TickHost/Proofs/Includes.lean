import Mathlib.Data.List.Induction
import TickHost.Proofs.Loads
import TickHost.Proofs.Batches
import TickHost.Proofs.Queues

/-!
What becomes of the references that a script includes. Those that mean nothing are reported at once,
in the order of the list. The others make up a batch in that order. A script that waits for it gets
the batch next. Otherwise the answer of the fetcher is posted to the host, and the batch comes up
when a pump takes that from the queue.
-/

namespace TickHost

open World Machine

/-- What a script includes, and what it wants to have called back if it does not wait. -/
structure Include where
  host : Nat
  references : List String
  callback : Option Callback

namespace Host

/-- The URLs of references, without those that mean nothing. -/
def resolved (h : Host) (references : List String) : List Url :=
  references.filterMap h.resolve?

/-- The references that mean nothing. -/
def unresolved (h : Host) (references : List String) : List String :=
  references.filter fun reference => (h.resolve? reference).isNone

theorem misses_append (h : Host) (origins more : List String) :
    h.misses (origins ++ more) = h.misses origins ++ h.misses more := by
  unfold misses
  split
  · rfl
  · exact List.map_append

end Host

namespace World

variable (w : World) (key : Nat)

theorem resolveAll_concat (references : List String) (reference : String) :
    w.resolveAll key (references ++ [reference]) =
      let (urls, w') := w.resolveAll key references
      match (w'.host key).resolve? reference with
      | some url => (urls ++ [url], w')
      | none => (urls, w'.publish key (.errorLoadingScript reference) .loader) :=
  List.foldl_concat ..

/-- While references are resolved a host only speaks. -/
theorem resolveAll_host (references : List String) : ∃ outlet,
    (w.resolveAll key references).2.host key = { w.host key with outlet } ∧
      outlet.detached = (w.host key).outlet.detached := by
  induction references using List.reverseRecOn with
  | nil => exact ⟨_, rfl, rfl⟩
  | append_singleton references reference ih =>
      obtain ⟨outlet, hhost, hcut⟩ := ih
      rw [resolveAll_concat]
      dsimp only
      split
      · exact ⟨outlet, hhost, hcut⟩
      · dsimp only
        rw [publish_host, hhost]
        exact ⟨_, rfl, (Outlet.publish_detached_eq ..).trans hcut⟩

/-- What a reference means does not depend on those before it. -/
theorem resolveAll_step (references : List String) (reference : String) :
    w.resolveAll key (references ++ [reference]) =
      match (w.host key).resolve? reference with
      | some url => ((w.resolveAll key references).1 ++ [url], (w.resolveAll key references).2)
      | none => ((w.resolveAll key references).1, (w.resolveAll key references).2.publish key
          (.errorLoadingScript reference) .loader) := by
  obtain ⟨outlet, hhost, -⟩ := w.resolveAll_host key references
  rw [resolveAll_concat]
  dsimp only
  rw [hhost]
  rfl

theorem resolveAll_urls (references : List String) :
    (w.resolveAll key references).1 = (w.host key).resolved references := by
  induction references using List.reverseRecOn with
  | nil => rfl
  | append_singleton references reference ih =>
      rw [resolveAll_step, Host.resolved, List.filterMap_append, ← Host.resolved, ← ih]
      cases hmeans : (w.host key).resolve? reference with
      | some url => simp [hmeans]
      | none => simp [hmeans]

/-- References that mean nothing are reported in the order of the list. -/
theorem resolveAll_says (references : List String) : ∃ es,
    (w.host key).Says ((w.resolveAll key references).2.host key) es ∧
      es.map (fun e => (e.source, e.event)) =
        (w.host key).misses ((w.host key).unresolved references) := by
  induction references using List.reverseRecOn with
  | nil => exact ⟨[], .silent rfl, by simp [Host.unresolved, Host.misses]⟩
  | append_singleton references reference ih =>
      obtain ⟨es, hsaid, hmisses⟩ := ih
      rw [resolveAll_step, Host.unresolved, List.filter_append, ← Host.unresolved,
        Host.misses_append, ← hmisses]
      cases hmeans : (w.host key).resolve? reference with
      | some url => exact ⟨es, hsaid, by simp [hmeans, Host.misses]⟩
      | none =>
          obtain ⟨outlet, hhost, hcut⟩ := w.resolveAll_host key references
          have hspoken := publish_says (w.resolveAll key references).2 key
            (.errorLoadingScript reference) .loader
          refine ⟨_, hsaid.trans hspoken, ?_⟩
          rw [List.map_append, List.filter_singleton, hmeans, Host.misses, Host.utterance, hhost,
            hcut]
          split <;> rfl

/-- The results of a fetch that is answered at once. -/
def repliesNow? (w : World) (key : Nat) (urls : List Url) : Option FetchResults :=
  match (w.host key).fetcher with
  | none => some (FetchResults.unconfigured urls)
  | some fetcher =>
      if fetcher.silent || fetcher.deferred then none
      else some (fetcher.results w.disk w.remote urls)

@[simp]
theorem publish_disk (event : Event) (source : Source) :
    (w.publish key event source).disk = w.disk := by
  unfold publish
  dsimp only
  split <;> rfl

@[simp]
theorem publish_remote (event : Event) (source : Source) :
    (w.publish key event source).remote = w.remote := by
  unfold publish
  dsimp only
  split <;> rfl

theorem resolveAll_repliesNow? (references : List String) (urls : List Url) :
    (w.resolveAll key references).2.repliesNow? key urls = w.repliesNow? key urls := by
  have htexts : (w.resolveAll key references).2.disk = w.disk ∧
      (w.resolveAll key references).2.remote = w.remote := by
    induction references using List.reverseRecOn with
    | nil => exact ⟨rfl, rfl⟩
    | append_singleton references reference ih =>
        rw [resolveAll_step]
        split <;> simpa using ih
  obtain ⟨outlet, hhost, -⟩ := w.resolveAll_host key references
  rw [repliesNow?, repliesNow?, hhost, htexts.1, htexts.2]

section Fetch

variable {w key} {urls : List Url} {callback : Callback} {results : FetchResults}

/-- The answer to an include is posted, and nothing is heard of it. -/
theorem answerFetch_include_host (halive : (w.host key).alive = true) :
    (w.answerFetch key urls (.includeAll callback) results).host key =
      (w.host key).post (.includeReady urls callback results) := by
  rw [answerFetch, if_pos halive, host_updateHost, if_pos rfl]

theorem fetch_include_published :
    ((w.fetch key urls (.includeAll callback)).host key).published = (w.host key).published := by
  have hanswer : ∀ (w' : World) (results : FetchResults),
      ((w'.answerFetch key urls (.includeAll callback) results).host key).published =
        (w'.host key).published := by
    intro w' results
    cases halive : (w'.host key).alive with
    | true =>
        rw [answerFetch_include_host halive]
        rfl
    | false => simp [answerFetch, halive]
  unfold fetch
  split
  · exact hanswer w _
  · dsimp only
    split
    · rfl
    · split
      · rfl
      · exact hanswer _ _

/-- A fetch that is answered at once is handed to the fetcher, if there is one, and answered. -/
theorem fetch_of_repliesNow? (hnow : w.repliesNow? key urls = some results)
    (purpose : FetchPurpose) : ∃ w' : World, w'.ties = w.ties ∧
      w.fetch key urls purpose = w'.answerFetch key urls purpose results := by
  cases hfetcher : (w.host key).fetcher with
  | none =>
      simp only [repliesNow?, hfetcher, Option.some.injEq] at hnow
      subst hnow
      exact ⟨w, rfl, by simp only [fetch, hfetcher]⟩
  | some fetcher =>
      simp only [repliesNow?, hfetcher, Bool.or_eq_true] at hnow
      split at hnow
      · cases hnow
      · rename_i hprompt
        cases hnow
        rw [not_or] at hprompt
        exact ⟨w.note (.fetching (urls.map Url.render)), rfl, by
          simp only [fetch, hfetcher, hprompt]
          rfl⟩

theorem fetch_include_posts (hnow : w.repliesNow? key urls = some results)
    (halive : (w.host key).alive = true) :
    ((w.fetch key urls (.includeAll callback)).host key).commands =
      (w.host key).commands ++ [.includeReady urls callback results] := by
  obtain ⟨w', hties, hfetch⟩ := fetch_of_repliesNow? hnow (.includeAll callback)
  have hhost := host_of_ties hties key
  rw [hfetch, answerFetch_include_host (by rw [hhost, halive]), hhost]
  rfl

theorem fetch_include_fetches (hnow : w.repliesNow? key urls = some results) :
    (w.fetch key urls (.includeAll callback)).fetches = w.fetches := by
  obtain ⟨w', hties, hfetch⟩ := fetch_of_repliesNow? hnow (.includeAll callback)
  rw [hfetch, ← fetches_of_ties hties]
  exact answerFetch_keeps (a := .fetches) w' key urls _ results nofun

end Fetch

theorem Moves.crashed {fetching : Bool} {w w' : World} (hmoves : Moves fetching w w') :
    w'.crashed = w.crashed := by
  induction hmoves with
  | refl => rfl
  | tail _ hmove ih =>
      refine Eq.trans ?_ ih
      cases hmove with
      | aside w' hties _ => exact crashed_of_ties hties
      | act _ _ _ _ | lend _ _ _ | revoke _ | forget _ | keep _ _ _ | lose _ => rfl

end World

namespace Task

variable {w : World} {o : Outcome} {t : Task} {i : Include}

/-- What a directive includes: it waits for the batch. -/
def directiveIncludes? (key : Nat) (text : List Char) : Option Include :=
  match Directive.read text with
  | .ok (.includeAll references) => some ⟨key, references, none⟩
  | _ => none

/-- What a task includes. -/
def includes? (w : World) : Task → Option Include
  | t@(perform scope (.inScript named (.includeAll references wanted) :: _)) =>
      (t.actor? w).map fun key =>
        ⟨key, references, wanted.map (World.callback (named.getD scope.name))⟩
  | directives key _ ((_, text) :: _) => directiveIncludes? key text
  | call key (.script function) _ =>
      if (w.host key).directives then directiveIncludes? key function.toList else none
  | _ => none

theorem directiveIncludes?_eq {key : Nat} {text : List Char}
    (h : directiveIncludes? key text = some i) :
    Directive.read text = .ok (.includeAll i.references) ∧ i.host = key ∧ i.callback = none := by
  unfold directiveIncludes? at h
  split at h
  · rename_i references hread
    cases h
    exact ⟨hread, rfl, rfl⟩
  · cases h

/-- The three ways in which scripts include. -/
theorem includes?_cases (h : t.includes? w = some i) :
    (∃ scope named wanted rest,
      t = .perform scope (.inScript named (.includeAll i.references wanted) :: rest) ∧
        t.actor? w = some i.host ∧
        i.callback = wanted.map (World.callback (named.getD scope.name))) ∨
      (∃ origin line text rest, t = .directives i.host origin ((line, text) :: rest) ∧
        Directive.read text = .ok (.includeAll i.references) ∧ i.callback = none) ∨
      ∃ function args, t = .call i.host (.script function) args ∧
        (w.host i.host).directives = true ∧
        Directive.read function.toList = .ok (.includeAll i.references) ∧ i.callback = none := by
  unfold includes? at h
  split at h
  · rename_i scope named references wanted rest
    obtain ⟨key, hactor, rfl⟩ := Option.map_eq_some_iff.mp h
    exact .inl ⟨scope, named, wanted, rest, rfl, hactor, rfl⟩
  · rename_i key origin line text rest
    obtain ⟨hread, rfl, hcallback⟩ := directiveIncludes?_eq h
    exact .inr (.inl ⟨origin, line, text, rest, rfl, hread, hcallback⟩)
  · rename_i key function args
    split at h
    · rename_i hdirectives
      obtain ⟨hread, rfl, hcallback⟩ := directiveIncludes?_eq h
      exact .inr (.inr ⟨function, args, rfl, hdirectives, hread, hcallback⟩)
    · cases h
  · cases h

/-- A script includes for the host that it acts for. -/
theorem actor_of_includes? (h : t.includes? w = some i) : t.actor? w = some i.host := by
  rcases includes?_cases h with ⟨scope, named, wanted, rest, -, hactor, -⟩ |
    ⟨_, _, _, _, rfl, -, -⟩ | ⟨_, _, rfl, -, -, -⟩
  · exact hactor
  · rfl
  · rfl

theorem runDirective_include {key line : Nat} {origin : String} {text : List Char}
    {references : List String} (hread : Directive.read text = .ok (.includeAll references))
    (hopen : w.isStopping key = false) :
    runDirective w key origin line text =
      ⟨((w.resolveAll key references).2.fetchNow key (w.resolveAll key references).1).2,
        .returned .undefined, [batch key (w.resolveAll key references).1
          ((w.resolveAll key references).2.fetchNow key (w.resolveAll key references).1).1,
          give .undefined]⟩ := by
  simp [runDirective, hread, hopen]

/-- What an include does: a script that waits gets its batch next, and for any other the batch is
fetched. -/
theorem react_includes (h : t.includes? w = some i) (hopen : w.isStopping i.host = false)
    (hkey : w.Has i.host) :
    Moves true w (react w o t).world ∧
      ((i.callback = none ∧
          ((react w o t).world.host i.host).published =
            ((w.resolveAll i.host i.references).2.host i.host).published ∧
          ∃ given tail, (react w o t).next =
            .batch i.host ((w.host i.host).resolved i.references) given :: tail) ∨
        ∃ callback entry, i.callback = some callback ∧
          (react w o t).world = ((w.resolveAll i.host i.references).2.fetch i.host
            ((w.host i.host).resolved i.references) (.includeAll callback)).note entry) := by
  have hnow := includeNow_moves hkey i.references
  have hsame : ∀ (w' : World) (urls : List Url),
      (w'.fetchNow i.host urls).2.host i.host = w'.host i.host := by
    intro w' urls
    unfold fetchNow
    split <;> rfl
  rw [← resolveAll_urls]
  rcases includes?_cases h with ⟨scope, named, wanted, rest, rfl, hactor, hcallback⟩ |
    ⟨origin, line, text, rest, rfl, hread, hcallback⟩ |
    ⟨function, args, rfl, hdirectives, hread, hcallback⟩
  · rw [react_inScript o hactor]
    cases wanted with
    | none =>
        simp only [startScriptDeed, hopen, Bool.false_eq_true, if_false]
        refine ⟨hnow.trans (acquire_moves (hnow.has hkey)), .inl ⟨hcallback, ?_, _, _, rfl⟩⟩
        rw [acquire, host_updateHost, if_pos rfl, hsame]
        rfl
    | some wanted =>
        simp only [startScriptDeed, doScriptDeed, hopen, Bool.false_eq_true, if_false]
        have hfetch := include_moves hkey i.references
          (World.callback (named.getD scope.name) wanted) hopen
        rw [hopen] at hfetch
        exact ⟨hfetch.trans (note_moves _ _ (.inl rfl)), .inr ⟨_, _, hcallback, rfl⟩⟩
  · simp only [react, runDirectives, runDirective_include hread hopen]
    refine ⟨hnow, .inl ⟨hcallback, ?_, _, _, rfl⟩⟩
    rw [hsame]
  · simp only [react, callBack, hdirectives, if_true, runDirective_include hread hopen]
    refine ⟨hnow, .inl ⟨hcallback, ?_, _, _, rfl⟩⟩
    rw [hsame]

/-- An include reports what means nothing, and says nothing else. -/
theorem react_includes_says (h : t.includes? w = some i) (hopen : w.isStopping i.host = false)
    (hkey : w.Has i.host) : ∃ es,
    (w.host i.host).Says ((react w o t).world.host i.host) es ∧
      es.map (fun e => (e.source, e.event)) =
        (w.host i.host).misses ((w.host i.host).unresolved i.references) := by
  obtain ⟨es, hsaid, hmisses⟩ := w.resolveAll_says i.host i.references
  refine ⟨es, ?_, hmisses⟩
  obtain ⟨-, ⟨-, hsame, -⟩ | ⟨callback, entry, -, hworld⟩⟩ :=
    react_includes (o := o) h hopen hkey
  · rw [Host.Says, hsame]
    exact hsaid
  · have hsilent : (((w.resolveAll i.host i.references).2.fetch i.host
        ((w.host i.host).resolved i.references) (.includeAll callback)).host i.host).published =
        ((w.resolveAll i.host i.references).2.host i.host).published := fetch_include_published
    rw [hworld, Host.Says]
    exact hsilent.trans hsaid

end Task

/-- A script includes in this step. -/
def Includes (σ : Nat → Machine) (n : Nat) (i : Include) : Prop :=
  Brings σ (fun w t => t.includes? w) n i

/-- The URLs in the batch of an include of step `n`. -/
def Include.urls (i : Include) (σ : Nat → Machine) (n : Nat) : List Url :=
  ((σ n).world.host i.host).resolved i.references

/-- The fetch for an include of step `n` is answered in step `c`: in the same one, or because it is
completed. -/
def Replies (σ : Nat → Machine) (n : Nat) (i : Include) (c : Nat) (results : FetchResults) : Prop :=
  (c = n ∧ (σ n).world.repliesNow? i.host (i.urls σ n) = some results) ∨
    ∃ index f, KeptAt σ n c index f ∧ Brings σ (fun _ t => t.completes?) c index ∧
      results = f.fetcher.results (σ c).world.disk (σ c).world.remote f.urls

/-- The batch of an include of step `n` comes up at moment `a`: at once, if the script waits for it,
and else when a pump takes the answer. -/
def Arrives (σ : Nat → Machine) (n : Nat) (i : Include) (a : Nat) : Prop :=
  match i.callback with
  | none => a = n + 1
  | some _ => ∃ c d results, a = d + 1 ∧ Replies σ n i c results ∧ c < d ∧ Takes σ i.host c d

namespace Behavior

variable {σ : Nat → Machine} (hσ : Behavior σ) {n c d : Nat} {i : Include}
  {results : FetchResults} (hincludes : Includes σ n i)

include hσ hincludes

theorem has_of_includes : (σ n).world.Has i.host := by
  obtain ⟨t, rest, hexec, ht⟩ := hincludes
  have hsound := hσ.sound n
  exact Task.has_of_actor hsound.linked (hsound.head hexec.agenda) (Task.actor_of_includes? ht)

variable (hopen : (σ n).world.isStopping i.host = false)

include hopen

/-- What a host says when a script includes. -/
theorem told_of_includes : told σ i.host n = ((σ n).world.host i.host).misses
    (((σ n).world.host i.host).unresolved i.references) := by
  have hkey := hσ.has_of_includes hincludes
  obtain ⟨t, rest, hexec, ht⟩ := hincludes
  obtain ⟨es, hsaid, hmisses⟩ := Task.react_includes_says (o := (σ n).outcome) ht hopen hkey
  rw [← world_after hexec] at hsaid
  rw [told, heard_eq hsaid, hmisses]

/-- A script that waits gets its batch next. -/
theorem batch_of_includes (hwaits : i.callback = none) : ∃ given tail,
    (σ (n + 1)).agenda = .batch i.host (i.urls σ n) given :: tail := by
  have hkey := hσ.has_of_includes hincludes
  obtain ⟨t, rest, hexec, ht⟩ := hincludes
  obtain ⟨hmoves, ⟨-, -, given, tail, hnext⟩ | ⟨callback, _, hcallback, -⟩⟩ :=
    Task.react_includes (o := (σ n).outcome) ht hopen hkey
  · have hcrashed := hmoves.crashed
    rw [← world_after hexec, (hσ.sound n).uncrashed hexec.agenda] at hcrashed
    rw [after hexec hcrashed, hnext]
    exact ⟨given, tail ++ rest, rfl⟩
  · rw [hwaits] at hcallback
    cases hcallback

variable {callback : Callback} (hcallback : i.callback = some callback)

include hcallback

/-- A script that does not wait has its batch fetched. -/
theorem world_of_includes : ∃ entry, (σ (n + 1)).world =
    (((σ n).world.resolveAll i.host i.references).2.fetch i.host (i.urls σ n)
      (.includeAll callback)).note entry := by
  have hkey := hσ.has_of_includes hincludes
  obtain ⟨t, rest, hexec, ht⟩ := hincludes
  obtain ⟨-, ⟨hwaits, -⟩ | ⟨callback', entry, hcallback', hworld⟩⟩ :=
    Task.react_includes (o := (σ n).outcome) ht hopen hkey
  · rw [hwaits] at hcallback
    cases hcallback
  · cases hcallback.symm.trans hcallback'
    exact ⟨entry, (world_after hexec).trans hworld⟩

/-- What is kept for an include. -/
theorem kept_of_includes {index : Nat} {f : KeptFetch} (hkept : KeptAt σ n c index f) :
    f.host = i.host ∧ f.urls = i.urls σ n ∧ f.purpose = .includeAll callback := by
  obtain ⟨entry, hworld⟩ := hσ.world_of_includes hincludes hopen hcallback
  have happend := hσ.kept_first hkept
  have hresolve : ((σ n).world.resolveAll i.host i.references).2.fetches =
      (σ n).world.fetches :=
    resolveAll_keeps (a := .fetches) (σ n).world i.host i.references
  rw [hworld] at happend
  rcases fetch_fetches ((σ n).world.resolveAll i.host i.references).2 i.host (i.urls σ n)
    (.includeAll callback) with hsame | ⟨fetcher, hfetch⟩
  · have hlength := congrArg List.length ((hsame.trans hresolve).symm.trans happend)
    simp at hlength
  · rw [hresolve] at hfetch
    cases List.append_cancel_left (happend.symm.trans hfetch)
    exact ⟨rfl, rfl, rfl⟩

/-- An include that is answered at once leaves no fetch behind. -/
theorem not_kept_of_replies (hnow : (σ n).world.repliesNow? i.host (i.urls σ n) = some results)
    (hnc : n < c) : n ∉ dates σ c := by
  obtain ⟨entry, hworld⟩ := hσ.world_of_includes hincludes hopen hcallback
  have hresolve : ((σ n).world.resolveAll i.host i.references).2.fetches =
      (σ n).world.fetches :=
    resolveAll_keeps (a := .fetches) (σ n).world i.host i.references
  rw [← resolveAll_repliesNow? _ _ i.references] at hnow
  have hsame : (σ (n + 1)).world.fetches = (σ n).world.fetches := by
    rw [hworld]
    exact (fetch_include_fetches hnow).trans hresolve
  apply hσ.not_kept_later (Nat.lt_succ_self n) hnc
  simp only [dates, hsame, Nat.lt_irrefl, if_false]
  exact fun hmem => Nat.lt_irrefl n ((hσ.dates_sorted n).2 n hmem)

/-- An include is answered once. -/
theorem replies_unique {c' : Nat} {results' : FetchResults} (hreplies : Replies σ n i c results)
    (hreplies' : Replies σ n i c' results') : c = c' ∧ results = results' := by
  have hmixed : ∀ {m index f}, KeptAt σ n m index f →
      (σ n).world.repliesNow? i.host (i.urls σ n) = none := by
    intro m index f hkept
    cases hnow : (σ n).world.repliesNow? i.host (i.urls σ n) with
    | none => rfl
    | some results =>
        have hnm : n < m := (hσ.dates_sorted m).2 n (List.mem_of_getElem? hkept.date)
        exact absurd (List.mem_of_getElem? hkept.date)
          (hσ.not_kept_of_replies hincludes hopen hcallback hnow hnm)
  rcases hreplies with ⟨rfl, hnow⟩ | ⟨index, f, hkept, ⟨t, rest, hexec, hcompletes⟩, rfl⟩ <;>
  rcases hreplies' with ⟨rfl, hnow'⟩ | ⟨index', f', hkept', ⟨t', rest', hexec', hcompletes'⟩, rfl⟩
  · exact ⟨rfl, Option.some.inj (hnow.symm.trans hnow')⟩
  · cases hnow.symm.trans (hmixed hkept')
  · cases hnow'.symm.trans (hmixed hkept)
  · obtain rfl := hσ.taken_once hkept hexec (Task.takes_of_completes hcompletes) hkept' hexec'
      (Task.takes_of_completes hcompletes')
    cases (hexec.unique hexec').1
    cases hcompletes.symm.trans hcompletes'
    cases hkept.fetch.symm.trans hkept'.fetch
    exact ⟨rfl, rfl⟩

omit hcallback in
theorem arrives_unique {a a' : Nat} (harrives : Arrives σ n i a) (harrives' : Arrives σ n i a') :
    a = a' := by
  cases hcallback : i.callback with
  | none =>
      rw [Arrives, hcallback] at harrives harrives'
      exact harrives.trans harrives'.symm
  | some callback =>
      rw [Arrives, hcallback] at harrives harrives'
      obtain ⟨c, d, results, rfl, hreplies, -, htakes⟩ := harrives
      obtain ⟨c', d', results', rfl, hreplies', -, htakes'⟩ := harrives'
      obtain ⟨rfl, -⟩ := hσ.replies_unique hincludes hopen hcallback hreplies hreplies'
      rw [htakes.unique htakes']

/-- The answer to an include is posted to its host. -/
theorem posts_of_replies (hreplies : Replies σ n i c results)
    (halive : ((σ c).world.host i.host).alive = true) :
    Posts σ i.host c (.includeReady (i.urls σ n) callback results) := by
  rcases hreplies with ⟨rfl, hnow⟩ | ⟨index, f, hkept, ⟨t, rest, hexec, hcompletes⟩, rfl⟩
  · obtain ⟨entry, hworld⟩ := hσ.world_of_includes hincludes hopen hcallback
    obtain ⟨outlet, hhost, -⟩ := (σ c).world.resolveAll_host i.host i.references
    rw [← resolveAll_repliesNow? _ _ i.references] at hnow
    have hstill : (((σ c).world.resolveAll i.host i.references).2.host i.host).alive = true := by
      rw [hhost]
      exact halive
    rw [Posts, waiting, waiting, hworld]
    refine (fetch_include_posts hnow hstill).trans ?_
    rw [hhost]
  · obtain ⟨hhost, hurls, hpurpose⟩ := hσ.kept_of_includes hincludes hopen hcallback hkept
    obtain ⟨scope, actions, rfl⟩ := Task.completes?_iff.mp hcompletes
    have hworld : (σ (c + 1)).world = ((σ c).world.complete index).1.note
        (.answered "complete" ((σ c).world.complete index).2) := world_after hexec
    rw [Posts, waiting, waiting, hworld]
    simp only [complete, hkept.fetch, hhost, hurls, hpurpose]
    exact congrArg Host.commands (answerFetch_include_host
      (w := { (σ c).world with fetches := (σ c).world.fetches.eraseIdx index }) halive)

omit hincludes hopen hcallback in
theorem le_of_replies (hreplies : Replies σ n i c results) : n ≤ c := by
  rcases hreplies with ⟨rfl, -⟩ | ⟨index, f, hkept, -⟩
  · exact Nat.le_refl _
  · exact Nat.le_of_lt ((hσ.dates_sorted c).2 n (List.mem_of_getElem? hkept.date))

/-- When the answer to an include is taken its batch comes up, and the callback comes after it. -/
theorem batch_of_takes (hreplies : Replies σ n i c results) (hcd : c < d)
    (htakes : Takes σ i.host c d) : ∃ rest, Executes σ d (.drain i.host) rest ∧
      (σ (d + 1)).agenda = .batch i.host (i.urls σ n) results :: .call i.host callback [] ::
        .report i.host :: .drain i.host :: rest := by
  have hkey := hσ.has_later (hσ.le_of_replies hreplies) (hσ.has_of_includes hincludes)
  obtain ⟨rest, hexec⟩ := htakes.drains
  have halive := hσ.alive_before (Nat.le_of_lt hcd) hkey (hσ.alive_of_drain hexec)
  have hposts := hσ.posts_of_replies hincludes hopen hcallback hreplies halive
  have hcommand := hσ.command_of_takes hposts hkey hcd htakes
  obtain ⟨others, hwaiting⟩ : ∃ others, ((σ d).world.host i.host).commands =
      .includeReady (i.urls σ n) callback results :: others := by
    rw [waiting] at hcommand
    cases hcommands : ((σ d).world.host i.host).commands with
    | nil => simp [hcommands] at hcommand
    | cons first others =>
        rw [hcommands] at hcommand
        cases hcommand
        exact ⟨others, rfl⟩
  have hreact : (Task.react (σ d).world (σ d).outcome (.drain i.host)) =
      ⟨(σ d).world.setHost i.host { (σ d).world.host i.host with commands := others },
        (σ d).outcome, [.batch i.host (i.urls σ n) results, .call i.host callback [],
          .report i.host, .drain i.host]⟩ := by
    simp only [Task.react, Task.drainOne, hwaiting]
  refine ⟨rest, hexec, ?_⟩
  have hcrashed : (σ (d + 1)).world.crashed = false := by
    rw [world_after hexec, hreact]
    exact (hσ.sound d).uncrashed hexec.agenda
  rw [after hexec hcrashed, hreact]
  rfl

omit hincludes hopen hcallback in
theorem le_of_arrives {a : Nat} (harrives : Arrives σ n i a) : n ≤ a := by
  cases hcallback : i.callback with
  | none =>
      rw [Arrives, hcallback] at harrives
      exact harrives ▸ Nat.le_succ n
  | some callback =>
      rw [Arrives, hcallback] at harrives
      obtain ⟨c, d, results, rfl, hreplies, hcd, -⟩ := harrives
      have hnc := hσ.le_of_replies hreplies
      omega

omit hcallback in
theorem batch_of_arrives {a : Nat} (harrives : Arrives σ n i a) : ∃ given tail,
    (σ a).agenda = .batch i.host (i.urls σ n) given :: tail := by
  cases hcallback : i.callback with
  | none =>
      rw [Arrives, hcallback] at harrives
      exact harrives ▸ hσ.batch_of_includes hincludes hopen hcallback
  | some callback =>
      rw [Arrives, hcallback] at harrives
      obtain ⟨c, d, results, rfl, hreplies, hcd, htakes⟩ := harrives
      obtain ⟨rest, -, hagenda⟩ :=
        hσ.batch_of_takes hincludes hopen hcallback hreplies hcd htakes
      exact ⟨results, _, hagenda⟩

end Behavior

/-- What becomes of the references of an include of step `n`. -/
structure Included (σ : Nat → Machine) (n : Nat) (i : Include) : Prop where
  /-- Those that mean nothing are reported at once, in the order of the list. -/
  reported : told σ i.host n = ((σ n).world.host i.host).misses
    (((σ n).world.host i.host).unresolved i.references)
  /-- The batch of the others comes up once. -/
  once : ∀ a a', Arrives σ n i a → Arrives σ n i a' → a = a'
  /-- Then its entries are treated in the order of the list, each once and as its result says,
  whatever the results are, unless a stop-all call begins before the batch is over. -/
  treated : ∀ a, Arrives σ n i a → ∃ given tail,
    (σ a).agenda = .batch i.host (i.urls σ n) given :: tail ∧
    ∀ (results : FetchResults) (τ : Nat → Machine), τ a = (σ a).reply results →
      (∀ k, a ≤ k → (τ k).Next (τ (k + 1))) → ∀ m, a ≤ m → (τ m).world.crashed = false →
      (∀ k, n ≤ k → k < a → ¬ StopsAll σ ((σ n).world.host i.host).registry k) →
      (∀ k, a ≤ k → k < m → ¬ StopsAll τ ((σ n).world.host i.host).registry k) →
      Proceeds τ i.host (i.urls σ n) results tail a m ∧
        (((σ n).world.host i.host).outlet.detached = false →
          ((τ m).world.host i.host).outlet.detached = false)
  /-- The reports are heard if no stop-all call began before. -/
  heard : (∀ k, k < n → ¬ StopsAll σ ((σ n).world.host i.host).registry k) →
    ((σ n).world.host i.host).outlet.detached = false

/-- As long as no stop-all call begins, an execution goes on undisturbed however the batch of an
include is answered. -/
theorem Behavior.undisturbed_of_reply {σ τ : Nat → Machine} (hσ : Behavior σ) {n a m : Nat}
    {i : Include} {results : FetchResults} (hincludes : Includes σ n i)
    (hopen : (σ n).world.isStopping i.host = false) (hna : n ≤ a)
    (hbefore : ∀ k, n ≤ k → k < a → ¬ StopsAll σ ((σ n).world.host i.host).registry k)
    (hreply : τ a = (σ a).reply results) (hnext : ∀ k, a ≤ k → (τ k).Next (τ (k + 1)))
    (hquiet : ∀ k, a ≤ k → k < m → ¬ StopsAll τ ((σ n).world.host i.host).registry k) :
    Onward τ a ∧ ∀ k, a ≤ k → k ≤ m → (τ k).world.isStopping i.host = false ∧
      (((σ n).world.host i.host).outlet.detached = false →
        ((τ k).world.host i.host).outlet.detached = false) := by
  have hkey := hσ.has_of_includes hincludes
  have hregistry := (hσ.identity hna hkey).2
  obtain ⟨hhas, hstill, hheard⟩ := (hσ.onward n).undisturbed hna hkey hopen hbefore
  have hτ := (hσ.onward a).of_reply hreply hnext
  have hworld : (τ a).world = (σ a).world := by rw [hreply, reply_world]
  rw [← hworld] at hhas hstill hheard hregistry
  refine ⟨hτ, fun k hak hkm => ?_⟩
  obtain ⟨-, hopens, hattached⟩ := hτ.undisturbed hak hhas hstill fun j haj hjk =>
    hregistry ▸ hquiet j haj (Nat.lt_of_lt_of_le hjk hkm)
  exact ⟨hopens, fun hfirst => hattached (hheard hfirst)⟩

/-- Of the references that a script includes none is lost and none is treated twice, and the order
of the list is kept. -/
theorem include_treats_all {σ : Nat → Machine} (hσ : Behavior σ) {n : Nat} {i : Include}
    (hincludes : Includes σ n i) (hopen : (σ n).world.isStopping i.host = false) :
    Included σ n i where
  reported := hσ.told_of_includes hincludes hopen
  once _ _ := hσ.arrives_unique hincludes hopen
  treated a harrives := by
    obtain ⟨given, tail, hagenda⟩ := hσ.batch_of_arrives hincludes hopen harrives
    refine ⟨given, tail, hagenda, fun results τ hreply hnext m ham hcrashed hbefore hquiet => ?_⟩
    have hna := hσ.le_of_arrives harrives
    obtain ⟨hτ, hcalm⟩ := hσ.undisturbed_of_reply hincludes hopen hna hbefore hreply hnext hquiet
    exact ⟨hτ.proceeds ham (hreply ▸ reply_agenda hagenda) hcrashed
      fun k hak hkm => (hcalm k hak (Nat.le_of_lt hkm)).1, (hcalm m ham (Nat.le_refl m)).2⟩
  heard hquiet := (hσ.open_of_quiet (hσ.has_of_includes hincludes) hquiet).2

/-- Whether an include calls back this function of the script engine, or nothing. -/
def Include.calls (i : Include) (function? : Option String) : Bool :=
  match i.callback, function? with
  | none, none => true
  | some (.script own), some function => own = function
  | _, _ => false

theorem Include.callback_of_calls {i : Include} {function? : Option String}
    (hcalls : i.calls function? = true) : i.callback = function?.map .script := by
  unfold calls at hcalls
  split at hcalls
  · rename_i hcallback
    exact hcallback
  · rename_i hcallback
    rw [hcallback, of_decide_eq_true hcalls]
    rfl
  · cases hcalls

namespace Machine

/-- A trace in which the batch of moment `a` is answered with these results. -/
def answered (m : Machine) (results : FetchResults) (a k : Nat) : Machine :=
  ((m.trace a).reply results).trace (k - a)

variable {m : Machine} {results : FetchResults} {a k : Nat}

theorem answered_start : m.answered results a a = (m.trace a).reply results := by
  rw [answered, Nat.sub_self]
  rfl

theorem answered_succ (hak : a ≤ k) :
    m.answered results a (k + 1) = (m.answered results a k).step := by
  rw [answered, answered, Nat.sub_add_comm hak, trace_succ]

theorem answered_next (hak : a ≤ k) :
    (m.answered results a k).Next (m.answered results a (k + 1)) :=
  answered_succ hak ▸ .step

/-- Includes that call no native actions back can be read off the agendas. -/
theorem includes_trace {host n : Nat} {references : List String} (function? : Option String)
    (hincludes : (m.trace n).agenda.head?.any (fun t => (t.includes? (m.trace n).world).any
      fun i => i.host = host ∧ i.references = references ∧ i.calls function?) = true) :
    Includes m.trace n ⟨host, references, function?.map .script⟩ := by
  obtain ⟨t, rest, hexec, htest⟩ := executes_trace_iff.mpr hincludes
  obtain ⟨i, hi, hfields⟩ := (Option.any_eq_true _ _).mp htest
  obtain ⟨rfl, rfl, hcalls⟩ := of_decide_eq_true hfields
  exact ⟨t, rest, hexec, hi.trans (by rw [← Include.callback_of_calls hcalls])⟩

/-- Whether stop-all calls begin can be read off the agendas. -/
theorem not_stopsAll_of_agenda {σ : Nat → Machine} {registry : String}
    (hnone : (σ k).agenda.head?.bind Task.stopsAll? = none) : ¬ StopsAll σ registry k := by
  rintro ⟨t, rest, hexec, hstops⟩
  rw [hexec.agenda] at hnone
  cases hstops.symm.trans hnone

end Machine

/-- A script includes a text that comes twice, one that is missing, one that faults, and something
that means nothing. -/
def Machine.medley : Machine :=
  .start (.start default [("http://x/a.js", "A"), ("http://x/f.js", "throw oops")] [] [] default)
    [.build ⟨"h", "body", "h.js", some "http://x/", .standard, "", none,
        some ⟨false, true, false, false⟩, false, none, false, 1⟩ [],
      .inScript (some "h") (.includeAll ["a.js", "http://[", "b.js", "f.js", "a.js"] none)]

theorem Machine.medley_behavior : Behavior medley.trace :=
  trace_behavior ..

/-- A different answer, in which the first text is not found. -/
def FetchResults.poorer : FetchResults :=
  ((Url.parse? "http://x/f.js").map fun url => (url, .ok "throw oops")).toList ++
    ((Url.parse? "http://x/a.js").map fun url => (url, .error (.notFound "http://x/a.js"))).toList

/-- What means nothing is reported first, and with a different answer the others are treated in
the order of the list as well. -/
theorem medley_treats_all :
    told medley.trace 0 1 = [(.loader, .errorLoadingScript "http://[")] ∧
      ∃ (τ : Nat → Machine) (tail : List Task) (j : Nat),
        τ 2 = (medley.trace 2).reply .poorer ∧
          Log (Treats τ 0 .poorer tail) 2 (j + 1) [.reported "http://x/a.js",
            .reported "http://x/b.js", .evaluated "throw oops" "http://x/f.js" 1,
            .reported "http://x/a.js"] := by
  let i : Include := ⟨0, ["a.js", "http://[", "b.js", "f.js", "a.js"], none⟩
  have hincludes : Includes medley.trace 1 i := ⟨_, _, ⟨rfl, trace_succ _ _⟩, rfl⟩
  have hincluded := include_treats_all medley_behavior hincludes (by decide +kernel)
  refine ⟨hincluded.reported.trans (by decide +kernel), medley.answered .poorer 2, ?_⟩
  obtain ⟨given, tail, -, htreated⟩ := hincluded.treated 2 rfl
  have hbefore : ∀ k < 2, ¬ StopsAll medley.trace "" k := by decide +kernel
  have hnone : ∀ k < 40, (medley.answered .poorer 2 k).agenda.head?.bind
      Task.stopsAll? = none := by decide +kernel
  obtain ⟨hproceeds, -⟩ := htreated .poorer _ answered_start (fun _ => answered_next) 40
    (by decide) (by decide +kernel) (fun k _ => hbefore k)
    fun k _ hk => not_stopsAll_of_agenda (hnone k hk)
  cases hproceeds with
  | underway treated next left hlist hatmost hwaits hlog =>
      have hnothing : (medley.answered .poorer 2 40).agenda = [] := by
        rw [← List.isEmpty_iff]
        decide +kernel
      simp [hnothing] at hwaits
  | through j haj hj hends hlog =>
      have htreatments : (i.urls medley.trace 1).map FetchResults.poorer.treatment =
          [.reported "http://x/a.js", .reported "http://x/b.js",
            .evaluated "throw oops" "http://x/f.js" 1, .reported "http://x/a.js"] := by
        decide +kernel
      rw [htreatments] at hlog
      exact ⟨tail, j, answered_start, hlog⟩

end TickHost
