import TickHost.Proofs.Sources

/-!
What is heard of the loads that owners ask for. A load that is accepted is answered at once, or its
fetch is kept and answered when that is completed, or nothing ever answers it. Each answer is heard
once, and tells whether the text of its own load came. But it goes by the label that the host has
when it comes, which is the load's own only if no later request has set another one.
-/

namespace TickHost

open World Machine

/-- The report of a load: whether its text came. -/
def Event.ofLoad (label : String) : Option String → Event
  | some _ => .scriptLoaded label
  | none => .errorLoadingScript label

namespace World

/-- A load from this reference is not answered at once: a fetcher keeps it, or is silent. -/
def defers (w : World) (key : Nat) (reference : String) : Bool :=
  (Url.ofSource reference).scheme ≠ "file" &&
    (w.host key).fetcher.any fun fetcher => fetcher.silent || fetcher.deferred

variable (w : World) (key : Nat)

theorem scriptArrived_says (urls : List Url) (results : FetchResults) :
    (w.host key).Says ((w.scriptArrived key urls results).host key)
      ((w.host key).utterance w.clock
        (.ofLoad (w.host key).script.origin (results.text? urls)) .loader) := by
  unfold scriptArrived FetchResults.text?
  dsimp only
  cases urls.head?.bind results.get? with
  | none => exact publish_says w key _ _
  | some result =>
      cases result with
      | error _ => exact publish_says w key _ _
      | ok text =>
          have hsaid := publish_says (w.updateHost key fun h =>
            { h with script := ⟨text, (w.host key).script.origin⟩ }) key
            (.scriptLoaded (w.host key).script.origin) .loader
          rw [host_updateHost, if_pos rfl] at hsaid
          exact hsaid

theorem loadFile_says (url : Url) (reference : String) :
    (w.host key).Says ((w.loadFile key url reference).host key)
      ((w.host key).utterance w.clock
        (.ofLoad ((url.toPath?.map fun path => String.ofList (Utf8.decodeLossy path)).getD
          reference) (url.toPath?.bind fun path => (w.disk.readText path).toOption)) .loader) := by
  unfold loadFile
  cases url.toPath? with
  | none => exact publish_says w key _ _
  | some path =>
      have hsaid : ∀ (script : Script) (event : Event), (w.host key).Says
          (((w.updateHost key fun h => { h with script }).publish key event .loader).host key)
          ((w.host key).utterance w.clock event .loader) := by
        intro script event
        have hsaid := publish_says (w.updateHost key fun h => { h with script }) key event .loader
        rw [host_updateHost, if_pos rfl] at hsaid
        exact hsaid
      dsimp only [Option.bind_some, Option.map_some, Option.getD_some]
      cases hread : w.disk.readText path with
      | ok contents => exact hsaid ⟨contents, _⟩ _
      | error fault =>
          have herror := publish_says (w.updateHost key fun h => { h with script :=
            ⟨h.script.contents, String.ofList (Utf8.decodeLossy path)⟩ }) key
            (.errorLoadingScript (String.ofList (Utf8.decodeLossy path))) .loader
          rw [host_updateHost, if_pos rfl] at herror
          exact herror

theorem fetch_says (url : Url) :
    (w.host key).Says ((w.fetch key [url] .script).host key)
      (if (w.host key).fetcher.any fun fetcher => fetcher.silent || fetcher.deferred then []
        else (w.host key).utterance w.clock (.ofLoad (w.host key).script.origin
          ((w.host key).fetcher.bind fun fetcher =>
            (fetcher.results w.disk w.remote [url]).text? [url])) .loader) := by
  cases hfetcher : (w.host key).fetcher with
  | none =>
      simp only [fetch, hfetcher, answerFetch]
      have hsaid := scriptArrived_says w key [url] (FetchResults.unconfigured [url])
      rw [unconfigured_text?] at hsaid
      exact hsaid
  | some fetcher =>
      simp only [fetch, hfetcher, answerFetch, Option.any_some, Option.bind_some]
      cases fetcher.silent with
      | true => exact .silent rfl
      | false =>
          cases fetcher.deferred with
          | true => exact .silent rfl
          | false =>
              exact scriptArrived_says (w.note (.fetching ([url].map Url.render))) key [url]
                (fetcher.results w.disk w.remote [url])

/-- An accepted load reports at once, under its own label, what it gets at once. -/
theorem loadUrl_says (hidle : (w.host key).running = false) (reference : String) {label : String}
    (hlabel : (HostDeed.loadUrl reference).label? = some label) :
    (w.host key).Says ((w.loadUrl key reference).1.host key)
      (if w.defers key reference then []
        else (w.host key).utterance w.clock
          (.ofLoad label ((HostDeed.loadUrl reference).text? w key)) .loader) := by
  simp only [HostDeed.label?, Option.some.injEq] at hlabel
  rw [loadUrl_eq w key hidle]
  simp only [HostDeed.text?, defers]
  by_cases hfile : (Url.ofSource reference).scheme = "file"
  · rw [if_pos hfile] at hlabel
    rw [if_pos hfile, ← hlabel]
    simp only [hfile, ne_eq, not_true_eq_false, decide_false, Bool.false_and, Bool.false_eq_true,
      if_false, if_true]
    have hsaid := loadFile_says (w.updateHost key fun h =>
      { h with script := ⟨h.script.contents, reference⟩ }) key (Url.ofSource reference) reference
    rw [host_updateHost, if_pos rfl] at hsaid
    exact hsaid
  · rw [if_neg hfile] at hlabel
    rw [if_neg hfile, ← hlabel]
    simp only [hfile, ne_eq, not_false_eq_true, decide_true, Bool.true_and, if_false]
    have hsaid := fetch_says (w.updateHost key fun h =>
      { h with script := ⟨h.script.contents, reference⟩ }) key (Url.ofSource reference)
    rw [host_updateHost, if_pos rfl] at hsaid
    refine Eq.trans hsaid ?_
    congr 1
    cases hfetcher : (w.host key).fetcher with
    | none => rfl
    | some fetcher =>
        dsimp only [Option.any_some, Option.bind_some]
        split <;> rfl

/-- A load that is not answered at once leaves a fetch behind, unless the fetcher is silent. -/
theorem loadUrl_defers (hidle : (w.host key).running = false) {reference : String}
    (hdefers : w.defers key reference = true) :
    (∃ fetcher, (w.loadUrl key reference).1.fetches =
        w.fetches ++ [⟨key, fetcher, [Url.ofSource reference], .script⟩]) ∨
      (w.host key).fetcher.any Fetcher.silent = true := by
  simp only [defers, Bool.and_eq_true, decide_eq_true_eq] at hdefers
  obtain ⟨hfile, hlate⟩ := hdefers
  rw [loadUrl_eq w key hidle, if_neg hfile]
  cases hfetcher : (w.host key).fetcher with
  | none => simp [hfetcher] at hlate
  | some fetcher =>
      rw [hfetcher] at hlate
      cases hsilent : fetcher.silent with
      | true => exact .inr hsilent
      | false =>
          have hdeferred : fetcher.deferred = true := by simpa [hsilent] using hlate
          have hsame : ((w.updateHost key fun h =>
              { h with script := ⟨h.script.contents, reference⟩ }).host key).fetcher =
                some fetcher := by
            rw [host_updateHost, if_pos rfl, hfetcher]
          refine .inl ⟨fetcher, ?_⟩
          simp only [fetch, hsame, hsilent, hdeferred, Bool.false_eq_true, if_false, if_true]
          rfl

theorem loadUrl_answers (hidle : (w.host key).running = false) {reference : String}
    (hdefers : w.defers key reference = false) :
    (w.loadUrl key reference).1.fetches = w.fetches := by
  rw [loadUrl_eq w key hidle]
  dsimp only
  split
  · exact loadFile_keeps (a := .fetches) _ key nofun _ _
  · rename_i hfile
    have hsame : ((w.updateHost key fun h =>
        { h with script := ⟨h.script.contents, reference⟩ }).host key).fetcher =
          (w.host key).fetcher := by
      rw [host_updateHost, if_pos rfl]
    have hanswer : ∀ (w' : World) (urls : List Url) (results : FetchResults),
        (w'.answerFetch key urls .script results).fetches = w'.fetches :=
      fun w' urls results => answerFetch_keeps (a := .fetches) w' key urls .script results nofun
    simp only [defers, hfile, ne_eq, not_false_eq_true, decide_true, Bool.true_and] at hdefers
    cases hfetcher : (w.host key).fetcher with
    | none =>
        simp only [fetch, hsame, hfetcher]
        exact hanswer _ _ _
    | some fetcher =>
        simp only [hfetcher, Option.any_some, Bool.or_eq_false_iff] at hdefers
        simp only [fetch, hsame, hfetcher, hdefers, Bool.false_eq_true, if_false]
        exact hanswer _ _ _

/-- The answer to a load that is completed is reported under the label that the host has by then. -/
theorem complete_says {index : Nat} {f : KeptFetch} (hfetch : w.fetches[index]? = some f)
    (hloads : f.loads key = true) :
    (w.host key).Says ((w.complete index).1.host key)
      ((w.host key).utterance w.clock (.ofLoad (w.host key).script.origin
        ((f.fetcher.results w.disk w.remote f.urls).text? f.urls)) .loader) := by
  obtain ⟨host, fetcher, urls, purpose⟩ := f
  obtain ⟨hhost, hpurpose⟩ := Bool.and_eq_true _ _ ▸ hloads
  obtain rfl : host = key := of_decide_eq_true hhost
  cases purpose with
  | includeAll _ => cases hpurpose
  | script =>
      simp only [complete, hfetch, answerFetch]
      exact scriptArrived_says { w with fetches := w.fetches.eraseIdx index } host urls _

end World

namespace Task

/-- The reference of an accepted load. -/
def loads? (w : World) (key : Nat) : Task → Option String
  | perform scope (.onHost named (.loadUrl reference) :: _) =>
      if w.owned? scope named = some key ∧ (w.host key).running = false then some reference
      else none
  | _ => none

/-- The place of the kept fetch that a task answers. -/
def completes? : Task → Option Nat
  | perform _ (.onWorld (.complete index) :: _) => some index
  | _ => none

/-- The place of the kept fetch that a task gives up. -/
def forgets? : Task → Option Nat
  | perform _ (.onWorld (.forget index) :: _) => some index
  | _ => none

variable {w : World} {o : Outcome} {key : Nat} {t : Task}

theorem loads?_iff {reference : String} : t.loads? w key = some reference ↔
    ∃ scope named actions, t = .perform scope (.onHost named (.loadUrl reference) :: actions) ∧
      w.owned? scope named = some key ∧ (w.host key).running = false := by
  constructor
  · intro h
    unfold loads? at h
    split at h
    · split at h
      · rename_i scope named other rest howned
        cases h
        exact ⟨scope, named, rest, rfl, howned⟩
      · cases h
    · cases h
  · rintro ⟨scope, named, actions, rfl, howned⟩
    exact if_pos howned

theorem loads?_of_loads (h : t.loads w key = true) :
    ∃ reference, t.loads? w key = some reference := by
  unfold loads at h
  split at h
  · exact ⟨_, if_pos (of_decide_eq_true h)⟩
  · cases h

theorem completes?_iff {index : Nat} : t.completes? = some index ↔
    ∃ scope actions, t = .perform scope (.onWorld (.complete index) :: actions) := by
  constructor
  · intro h
    unfold completes? at h
    split at h
    · cases h
      exact ⟨_, _, rfl⟩
    · cases h
  · rintro ⟨scope, actions, rfl⟩
    rfl

theorem takes?_cases {index : Nat} (h : t.takes? = some index) :
    t.completes? = some index ∨ t.forgets? = some index := by
  unfold takes? at h
  split at h
  · exact .inl h
  · exact .inr h
  · cases h

end Task

/-- An owner's load from this reference is accepted in this step. -/
def Loads (σ : Nat → Machine) (key a : Nat) (reference : String) : Prop :=
  Brings σ (fun w t => t.loads? w key) a reference

instance (m : Machine) (key a : Nat) (reference : String) :
    Decidable (Loads m.trace key a reference) :=
  inferInstanceAs (Decidable (Brings ..))

/-- The load that was accepted in step `a` is answered in step `m`: in the same one, or because the
fetch that was kept for it is completed. -/
def Lands (σ : Nat → Machine) (key a m : Nat) : Prop :=
  (m = a ∧ ∃ reference, Loads σ key a reference ∧ (σ a).world.defers key reference = false) ∨
    ∃ index f, KeptAt σ a m index f ∧ f.loads key = true ∧
      Brings σ (fun _ t => t.completes?) m index

/-- The load that was accepted in step `a` is given up in step `m`: by a silent fetcher at once, or
with the fetch that was kept for it. -/
def Loses (σ : Nat → Machine) (key a m : Nat) : Prop :=
  (m = a ∧ ∃ reference, Loads σ key a reference ∧ (σ a).world.defers key reference = true ∧
      ((σ a).world.host key).fetcher.any Fetcher.silent = true) ∨
    ∃ index f, KeptAt σ a m index f ∧ f.loads key = true ∧
      Brings σ (fun _ t => t.forgets?) m index

namespace Task

variable {w : World} {o : Outcome} {key : Nat} {t : Task} {reference : String}

theorem label_of_loads? (h : t.loads? w key = some reference) :
    t.label? w key = (HostDeed.loadUrl reference).label? := by
  obtain ⟨scope, named, actions, rfl, howned⟩ := loads?_iff.mp h
  exact if_pos howned

theorem takes_of_completes {index : Nat} (h : t.completes? = some index) :
    t.takes? = some index := by
  obtain ⟨scope, actions, rfl⟩ := completes?_iff.mp h
  rfl

/-- What a load says when it is accepted. -/
theorem react_loads (h : t.loads? w key = some reference) :
    (w.host key).Says ((react w o t).world.host key)
        (if w.defers key reference then []
          else (w.host key).utterance w.clock
            (.ofLoad ((react w o t).world.host key).script.origin (t.text? w key)) .loader) ∧
      (react w o t).world.fetches = (w.loadUrl key reference).1.fetches := by
  obtain ⟨scope, named, actions, rfl, howned, hidle⟩ := loads?_iff.mp h
  have hlabel : (HostDeed.loadUrl reference).label? = some _ := rfl
  have hworld : (react w o (.perform scope (.onHost named (.loadUrl reference) :: actions))).world =
      (w.loadUrl key reference).1.note (.answered "load_url" (w.loadUrl key reference).2) := by
    rw [react_onHost, start_onHost howned, startHostDeed_of_label w key hlabel]
    rfl
  have htext : (perform scope (.onHost named (.loadUrl reference) :: actions)).text? w key =
      (HostDeed.loadUrl reference).text? w key := if_pos ⟨howned, hidle⟩
  rw [hworld, htext]
  refine ⟨?_, rfl⟩
  have hsaid := loadUrl_says w key hidle reference hlabel
  have hscript := loadUrl_script w key hidle reference hlabel
  have horigin := congrArg Script.origin hscript
  dsimp only at horigin
  rw [← horigin] at hsaid
  exact hsaid

/-- What the answer to a load says that was kept. -/
theorem react_completes {index : Nat} {f : KeptFetch} (h : t.completes? = some index)
    (hfetch : w.fetches[index]? = some f) (hloads : f.loads key = true) :
    (w.host key).Says ((react w o t).world.host key)
      ((w.host key).utterance w.clock
        (.ofLoad ((react w o t).world.host key).script.origin (t.text? w key)) .loader) := by
  obtain ⟨scope, actions, rfl⟩ := completes?_iff.mp h
  have hsaid := complete_says w key hfetch hloads
  have horigin : ((w.complete index).1.host key).script.origin = (w.host key).script.origin := by
    rw [complete_script]
  have htext : (perform scope (.onWorld (.complete index) :: actions)).text? w key =
      (f.fetcher.results w.disk w.remote f.urls).text? f.urls := by
    rw [text?, hfetch, Option.bind_some, if_pos hloads]
  rw [← horigin, ← htext] at hsaid
  exact hsaid

end Task

namespace Behavior

variable {σ : Nat → Machine} (hσ : Behavior σ) {key a m n : Nat} {reference : String}

include hσ

/-- A load that is answered was accepted before. -/
theorem loads_of_lands (hlands : Lands σ key a m) :
    a ≤ m ∧ ∃ reference, Loads σ key a reference := by
  rcases hlands with ⟨rfl, reference, hloads, -⟩ | ⟨index, f, hkept, hf, -⟩
  · exact ⟨Nat.le_refl _, reference, hloads⟩
  · obtain ⟨ham, t, rest, hexec, hloads⟩ := hσ.requested_of_kept hkept hf
    obtain ⟨reference, hloads⟩ := Task.loads?_of_loads hloads
    exact ⟨Nat.le_of_lt ham, reference, t, rest, hexec, hloads⟩

/-- A load that is answered at once leaves no fetch behind. -/
theorem not_kept_of_answers (hloads : Loads σ key a reference)
    (hnow : (σ a).world.defers key reference = false) (ham : a < m) : a ∉ dates σ m := by
  obtain ⟨t, rest, hexec, hloads⟩ := hloads
  obtain ⟨-, -, -, -, -, hidle⟩ := Task.loads?_iff.mp hloads
  have hsame : (σ (a + 1)).world.fetches = (σ a).world.fetches := by
    rw [world_after hexec, (Task.react_loads hloads).2, loadUrl_answers _ _ hidle hnow]
  apply hσ.not_kept_later (Nat.lt_succ_self a) ham
  simp only [dates, hsame, Nat.lt_irrefl, if_false]
  exact fun hmem => Nat.lt_irrefl a ((hσ.dates_sorted a).2 a hmem)

/-- The answer to a load comes once. -/
theorem lands_unique {m' : Nat} (hlands : Lands σ key a m) (hlands' : Lands σ key a m') :
    m = m' := by
  have hmixed : ∀ {m' index f}, KeptAt σ a m' index f → ∀ {reference}, Loads σ key a reference →
      (σ a).world.defers key reference = true := by
    intro m' index f hkept reference hloads
    cases hdefers : (σ a).world.defers key reference with
    | true => rfl
    | false =>
        have ham : a < m' := (hσ.dates_sorted m').2 a (List.mem_of_getElem? hkept.date)
        exact absurd (List.mem_of_getElem? hkept.date) (hσ.not_kept_of_answers hloads hdefers ham)
  rcases hlands with ⟨rfl, reference, hloads, hnow⟩ |
    ⟨index, f, hkept, -, t, rest, hexec, hcompletes⟩ <;>
  rcases hlands' with ⟨rfl, reference', hloads', hnow'⟩ |
    ⟨index', f', hkept', -, t', rest', hexec', hcompletes'⟩
  · rfl
  · rw [hmixed hkept' hloads] at hnow
    cases hnow
  · rw [hmixed hkept hloads'] at hnow'
    cases hnow'
  · exact hσ.taken_once hkept hexec (Task.takes_of_completes hcompletes) hkept' hexec'
      (Task.takes_of_completes hcompletes')

omit hσ in
/-- An answer belongs to one load. -/
theorem requested_of_lands (hlands : Lands σ key a m) : requested σ m = a := by
  rcases hlands with ⟨rfl, reference, ⟨t, rest, hexec, hloads⟩, -⟩ |
    ⟨index, f, hkept, -, t, rest, hexec, hcompletes⟩
  · obtain ⟨scope, named, actions, rfl, -⟩ := Task.loads?_iff.mp hloads
    rw [requested, hexec.agenda]
    rfl
  · have htakes := Task.takes_of_completes hcompletes
    rw [requested, hexec.agenda, List.head?_cons, Option.bind_some, htakes, Option.bind_some,
      hkept.date]
    rfl

omit hσ in
/-- An answer is heard in one report, which goes by the label that the host has by then and tells
whether a text came. -/
theorem heard_of_lands (hlands : Lands σ key a m) : ∃ text?,
    heard σ key m (m + 1) = ((σ m).world.host key).utterance (σ m).world.clock
      (.ofLoad ((σ (m + 1)).world.host key).script.origin text?) .loader ∧
      ∀ text, Supplies σ key m text ↔ text? = some text := by
  have hreport : ∃ t rest, Executes σ m t rest ∧
      ((σ m).world.host key).Says ((t.react (σ m).world (σ m).outcome).world.host key)
        (((σ m).world.host key).utterance (σ m).world.clock (.ofLoad
          ((t.react (σ m).world (σ m).outcome).world.host key).script.origin
          (t.text? (σ m).world key)) .loader) := by
    rcases hlands with ⟨rfl, reference, ⟨t, rest, hexec, hloads⟩, hnow⟩ |
      ⟨index, f, hkept, hf, t, rest, hexec, hcompletes⟩
    · have hsaid := (Task.react_loads (o := (σ m).outcome) hloads).1
      rw [hnow] at hsaid
      exact ⟨t, rest, hexec, hsaid⟩
    · exact ⟨t, rest, hexec, Task.react_completes hcompletes hkept.fetch hf⟩
  obtain ⟨t, rest, hexec, hsaid⟩ := hreport
  rw [← world_after hexec] at hsaid
  refine ⟨t.text? (σ m).world key, heard_eq hsaid, fun text => ⟨?_, fun htext => ?_⟩⟩
  · rintro ⟨t', rest', hexec', htext⟩
    rwa [(hexec.unique hexec').1]
  · exact ⟨t, rest, hexec, htext⟩

/-- The label of an answer is that of the latest request that was accepted by then. -/
theorem label_of_lands (hlands : Lands σ key a m) : ∃ asked, a ≤ asked ∧ asked ≤ m ∧
    Labels σ key asked ((σ (m + 1)).world.host key).script.origin ∧
    ∀ k label, asked < k → k ≤ m → ¬ Labels σ key k label := by
  obtain ⟨ham, reference, t, rest, hexec, hloads⟩ := hσ.loads_of_lands hlands
  obtain ⟨scope, named, actions, ht, howned, -⟩ := Task.loads?_iff.mp hloads
  have hlabels : Labels σ key a _ := ⟨t, rest, hexec, Task.label_of_loads? hloads⟩
  have hkey : (σ a).world.Has key := by
    rw [owned?, Option.bind_eq_some_iff] at howned
    obtain ⟨name, -, hname⟩ := howned
    exact (hσ.sound a).linked.names name key hname
  rcases hσ.last_label (Nat.le_succ_of_le ham)
    (fun i hai => hσ.has_later (Nat.le_succ_of_le hai) hkey) with ⟨-, hnone⟩ |
    ⟨asked, haa, ham', hlabel, hlatest⟩
  · exact absurd hlabels (hnone a _ (Nat.le_refl a) (Nat.lt_succ_of_le ham))
  · exact ⟨asked, haa, Nat.le_of_lt_succ ham', hlabel,
      fun k label hk hkm => hlatest k label hk (Nat.lt_succ_of_le hkm)⟩

end Behavior

/-- How far a load is that was accepted in step `a`: answered, or given up, or awaited. -/
inductive Loading (σ : Nat → Machine) (key a n : Nat) : Prop where
  | answered (m : Nat) (hmn : m < n) (hlands : Lands σ key a m)
  | lost (m : Nat) (hmn : m < n) (hloses : Loses σ key a m)
  | awaited (index : Nat) (f : KeptFetch) (hkept : KeptAt σ a n index f) (hf : f.loads key = true)

theorem Behavior.loading {σ : Nat → Machine} (hσ : Behavior σ) {key a n : Nat} {reference : String}
    (hloads : Loads σ key a reference) (han : a < n) : Loading σ key a n := by
  induction han with
  | refl =>
      cases hdefers : (σ a).world.defers key reference with
      | false => exact .answered a (Nat.lt_succ_self a) (.inl ⟨rfl, reference, hloads, hdefers⟩)
      | true =>
          obtain ⟨t, rest, hexec, ht⟩ := id hloads
          obtain ⟨-, -, -, -, -, hidle⟩ := Task.loads?_iff.mp ht
          rcases loadUrl_defers _ _ hidle hdefers with ⟨fetcher, hkept⟩ | hsilent
          · rw [← (Task.react_loads (o := (σ a).outcome) ht).2, ← Behavior.world_after hexec]
              at hkept
            exact .awaited _ _ (hσ.kept_now hkept) (by simp [KeptFetch.loads])
          · exact .lost a (Nat.lt_succ_self a) (.inl ⟨rfl, reference, hloads, hdefers, hsilent⟩)
  | @step n han ih =>
      cases ih with
      | answered m hmn hlands => exact .answered m (Nat.lt_succ_of_lt hmn) hlands
      | lost m hmn hloses => exact .lost m (Nat.lt_succ_of_lt hmn) hloses
      | awaited index f hkept hf =>
          rcases hσ.kept_after hkept with ⟨place, hstill⟩ | ⟨t, rest, hexec, htakes⟩
          · exact .awaited place f hstill hf
          · rcases Task.takes?_cases htakes with hcompletes | hforgets
            · exact .answered n (Nat.lt_succ_self n)
                (.inr ⟨index, f, hkept, hf, t, rest, hexec, hcompletes⟩)
            · exact .lost n (Nat.lt_succ_self n)
                (.inr ⟨index, f, hkept, hf, t, rest, hexec, hforgets⟩)

/-- How the answer in step `m` to the load of step `a` is heard. -/
structure Answered (σ : Nat → Machine) (key a m : Nat) : Prop where
  /-- It is the only answer to this load, and answers no other one. -/
  once : ∀ m', Lands σ key a m' → m' = m
  own : requested σ m = a ∧ ∀ a', Lands σ key a' m → a' = a
  /-- One report is heard, unless the host is cut off: the text has come, or it has not. -/
  report : ∃ text?, heard σ key m (m + 1) =
      ((σ m).world.host key).utterance (σ m).world.clock
        (.ofLoad ((σ (m + 1)).world.host key).script.origin text?) .loader ∧
      ∀ text, Supplies σ key m text ↔ text? = some text
  /-- It goes by the label of the latest request that was accepted by then. -/
  label : ∃ asked, a ≤ asked ∧ asked ≤ m ∧
    Labels σ key asked ((σ (m + 1)).world.host key).script.origin ∧
    ∀ k label, asked < k → k ≤ m → ¬ Labels σ key k label
  /-- That is the load's own label if no request has been accepted since. -/
  same : ∀ label, Labels σ key a label → (∀ k other, a < k → k ≤ m → ¬ Labels σ key k other) →
    ((σ (m + 1)).world.host key).script.origin = label

/-- Every load that is accepted is heard of once, when its answer comes, and is awaited until then
unless it is given up. Its report tells whether its own text came, under the latest label. -/
theorem loads_answered {σ : Nat → Machine} (hσ : Behavior σ) {key a : Nat} {reference : String}
    (hloads : Loads σ key a reference) :
    Labels σ key a ((HostDeed.loadUrl reference).label?.getD reference) ∧
    (∀ m, Lands σ key a m → a ≤ m ∧ Answered σ key a m) ∧
    ((σ a).world.defers key reference = true → heard σ key a (a + 1) = []) ∧
    ∀ n, a < n → Loading σ key a n := by
  refine ⟨?_, fun m hlands => ⟨(hσ.loads_of_lands hlands).1, ?_⟩, fun hdefers => ?_,
    fun n han => hσ.loading hloads han⟩
  · obtain ⟨t, rest, hexec, ht⟩ := hloads
    exact ⟨t, rest, hexec, Task.label_of_loads? ht⟩
  · have hown := Behavior.requested_of_lands hlands
    refine ⟨fun m' hlands' => hσ.lands_unique hlands' hlands,
      ⟨hown, fun a' hlands' => (Behavior.requested_of_lands hlands').symm.trans hown⟩,
      Behavior.heard_of_lands hlands, hσ.label_of_lands hlands, fun label hlabels hnone => ?_⟩
    obtain ⟨asked, haa, ham, ⟨t, rest, hexec, hlabel⟩, -⟩ := hσ.label_of_lands hlands
    rcases Nat.lt_or_eq_of_le haa with hlt | rfl
    · exact absurd ⟨t, rest, hexec, hlabel⟩ (hnone asked _ hlt ham)
    · obtain ⟨t', rest', hexec', hlabel'⟩ := hlabels
      rw [(hexec'.unique hexec).1, hlabel] at hlabel'
      exact Option.some.inj hlabel'
  · obtain ⟨t, rest, hexec, ht⟩ := hloads
    have hsaid := (Task.react_loads (o := (σ a).outcome) ht).1
    rw [hdefers, if_pos rfl, ← Behavior.world_after hexec] at hsaid
    exact Behavior.heard_eq hsaid

theorem Machine.swapped_lands : Lands swapped.trace 0 1 4 := by
  have hfetch : (swapped.trace 4).world.fetches[0]?.any (fun f => f.loads 0) = true := by
    decide +kernel
  obtain ⟨f, hf, hloads⟩ := Option.any_eq_true _ _ |>.mp hfetch
  exact .inr ⟨0, f, ⟨by decide +kernel, hf⟩, hloads, by decide +kernel⟩

/-- The load of the first text is answered last, and heard of under the label of the second one. -/
theorem swapped_answered : Loads swapped.trace 0 1 "http://x/a.js" ∧
    Answered swapped.trace 0 1 4 ∧
    Envelope.events (heard swapped.trace 0 4 5) = [.scriptLoaded "http://x/b.js"] := by
  have hloads : Loads swapped.trace 0 1 "http://x/a.js" := by decide +kernel
  obtain ⟨-, hanswered, -⟩ := loads_answered (trace_behavior ..) hloads
  exact ⟨hloads, (hanswered 4 swapped_lands).2, by decide +kernel⟩

theorem not_always_own_label : ¬ ∀ σ, Behavior σ → ∀ key a m label, Labels σ key a label →
    Lands σ key a m → ((σ m).world.host key).outlet.detached = false →
    ∃ text?, Envelope.events (heard σ key m (m + 1)) = [.ofLoad label text?] := by
  intro hown
  obtain ⟨text?, hfalse⟩ := hown swapped.trace (trace_behavior ..) 0 1 4 "http://x/a.js"
    (by decide +kernel) swapped_lands (by decide +kernel)
  have hheard : Envelope.events (heard swapped.trace 0 4 5) =
      [.scriptLoaded "http://x/b.js"] := by decide +kernel
  rw [hheard] at hfalse
  cases text? with
  | none => cases hfalse
  | some text => simp [Event.ofLoad] at hfalse

end TickHost
