import TickHost.Proofs.Order
import TickHost.Proofs.Spans

/-!
Who runs when a stop-all call returns. No living member of the registry does. But a stop-all call
takes the hosts that it has stopped off the registry, and a host that is run again is not entered
anew: later calls pass it over, and it is exactly such hosts that a call may leave running.
-/

namespace TickHost

open World Machine

def Answer.isReady : Answer → Bool
  | ready => true
  | _ => false

/-- The deed begins a stop-all call on a registry or looks after one. -/
def WorldDeed.stops (w : World) (registry : String) : WorldDeed → Bool
  | stopAll name _ => name = registry
  | poll job =>
      match w.jobs.get? job with
      | some (.stopAll call) => call.registry = registry
      | _ => false
  | _ => false

namespace World

/-- A host is among the members of a registry. -/
def enlists (w : World) (registry : String) (key : Nat) : Bool :=
  (w.registry registry).members.any fun (_, member) => member = key

variable {w : World} {registry : String} {key : Nat}

theorem enlists_iff : w.enlists registry key = true ↔
    ∃ id, (id, key) ∈ (w.registry registry).members := by
  simp [enlists]

theorem abandon_members (w : World) (job : Job) (registry : String) :
    ((w.abandon job).registry registry).members = (w.registry registry).members := by
  cases job with
  | stopAll call =>
      simp only [abandon, registry_updateRegistry]
      split
      · rename_i heq
        rw [heq]
      · rfl
  | done _ | evaluations _ => rfl

theorem keep_members (w : World) (name : String) (job : Job) (registry : String) :
    ((w.keep name job).1.registry registry).members = (w.registry registry).members := by
  unfold keep
  dsimp only
  split
  · exact abandon_members w _ registry
  · rfl

theorem keepCall_members (name : String) (left : Option StopAll × World) (registry : String) :
    ((keepCall name left).1.registry registry).members = (left.2.registry registry).members := by
  obtain ⟨_ | call, w'⟩ := left
  · rfl
  · exact keep_members w' name _ registry

theorem wait_members (w : World) (name : String) (job : Job) (registry : String) :
    ((w.wait name job).1.registry registry).members = (w.registry registry).members := by
  unfold wait
  split
  · rfl
  · exact keep_members w name job registry

theorem keep_host (w : World) (name : String) (job : Job) (key : Nat) :
    (w.keep name job).1.host key = w.host key := by
  unfold keep
  dsimp only
  split
  · rename_i old _
    cases old <;> rfl
  · rfl

theorem keepCall_host (name : String) (left : Option StopAll × World) (key : Nat) :
    (keepCall name left).1.host key = left.2.host key := by
  obtain ⟨_ | call, w'⟩ := left
  · rfl
  · exact keep_host w' name _ key

/-- A call that answers that it is ready has nothing left. -/
theorem keepCall_none {name : String} {left : Option StopAll × World}
    (hready : (keepCall name left).2.isReady = true) : left.1 = none := by
  obtain ⟨_ | call, w'⟩ := left
  · rfl
  · cases hready

/-- The world in which a call on a registry begins its visits. -/
theorem begin_curbs (w : World) (registry : String) :
    w.Curbs (w.updateRegistry registry fun r => { r with stopping := r.stopping + 1 }) :=
  .stopping w registry (· + 1)

/-- What deals with jobs but stops another registry or none takes no member off. -/
theorem doDeed_other {deed : WorldDeed} (hwaits : deed.waits = true)
    (hother : deed.stops w registry = false) :
    ((w.doDeed deed).1.registry registry).members = (w.registry registry).members := by
  cases deed with
  | stopAll name job =>
      have hne : name ≠ registry := by simpa [WorldDeed.stops] using hother
      show ((w.stopAll name job).1.registry registry).members = _
      rw [stopAll, keepCall_members, visitAll_other _ _ _ hne, registry_updateRegistry, if_neg hne]
  | poll job =>
      show ((w.poll job).1.registry registry).members = _
      unfold poll
      split
      · rfl
      · rename_i kept hkept
        dsimp only
        split
        · rename_i call
          have hne : call.registry ≠ registry := by
            simpa [WorldDeed.stops, hkept] using hother
          have herase : ({ w with jobs := w.jobs.erase job } : World).registry registry =
              w.registry registry := rfl
          rw [keepCall_members, resume_other _ _ hne, herase]
        · exact wait_members _ job _ registry
  | dropJob job =>
      show ((w.dropJob job).1.registry registry).members = _
      unfold dropJob
      split
      · rfl
      · exact abandon_members _ _ registry
  | waitDone handle job | waitEvaluations handle job =>
      unfold doDeed
      dsimp only
      split
      · exact wait_members w job _ registry
      · rfl
  | _ => cases hwaits

section Deed

variable (horderly : w.Orderly none) (hsettled : w.Settled)

include horderly hsettled

/-- A living host that runs is not taken off its registry. -/
theorem doDeed_kept (hroster : w.Roster) {deed : WorldDeed} (hwaits : deed.waits = true) {id : Nat}
    (hmem : (id, key) ∈ (w.registry registry).members) (hrunning : (w.host key).running = true)
    (halive : ((w.doDeed deed).1.host key).alive = true) :
    (id, key) ∈ ((w.doDeed deed).1.registry registry).members := by
  cases hstops : deed.stops w registry with
  | false => rwa [doDeed_other hwaits hstops]
  | true =>
      cases deed with
      | stopAll name job =>
          obtain rfl : name = registry := by simpa [WorldDeed.stops] using hstops
          have hbegin := begin_curbs w name
          have hbegun : (id, key) ∈ ((w.updateRegistry name fun r =>
              { r with stopping := r.stopping + 1 }).registry name).members := by
            rw [registry_updateRegistry, if_pos rfl]
            exact hmem
          rw [doDeed, stopAll, keepCall_host] at halive
          rw [doDeed, stopAll, keepCall_members]
          exact visitAll_kept (hbegin.settled hsettled) (hbegin.roster hroster)
            (hbegin.roster hroster |>.members name) hbegun hrunning halive
      | poll job =>
          simp only [doDeed] at halive ⊢
          unfold poll at halive ⊢
          split
          · exact hmem
          · rename_i kept hkept
            simp only [hkept] at halive
            dsimp only at halive ⊢
            cases kept with
            | stopAll call =>
                obtain rfl : call.registry = registry := by
                  simpa [WorldDeed.stops, hkept] using hstops
                have herase := eraseJob_curbs w job
                rw [keepCall_host] at halive
                rw [keepCall_members]
                exact resume_kept (herase.settled hsettled)
                  ((horderly.fits job call hkept).curbs herase) (herase.roster hroster) hmem
                  hrunning halive
            | done _ | evaluations _ => simp [WorldDeed.stops, hkept] at hstops
      | _ => cases hstops

/-- When a call returns no living member of its registry runs. -/
theorem doDeed_idle {deed : WorldDeed} (hstops : deed.stops w registry = true)
    (hready : (w.doDeed deed).2.isReady = true) {id : Nat}
    (hmem : (id, key) ∈ (w.registry registry).members)
    (halive : ((w.doDeed deed).1.host key).alive = true) : (w.host key).running = false := by
  cases deed with
  | stopAll name job =>
      obtain rfl : name = registry := by simpa [WorldDeed.stops] using hstops
      have hbegin := begin_curbs w name
      rw [doDeed, stopAll] at hready
      rw [doDeed, stopAll, keepCall_host] at halive
      refine visitAll_none (hbegin.settled hsettled) (keepCall_none hready) id key ?_
        (((visitAll_curbs name _ _).acts key true).works.alive halive)
      rw [registry_updateRegistry, if_pos rfl]
      exact hmem
  | poll job =>
      simp only [doDeed] at halive hready
      unfold poll at halive hready
      split at hready
      · cases hready
      · rename_i kept hkept
        simp only [hkept] at halive
        dsimp only at halive hready
        cases kept with
        | stopAll call =>
            obtain rfl : call.registry = registry := by
              simpa [WorldDeed.stops, hkept] using hstops
            have herase := eraseJob_curbs w job
            rw [keepCall_host] at halive
            exact resume_none (herase.settled hsettled)
              ((horderly.fits job call hkept).curbs herase) (keepCall_none hready) id key hmem
              halive
        | done _ | evaluations _ => simp [WorldDeed.stops, hkept] at hstops
  | _ => cases hstops

end Deed

end World

theorem WorldDeed.waits_of_stops {w : World} {registry : String} {deed : WorldDeed}
    (h : deed.stops w registry = true) : deed.waits = true := by
  cases deed <;> first | rfl | cases h

/-- A stop-all call on a registry is begun or looked after in this step. -/
def Stops (σ : Nat → Machine) (registry : String) (n : Nat) : Prop :=
  ∃ scope deed actions rest, Executes σ n (.perform scope (.onWorld deed :: actions)) rest ∧
    deed.stops (σ n).world registry = true

/-- A stop-all call on a registry returns in this step. -/
def Returns (σ : Nat → Machine) (registry : String) (n : Nat) : Prop :=
  ∃ scope deed actions rest, Executes σ n (.perform scope (.onWorld deed :: actions)) rest ∧
    deed.stops (σ n).world registry = true ∧ ((σ n).world.doDeed deed).2.isReady = true

/-- What a script does next, where it concerns no single host. -/
def Task.deed? : Task → Option WorldDeed
  | perform _ (.onWorld deed :: _) => some deed
  | _ => none

theorem Machine.performs_trace_iff {m : Machine} {n : Nat} {p : WorldDeed → Bool} :
    (∃ scope deed actions rest,
      Executes m.trace n (.perform scope (.onWorld deed :: actions)) rest ∧ p deed = true) ↔
      (m.trace n).agenda.head?.any (fun t => t.deed?.any p) = true := by
  rw [← executes_trace_iff]
  constructor
  · exact fun ⟨scope, deed, actions, rest, hexec, htest⟩ => ⟨_, rest, hexec, htest⟩
  · rintro ⟨t, rest, hexec, ht⟩
    unfold Task.deed? at ht
    split at ht
    · exact ⟨_, _, _, rest, hexec, ht⟩
    · cases ht

instance (m : Machine) (registry : String) (n : Nat) : Decidable (Stops m.trace registry n) :=
  decidable_of_iff' _ performs_trace_iff

instance (m : Machine) (registry : String) (n : Nat) : Decidable (Returns m.trace registry n) :=
  decidable_of_iff' _ <| by
    simp only [Returns, ← Bool.and_eq_true]
    exact performs_trace_iff

/-- A stop-all call takes a host off its registry in this step. -/
def TakesOff (σ : Nat → Machine) (registry : String) (key n : Nat) : Prop :=
  Stops σ registry n ∧ (σ n).world.enlists registry key = true ∧
    (σ (n + 1)).world.enlists registry key = false

instance (m : Machine) (registry : String) (key n : Nat) :
    Decidable (TakesOff m.trace registry key n) :=
  inferInstanceAs (Decidable (_ ∧ _ ∧ _))

/-- No run of a host is on its way: it never ran, or its last run is completely over. -/
structure Machine.Rests (m : Machine) (key : Nat) : Prop where
  running : (m.world.host key).running = false
  done : (m.world.host key).done = true
  ended : ∀ t ∈ m.agenda, t.part key ≠ .inside

theorem Machine.Sound.rests {m : Machine} (hsound : m.Sound) {key : Nat}
    (hrunning : (m.world.host key).running = false) : m.Rests key where
  running := hrunning
  done := by
    rw [hsound.done key, hrunning]
    rfl
  ended t ht hinside := by
    obtain ⟨pre, rest, hagenda⟩ := List.append_of_mem ht
    have hnested := hsound.nested key
    rw [hrunning, hagenda] at hnested
    exact hnested.not_inside hinside

namespace Behavior

variable {σ : Nat → Machine} (hσ : Behavior σ) {registry : String} {key n m : Nat}
  {scope : Scope} {deed : WorldDeed} {actions : List Action} {rest : List Task}

omit hσ in
/-- What the world is after an action that deals with jobs. -/
theorem world_of_deed
    (hexec : Executes σ n (.perform scope (.onWorld deed :: actions)) rest)
    (hwaits : deed.waits = true) : (σ (n + 1)).world =
      ((σ n).world.doDeed deed).1.note (.answered deed.name ((σ n).world.doDeed deed).2) := by
  rw [world_after hexec, Task.react_deed _ _ _ hwaits]

include hσ

theorem orderly_of_perform (hexec : Executes σ n (.perform scope actions) rest) :
    (σ n).world.Orderly none := by
  have horderly := hσ.orderly n
  rw [entering_of_agenda hexec.agenda] at horderly
  exact horderly

theorem running_of_perform (hexec : Executes σ n (.perform scope actions) rest) (key : Nat) :
    ((σ (n + 1)).world.host key).running = ((σ n).world.host key).running := by
  have hsound := hσ.sound n
  rw [world_after hexec]
  exact (Task.react_running hsound.linked (hsound.head hexec.agenda) nofun).1

/-- Only the beginning of a run makes a host run. -/
theorem begins_of_rise (hidle : ((σ n).world.host key).running = false)
    (hrunning : ((σ (n + 1)).world.host key).running = true) : Begins σ key n := by
  rcases hσ.host_step key n with hsame | ⟨t, rest, hexec, hworld⟩
  · rw [hsame, hidle] at hrunning
    cases hrunning
  · have hsound := hσ.sound n
    have hkeys := hsound.head hexec.agenda
    rw [hworld] at hrunning
    by_cases hruns : t.runs? = some key
    · by_cases hbegin : t = .beginRun key
      · exact ⟨rest, hbegin ▸ hexec⟩
      · have hstride := Task.react_stride (o := (σ n).outcome) hkeys hruns hbegin
        generalize (t.react (σ n).world (σ n).outcome).world.host key = h at hstride hrunning
        cases hstride with
        | refuse _ | finish _ _ => cases hrunning
        | confirm _ _ | skip _ | update _ _ _ | close _ =>
            exact absurd (hidle.symm.trans hrunning) Bool.false_ne_true
    · rw [(Task.react_running hsound.linked hkeys hruns).1, hidle] at hrunning
      cases hrunning

/-- Every host was entered in its registry when it was built. -/
theorem enlisted_at_first (hkey : (σ n).world.Has key)
    (halive : ((σ n).world.host key).alive = true) : ∃ p, p ≤ n ∧ (σ p).world.Has key ∧
      (σ p).world.enlists ((σ n).world.host key).registry key = true := by
  obtain ⟨p, hpn, hnew, hbuilt⟩ := hσ.born hkey
  have hliving := hσ.alive_before hpn hbuilt halive
  refine ⟨p + 1, hpn, hbuilt, ?_⟩
  rw [enlists_iff, (hσ.identity hpn hbuilt).2]
  obtain ⟨t, rest, hexec, hsets⟩ := hσ.founded hnew hbuilt
  have hsound := hσ.sound p
  rw [world_after hexec] at hbuilt hliving ⊢
  exact (Task.react_effect hsound.linked (hsound.head hexec.agenda) hsets).enrolled hsound.linked
    hsound.roster hnew hbuilt hliving

/-- A living host that is not a member of its registry was taken off by a stop-all call. -/
theorem enlisted_or_taken_off (hkey : (σ n).world.Has key)
    (halive : ((σ n).world.host key).alive = true)
    (hown : ((σ n).world.host key).registry = registry) :
    (σ n).world.enlists registry key = true ∨ ∃ i, i < n ∧ TakesOff σ registry key i := by
  subst hown
  cases hlisted : (σ n).world.enlists ((σ n).world.host key).registry key with
  | true => exact .inl rfl
  | false =>
      obtain ⟨p, hpn, hhas, hfirst⟩ := hσ.enlisted_at_first hkey halive
      obtain ⟨i, hpi, hin, hdown, hafter⟩ := exists_rise
        (fun i => !(σ i).world.enlists ((σ n).world.host key).registry key) hpn
        (by simp [hfirst]) (by simp [hlisted])
      have hbefore := hdown i hpi (Nat.le_refl i)
      simp only [Bool.not_eq_eq_eq_not, Bool.not_true, Bool.not_false] at hbefore hafter
      refine .inr ⟨i, hin, ?_, hbefore, hafter⟩
      obtain ⟨id, hmem⟩ := enlists_iff.mp hbefore
      have hgone : ∀ id', (id', key) ∉
          ((σ (i + 1)).world.registry ((σ n).world.host key).registry).members := by
        intro id' h
        rw [enlists_iff.mpr ⟨id', h⟩] at hafter
        cases hafter
      have hliving := hσ.alive_before hin (hσ.has_later (by omega) hhas) halive
      rcases (hσ.next i).cases with hsame | ⟨t, rest, hagenda, hstep⟩
      · exact absurd ((hsame.members _).mem_iff.mpr hmem) (hgone id)
      · have hsound := hσ.sound i
        rw [hstep, step_world hagenda] at hgone hliving
        cases hwaits : t.waits with
        | false =>
            exact absurd (Task.react_kept hsound.linked (hsound.head hagenda) hsound.roster hwaits
              hmem hliving) (hgone id)
        | true =>
            obtain ⟨scope, deed, actions, rfl, hdeed⟩ := Task.deed_of_waits hwaits
            refine ⟨scope, deed, actions, rest, ⟨hagenda, hstep⟩, ?_⟩
            cases hstops : deed.stops (σ i).world ((σ n).world.host key).registry with
            | true => rfl
            | false =>
                refine absurd ?_ (hgone id)
                rw [Task.react_deed _ _ _ hdeed]
                show _ ∈ (((σ i).world.doDeed deed).1.registry _).members
                rw [doDeed_other hdeed hstops]
                exact hmem

/-- A stop-all call takes no living host off while it runs. -/
theorem idle_of_takesOff (htakes : TakesOff σ registry key n)
    (halive : ((σ (n + 1)).world.host key).alive = true) :
    ((σ (n + 1)).world.host key).running = false := by
  obtain ⟨⟨scope, deed, actions, rest, hexec, hstops⟩, hbefore, hafter⟩ := htakes
  have hwaits := WorldDeed.waits_of_stops hstops
  rw [hσ.running_of_perform hexec]
  cases hrunning : ((σ n).world.host key).running with
  | false => rfl
  | true =>
      obtain ⟨id, hmem⟩ := enlists_iff.mp hbefore
      have hsound := hσ.sound n
      rw [world_of_deed hexec hwaits] at halive hafter
      have hkept := doDeed_kept (hσ.orderly_of_perform hexec) hsound.settled hsound.roster hwaits
        hmem hrunning halive
      have hlisted := enlists_iff.mpr ⟨id, hkept⟩
      exact absurd (hafter.symm.trans hlisted) Bool.false_ne_true

end Behavior

/-- When a stop-all call returns, a living host of its registry is completely at rest, unless an
earlier call took the host off the registry and it was run again since. -/
theorem rests_on_return_iff {σ : Nat → Machine} (hσ : Behavior σ) {registry : String}
    {key n : Nat} (hreturns : Returns σ registry n) (hkey : (σ n).world.Has key)
    (hown : ((σ n).world.host key).registry = registry)
    (halive : ((σ (n + 1)).world.host key).alive = true) :
    (σ (n + 1)).Rests key ↔ ¬ (((σ n).world.host key).running = true ∧
      ∃ i j, i < j ∧ j < n ∧ TakesOff σ registry key i ∧ Begins σ key j) := by
  obtain ⟨scope, deed, actions, rest, hexec, hstops, hready⟩ := hreturns
  have hsame := hσ.running_of_perform hexec key
  constructor
  · rintro hrests ⟨hrunning, -⟩
    rw [← hsame, hrests.running] at hrunning
    cases hrunning
  · intro hnever
    apply (hσ.sound (n + 1)).rests
    rw [hsame]
    cases hrunning : ((σ n).world.host key).running with
    | false => rfl
    | true =>
        have hliving := hσ.alive_before (Nat.le_succ n) hkey halive
        rcases hσ.enlisted_or_taken_off hkey hliving hown with hlisted | ⟨i, hin, htakes⟩
        · obtain ⟨id, hmem⟩ := enlists_iff.mp hlisted
          have hsound := hσ.sound n
          rw [Behavior.world_of_deed hexec (WorldDeed.waits_of_stops hstops)] at halive
          rw [← hrunning]
          exact doDeed_idle (hσ.orderly_of_perform hexec) hsound.settled hstops hready hmem halive
        · refine absurd ⟨hrunning, i, ?_⟩ hnever
          obtain ⟨id, hmem⟩ := enlists_iff.mp htakes.2.1
          have hhas := hσ.has ((hσ.sound i).roster.members registry id key hmem).1
          have hidle := hσ.idle_of_takesOff htakes (hσ.alive_before hin hhas hliving)
          obtain ⟨j, hij, hjn, hdown, hup⟩ := exists_rise
            (fun i => ((σ i).world.host key).running) hin hidle hrunning
          exact ⟨j, hij, hjn, htakes, hσ.begins_of_rise (hdown j hij (Nat.le_refl j)) hup⟩

/-- The call that is polled after the run returns, and the host is at rest. -/
theorem rerun_rests_on_return : Returns rerun.trace "" 33 ∧ (rerun.trace 34).Rests 0 := by
  have hreturns : Returns rerun.trace "" 33 := by decide +kernel
  have hidle : ((rerun.trace 33).world.host 0).running ≠ true := by decide +kernel
  refine ⟨hreturns, (rests_on_return_iff rerun_behavior hreturns ?_ ?_ ?_).mpr
    fun ⟨hrunning, _⟩ => hidle hrunning⟩ <;> decide +kernel

/-- When the host runs again, the call that its program begins returns at once. -/
theorem not_always_idle_on_return : ¬ ∀ σ, Behavior σ → ∀ registry key n, Returns σ registry n →
    (σ n).world.Has key → ((σ n).world.host key).registry = registry →
    ((σ (n + 1)).world.host key).alive = true →
    ((σ (n + 1)).world.host key).running = false := by
  intro hidle
  have hreturns : Returns rerun.trace "" 41 := by decide +kernel
  have hfalse := hidle rerun.trace rerun_behavior "" 0 41 hreturns (by decide +kernel)
    (by decide +kernel) (by decide +kernel)
  have hrunning : ((rerun.trace 42).world.host 0).running = true := by decide +kernel
  rw [hrunning] at hfalse
  cases hfalse

end TickHost
