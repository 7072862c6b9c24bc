import TickHost.Proofs.Evaluations
import TickHost.Proofs.Order

/-!
What comes to a standstill while a stop-all call is in flight. Every gate asks whether the registry
is stopping all, and it is as long as there is a call. But the gates stand before the work: what
has passed its gate when the call begins goes on. So a run that was confirmed before enters its
loop, and an evaluation that was admitted before and then sets its script engine up, which is when
a call can begin, enters the engine.
-/

namespace TickHost

open World Machine

/-- A stop-all call on a registry has been polled and was neither completed nor dropped. -/
def InFlight (σ : Nat → Machine) (registry : String) (n : Nat) : Prop :=
  ∃ job call, (σ n).world.jobs.get? job = some (.stopAll call) ∧ call.registry = registry

theorem inFlight_of_halts {σ : Nat → Machine} {registry : String} {n : Nat} (job : String)
    (h : ((σ n).world.jobs.get? job).any (·.halts.contains registry) = true) :
    InFlight σ registry n := by
  cases hkept : (σ n).world.jobs.get? job with
  | none =>
      rw [hkept] at h
      cases h
  | some kept =>
      rw [hkept] at h
      cases kept with
      | stopAll call => exact ⟨job, call, hkept, by simpa [Job.halts, eq_comm] using h⟩
      | done _ | evaluations _ => cases h

/-- What does not happen to the hosts of a registry in step `n`, while a stop-all call has been in
flight since `a`. -/
structure Standstill (σ : Nat → Machine) (registry : String) (a n : Nat) : Prop where
  /-- No timer is created. -/
  timers : ∀ key, ((σ (n + 1)).world.host key).registry = registry →
    ((σ n).world.host key).timers.NoneNew ((σ (n + 1)).world.host key).timers
  /-- What is fetched is the load of an owner, or code of another registry fetches it. -/
  fetched : (σ (n + 1)).world.fetchLog ≠ (σ n).world.fetchLog ∨
      ¬ (σ (n + 1)).world.fetches.Sublist (σ n).world.fetches →
    ∃ t rest, Executes σ n t rest ∧ (t.loadsUrl = true ∨
      ∃ key, t.actor? (σ n).world = some key ∧ ((σ n).world.host key).registry ≠ registry)
  /-- No script is requested. -/
  requests : ∀ key, ((σ (n + 1)).world.host key).registry = registry →
    ∀ e ∈ heard σ key n (n + 1), e.event.isRequest = false
  /-- An evaluation that is asked for is refused. -/
  evaluations : ∀ key program origin line rest, ((σ n).world.host key).registry = registry →
    Executes σ n (.evaluate key program origin line) rest →
    (σ (n + 1)).world = (σ n).world ∧ (σ (n + 1)).agenda = rest
  /-- What enters the script engine was admitted before, and had the engine set up. -/
  engines : ∀ key program origin line rest, ((σ n).world.host key).registry = registry →
    Executes σ n (.engine key program origin line) rest →
    ∃ j below, j < a ∧ Executes σ j (.evaluate key program origin line) below ∧
      ((σ j).world.host key).initialized = false
  /-- A run that begins is refused. -/
  confirmations : ∀ key rest, ((σ n).world.host key).registry = registry →
    Executes σ n (.confirmRun key) rest →
    ((σ (n + 1)).world.host key).running = false ∧ heard σ key n (n + 1) = [] ∧
      (σ (n + 1)).agenda = rest
  /-- What enters its loop was confirmed before. -/
  loops : ∀ key origin rest, ((σ n).world.host key).registry = registry →
    Executes σ n (.startTicking key origin) rest →
    ∃ j, j < a ∧ Executes σ j (.confirmRun key) rest

namespace Behavior

variable {σ : Nat → Machine} (hσ : Behavior σ) {registry : String} {key a n : Nat}

include hσ

/-- All hosts of a registry are stopping while a call is in flight. -/
theorem stopping_of_inFlight (hflight : InFlight σ registry n)
    (hown : ((σ n).world.host key).registry = registry) : (σ n).world.isStopping key = true := by
  obtain ⟨job, call, hjob, rfl⟩ := hflight
  exact (hσ.orderly n).isStopping hjob hown

/-- Hosts that are stopping get no timer, new ones neither. -/
theorem timers_of_inFlight (hflight : InFlight σ registry n)
    (hown : ((σ (n + 1)).world.host key).registry = registry) :
    ((σ n).world.host key).timers.NoneNew ((σ (n + 1)).world.host key).timers := by
  by_cases hkey : (σ n).world.Has key
  · rw [(hσ.identity (Nat.le_succ n) hkey).2] at hown
    rcases hσ.host_step key n with hsame | ⟨t, rest, hexec, hworld⟩
    · rw [hsame]
      exact .refl _
    · have hsound := hσ.sound n
      rw [hworld]
      exact Task.react_timers hsound.linked (hsound.head hexec.agenda) hkey
        (.inl (hσ.stopping_of_inFlight hflight hown))
  · have hnone : ((σ n).world.host key).timers = .empty := by
      rw [host, Store.get_of_not_mem _ _ hkey]
      rfl
    rw [hnone]
    rcases hσ.newcomer hkey with hdefault | ⟨plan, api, id, bus, hacts⟩
    · rw [hdefault]
      exact .refl _
    · exact (hacts true).works.timers_noneNew (.inl rfl)

theorem requests_of_inFlight (hflight : InFlight σ registry n)
    (hown : ((σ (n + 1)).world.host key).registry = registry) :
    ∀ e ∈ heard σ key n (n + 1), e.event.isRequest = false := by
  by_cases hkey : (σ n).world.Has key
  · rw [(hσ.identity (Nat.le_succ n) hkey).2] at hown
    obtain ⟨es, hsaid, -, hrequest⟩ := hσ.says_step hkey
    rw [heard_eq hsaid]
    exact hrequest (hσ.stopping_of_inFlight hflight hown)
  · have hnone : ((σ n).world.host key).published = [] := by
      rw [host, Store.get_of_not_mem _ _ hkey]
      rfl
    rcases hσ.newcomer hkey with hdefault | ⟨plan, api, id, bus, hacts⟩
    · rw [heard, hdefault]
      intro e he
      cases List.mem_of_mem_drop he
    · obtain ⟨es, hsaid, -, hrequest⟩ := (hacts true).works.utters
      have hheard : heard σ key n (n + 1) = es := heard_eq (by rw [Host.Says, hnone]; exact hsaid)
      rw [hheard]
      exact hrequest rfl

/-- What an effect fetches while a call is in flight. -/
theorem fetched_of_inFlight (hflight : InFlight σ registry n)
    (hfetched : (σ (n + 1)).world.fetchLog ≠ (σ n).world.fetchLog ∨
      ¬ (σ (n + 1)).world.fetches.Sublist (σ n).world.fetches) :
    ∃ t rest, Executes σ n t rest ∧ (t.loadsUrl = true ∨
      ∃ key, t.actor? (σ n).world = some key ∧
        ((σ n).world.host key).registry ≠ registry) := by
  have hnothing : (σ (n + 1)).world.fetchLog = (σ n).world.fetchLog →
      (σ (n + 1)).world.fetches.Sublist (σ n).world.fetches → False := fun hlog hsublist =>
    hfetched.elim (fun h => h hlog) fun h => h hsublist
  rcases (hσ.next n).cases with hsame | ⟨t, rest, hagenda, hstep⟩
  · refine (hnothing ?_ (hsame.fetches ▸ .refl _)).elim
    rw [fetchLog, fetchLog, hsame.journal]
  · refine ⟨t, rest, ⟨hagenda, hstep⟩, ?_⟩
    have hsound := hσ.sound n
    have hkeys := hsound.head hagenda
    rw [hstep, step_world hagenda] at hnothing
    cases hsets : t.sets? with
    | some key =>
        obtain ⟨h, hset, -⟩ := Task.react_sets (o := (σ n).outcome) hsets
          (hkeys key (Task.host?_of_sets? hsets))
        have hsame := fetches_of_ties hset.ties
        exact (hnothing hset.fetchLog (hsame ▸ .refl _)).elim
    | none =>
        have heffect := Task.react_effect (o := (σ n).outcome) hsound.linked hkeys hsets
        cases hfetches : t.fetches (σ n).world with
        | false =>
            rw [hfetches] at heffect
            exact (hnothing heffect.unfetched.1 heffect.unfetched.2).elim
        | true =>
            rw [Task.fetches, Bool.or_eq_true] at hfetches
            apply hfetches.imp id
            intro hactor
            cases hacting : t.actor? (σ n).world with
            | none =>
                rw [hacting] at hactor
                cases hactor
            | some key =>
                refine ⟨key, rfl, fun hown => ?_⟩
                rw [hacting, Option.any_some, hσ.stopping_of_inFlight hflight hown] at hactor
                cases hactor

/-- An evaluation that is entered was admitted, and if the script engine was set up already,
nothing has happened since. -/
theorem admitted {program origin : String} {line : Nat} {rest : List Task}
    (hexec : Executes σ n (.engine key program origin line) rest) :
    ∃ j below, j < n ∧ Executes σ j (.evaluate key program origin line) below ∧
      (σ j).world.isStopping key = false ∧
      (((σ j).world.host key).initialized = true →
        Interrupts.Same (σ j).world (σ n).world) := by
  obtain ⟨j, below, hjn, hpush, hopen, rfl, hstays⟩ := hσ.evaluated (suffix_of_executes hexec)
  refine ⟨j, below, hjn, hpush, hopen, fun hready => ?_⟩
  have hcrashed := (hσ.sound n).uncrashed hexec.agenda
  have hagenda := after hpush (hσ.uncrashed hjn hcrashed)
  rw [Task.react_evaluate_next (o := (σ j).outcome) program origin line hopen] at hagenda
  have hworld : (σ (j + 1)).world = (σ j).world := by
    rw [world_after hpush]
    simp [Task.react, hopen]
  -- first comes the set-up, which does nothing any more
  rcases hσ.stuck_until rfl rfl hagenda hjn with ⟨hhead, -⟩ | ⟨i, hji, hin, hsetup, hsame⟩
  · have hheads := hexec.agenda.symm.trans hhead
    cases hheads
  · have hdone : ((σ i).world.host key).initialized = true := by
      rw [hsame.host, hworld]
      exact hready
    have hidle : (Task.initialise key).react (σ i).world (σ i).outcome =
        ⟨(σ i).world, (σ i).outcome, []⟩ := by
      simp [Task.react, hdone]
    have hworld' : (σ (i + 1)).world = (σ i).world := by
      rw [world_after hsetup, hidle]
    have hagenda' := after hsetup (hσ.uncrashed hin hcrashed)
    rw [hidle] at hagenda'
    rcases hσ.stuck_until rfl rfl hagenda' hin with ⟨-, hsame'⟩ | ⟨k, hik, hkn, hentered, -⟩
    · rw [hworld] at hsame
      rw [hworld'] at hsame'
      exact hsame.trans hsame'
    · exfalso
      -- then it is entered, and does not come again
      have hlater := hstays (k + 1) (by omega) hkn
      rw [after hentered (hσ.uncrashed hkn hcrashed)] at hlater
      have hagain := Task.mem_of_suffix_append hlater
      have hhost := (hσ.sound k).head hentered.agenda key rfl
      have hplain := (Task.engine_follows (o := (σ k).outcome) hhost program origin line).1
      cases List.all_eq_true.mp hplain _ hagain

/-- An evaluation that is asked for while a call is in flight is refused. -/
theorem evaluate_of_inFlight (hflight : InFlight σ registry n)
    (hown : ((σ n).world.host key).registry = registry) {program origin : String} {line : Nat}
    {rest : List Task} (hexec : Executes σ n (.evaluate key program origin line) rest) :
    (σ (n + 1)).world = (σ n).world ∧ (σ (n + 1)).agenda = rest := by
  have hnothing := Task.react_evaluate_refused (o := (σ n).outcome) program origin line
    (hσ.stopping_of_inFlight hflight hown)
  have hworld : (σ (n + 1)).world = (σ n).world := by
    rw [world_after hexec, hnothing]
  refine ⟨hworld, ?_⟩
  rw [after hexec, hnothing]
  · rfl
  · rw [hworld]
    exact (hσ.sound n).uncrashed hexec.agenda

/-- A run that begins while a call is in flight is refused, and nothing is heard of it. -/
theorem confirmRun_of_inFlight (hflight : InFlight σ registry n)
    (hown : ((σ n).world.host key).registry = registry) {rest : List Task}
    (hexec : Executes σ n (.confirmRun key) rest) :
    ((σ (n + 1)).world.host key).running = false ∧ heard σ key n (n + 1) = [] ∧
      (σ (n + 1)).agenda = rest := by
  have hstopping := hσ.stopping_of_inFlight hflight hown
  have hrefused := Task.confirmRun_sets_refused (o := (σ n).outcome) hstopping
  have hhost : (σ (n + 1)).world.host key = ((σ n).world.host key).endRun.markDone := by
    rw [world_after hexec]
    exact hrefused.host_self
  have hcrashed : (σ (n + 1)).world.crashed = false := by
    rw [world_after hexec, crashed_of_ties hrefused.ties]
    exact (hσ.sound n).uncrashed hexec.agenda
  refine ⟨by rw [hhost]; rfl, heard_eq (.silent (by rw [hhost]; rfl)), ?_⟩
  rw [after hexec hcrashed, Task.react_refused_next hstopping]
  rfl

section Since

variable (hflight : ∀ i, a ≤ i → i ≤ n → InFlight σ registry i)
  (hown : ((σ n).world.host key).registry = registry)

include hflight hown

/-- What passes a gate at which it is asked for the registry has done so before the calls began. -/
theorem before_of_open {j : Nat} (hjn : j ≤ n) (hkey : (σ j).world.Has key)
    (hopen : (σ j).world.isStopping key = false) : j < a := by
  rw [(hσ.identity hjn hkey).2] at hown
  refine Nat.lt_of_not_le fun haj => ?_
  rw [hσ.stopping_of_inFlight (hflight j haj hjn) hown] at hopen
  cases hopen

/-- What enters the script engine was admitted before the calls began, and had the engine set
up. -/
theorem engine_of_inFlight (han : a ≤ n) {program origin : String} {line : Nat} {rest : List Task}
    (hexec : Executes σ n (.engine key program origin line) rest) :
    ∃ j below, j < a ∧ Executes σ j (.evaluate key program origin line) below ∧
      ((σ j).world.host key).initialized = false := by
  obtain ⟨j, below, hjn, hevaluate, hopen, hsame⟩ := hσ.admitted hexec
  have hkey := (hσ.sound j).head hevaluate.agenda key rfl
  refine ⟨j, below, ?_, hevaluate, ?_⟩
  · exact hσ.before_of_open hflight hown (Nat.le_of_lt hjn) hkey hopen
  · cases hready : ((σ j).world.host key).initialized with
    | false => rfl
    | true =>
        have hstopping := hσ.stopping_of_inFlight (hflight n han (Nat.le_refl n)) hown
        rw [(hsame hready).isStopping, hopen] at hstopping
        cases hstopping

/-- A run that enters its loop was confirmed before the calls began. -/
theorem startTicking_of_inFlight {origin : String} {rest : List Task}
    (hexec : Executes σ n (.startTicking key origin) rest) :
    ∃ j, j < a ∧ Executes σ j (.confirmRun key) rest := by
  obtain ⟨j, hjn, hconfirm, hopen, -⟩ := hσ.confirmed (suffix_of_executes hexec)
  have hkey := (hσ.sound j).head hconfirm.agenda key rfl
  exact ⟨j, hσ.before_of_open hflight hown (Nat.le_of_lt hjn) hkey hopen, hconfirm⟩

end Since

end Behavior

/-- The task of a run that enters its loop. -/
def Task.startsTicking (key : Nat) : Task → Bool
  | startTicking k _ => k = key
  | _ => false

end TickHost
