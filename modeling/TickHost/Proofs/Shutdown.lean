import TickHost.Proofs.Course
import TickHost.Proofs.Polls
import TickHost.Proofs.Standstill

/-!
What a stop-all call does to each host that it finds running. It cuts the host off only while no
evaluation of it is under way, and from then on the host is silent until its next run begins. It
waits until the run has completed its whole shutdown, and only then goes on or returns; the host is
not registered any more after that.
-/

namespace TickHost

open World Machine

/-- The stop-all call that is kept under a job waits for a host. -/
def Awaits (σ : Nat → Machine) (job : String) (key n : Nat) : Prop :=
  ∃ call, (σ n).world.jobs.get? job = some (.stopAll call) ∧ call.host = key

instance (σ : Nat → Machine) (job : String) (key n : Nat) : Decidable (Awaits σ job key n) :=
  match hjob : (σ n).world.jobs.get? job with
  | some (.stopAll call) =>
      decidable_of_iff (call.host = key) ⟨fun h => ⟨call, hjob, h⟩, fun ⟨other, hother, h⟩ => by
        cases hjob.symm.trans hother
        exact h⟩
  | some (.done _) | some (.evaluations _) | none =>
      isFalse fun ⟨other, hother, _⟩ => by cases hjob.symm.trans hother

/-- In this step a stop-all call finds a host running: it has just begun and is kept, or it was
polled and has come to this host. -/
def Finds (σ : Nat → Machine) (job : String) (key n : Nat) : Prop :=
  Awaits σ job key (n + 1) ∧ ∃ scope deed actions rest,
    Executes σ n (.perform scope (.onWorld deed :: actions)) rest ∧
      ((∃ registry, deed = .stopAll registry job ∧
          ((σ n).world.doDeed deed).2.isReady = false) ∨
        deed = .poll job ∧ ¬ Awaits σ job key n)

/-- In this step a stop-all call that waited for a host goes on or returns. -/
def Leaves (σ : Nat → Machine) (job : String) (key n : Nat) : Prop :=
  Awaits σ job key n ∧ ¬ Awaits σ job key (n + 1) ∧ ∃ scope actions rest,
    Executes σ n (.perform scope (.onWorld (.poll job) :: actions)) rest

/-- The stop-all call that is kept under a job waits for the evaluations of a host, or for the end
of its run. -/
def AwaitsAt (σ : Nat → Machine) (job : String) (key : Nat) (stage : StopStage) (n : Nat) : Prop :=
  ∃ call, (σ n).world.jobs.get? job = some (.stopAll call) ∧ call.host = key ∧ call.stage = stage

/-- In this step a stop-all call cuts a host off. It has no evaluations to wait for, or no more,
and it comes to wait for the end of the run or leaves the host. -/
def CutsOff (σ : Nat → Machine) (job : String) (key n : Nat) : Prop :=
  ∃ scope deed actions rest, Executes σ n (.perform scope (.onWorld deed :: actions)) rest ∧
    ((∃ registry, deed = .stopAll registry job ∧ ((σ n).world.doDeed deed).2.isReady = false ∧
        AwaitsAt σ job key .done (n + 1)) ∨
      deed = .poll job ∧ (¬ AwaitsAt σ job key .done n ∧ AwaitsAt σ job key .done (n + 1) ∨
        AwaitsAt σ job key .evaluations n ∧ ¬ AwaitsAt σ job key .evaluations (n + 1)))

/-- The stop-all call that is kept under a job has still to visit a host. -/
def ToVisit (σ : Nat → Machine) (job : String) (id key n : Nat) : Prop :=
  ∃ call, (σ n).world.jobs.get? job = some (.stopAll call) ∧ (id, key) ∈ call.rest

/-- In this step a stop-all call comes to visit hosts, and a host is one of them. -/
def Visits (σ : Nat → Machine) (job : String) (id key n : Nat) : Prop :=
  ∃ scope deed actions rest, Executes σ n (.perform scope (.onWorld deed :: actions)) rest ∧
    ((∃ registry, deed = .stopAll registry job ∧
        (id, key) ∈ ((σ n).world.registry registry).members) ∨
      deed = .poll job ∧ ToVisit σ job id key n)

/-- A deed begins a stop-all call that is kept under a job. -/
def WorldDeed.keeps (w : World) (job : String) : WorldDeed → Bool
  | stopAll name kept => kept = job ∧ (w.stopAll name job).2.isReady = false
  | _ => false

/-- A deed polls a job. -/
def WorldDeed.polls (job : String) : WorldDeed → Bool
  | poll name => name = job
  | _ => false

theorem Machine.finds_of_keeps {m : Machine} {job : String} {key n : Nat}
    (hawaits : Awaits m.trace job key (n + 1))
    (h : (m.trace n).agenda.head?.any
      (fun t => t.deed?.any (WorldDeed.keeps (m.trace n).world job)) = true) :
    Finds m.trace job key n := by
  obtain ⟨scope, deed, actions, rest, hexec, hkeeps⟩ := performs_trace_iff.mpr h
  refine ⟨hawaits, scope, deed, actions, rest, hexec, .inl ?_⟩
  cases deed with
  | stopAll name kept =>
      obtain ⟨rfl, hwaits⟩ := of_decide_eq_true hkeeps
      exact ⟨name, rfl, hwaits⟩
  | _ => cases hkeeps

theorem Machine.leaves_of_polls {m : Machine} {job : String} {key n : Nat}
    (hawaits : Awaits m.trace job key n) (hleft : ¬ Awaits m.trace job key (n + 1))
    (h : (m.trace n).agenda.head?.any (fun t => t.deed?.any (WorldDeed.polls job)) = true) :
    Leaves m.trace job key n := by
  obtain ⟨scope, deed, actions, rest, hexec, hpolls⟩ := performs_trace_iff.mpr h
  refine ⟨hawaits, hleft, scope, actions, rest, ?_⟩
  cases deed with
  | poll name => exact of_decide_eq_true hpolls ▸ hexec
  | _ => cases hpolls

/-- The shutdown of a run, which is closed at `c`, flushes the edits at `f` and finishes at `e`. -/
structure Shutdown (σ : Nat → Machine) (key : Nat) (origin : String) (c f e : Nat) : Prop where
  order : c < f ∧ f < e
  frame : ∃ rest, Executes σ c (.close key origin) rest ∧ Executes σ e (.finish key origin) rest
  cancelled : ((σ (c + 1)).world.host key).timers.Cleared
  notified : CalledInTurn σ key [] (((σ (c + 1)).world.host key).callbacks .scriptEnding) (c + 1) f
  flushed : (σ (f + 1)).world = (σ f).world.flushEdits key
  ended : ((σ (e + 1)).world.host key).running = false ∧
    ((σ (e + 1)).world.host key).done = true

/-- No task of an evaluation or a run cuts its host off. -/
theorem Task.not_sets_of_cut {w : World} {o : Outcome} {t : Task} {key : Nat}
    (hkeys : ∀ key, t.host? = some key → w.Has key)
    (hbefore : (w.host key).outlet.detached = false)
    (hafter : ((t.react w o).world.host key).outlet.detached = true) : t.sets? ≠ some key := by
  intro hsets
  have hkey := hkeys key (host?_of_sets? hsets)
  by_cases hruns : t.runs? = some key
  · by_cases hbegin : t = .beginRun key
    · subst hbegin
      rw [beginRun_sets.host_self] at hafter
      cases hafter
    · have hstride := react_stride (o := o) hkeys hruns hbegin
      generalize (t.react w o).world.host key = h at hstride hafter
      refine absurd (hbefore.symm.trans ?_) Bool.false_ne_true
      cases hstride with
      | refuse _ | skip _ => exact hafter
      | confirm _ _ | update _ _ _ => simpa using hafter
      | close _ => simpa [Host.closeRun] using hafter
      | finish _ _ => simpa [Host.finishRun, Host.endRun, Host.markDone] using hafter
  · refine absurd (hbefore.symm.trans ?_) Bool.false_ne_true
    cases t with
    | engine _ program origin line =>
        cases hsets
        rwa [(engine_sets program origin line).host_self] at hafter
    | announce _ =>
        cases hsets
        rw [(announce_sets hkey).host_self] at hafter
        cases o <;> simpa [Host.conclude] using hafter
    | initialise _ =>
        cases hsets
        rwa [(initialise_sets hkey).host_self] at hafter
    | beginRun _ | confirmRun _ | update _ _ | close _ _ | finish _ _ => exact absurd hsets hruns
    | _ => cases hsets

namespace Behavior

variable {σ : Nat → Machine} (hσ : Behavior σ) {job : String} {key i n : Nat}

include hσ

/-- A host is cut off only while no evaluation of it is under way. -/
theorem quiet_of_cut (hkey : (σ n).world.Has key)
    (hbefore : ((σ n).world.host key).outlet.detached = false)
    (hafter : ((σ (n + 1)).world.host key).outlet.detached = true) :
    ((σ n).world.host key).pending = 0 ∧ Task.evaluating key (σ n).agenda = 0 := by
  rcases hσ.host_step key n with hsame | ⟨t, rest, hexec, hworld⟩
  · rw [hsame, hbefore] at hafter
    cases hafter
  · have hsound := hσ.sound n
    rw [hworld] at hafter
    have hkeys := hsound.head hexec.agenda
    have hacts := Task.react_acts (o := (σ n).outcome) hsound.linked hkeys
      (Task.not_sets_of_cut hkeys hbefore hafter) hkey
    have hpending := hacts.idle_of_detach hbefore hafter
    have hdepth := hsound.depth (hsound.uncrashed hexec.agenda) key
    exact ⟨hpending, hdepth.evaluating.trans hpending⟩

theorem polls {call : StopAll} {scope : Scope} {actions : List Action} {rest : List Task}
    (hexec : Executes σ n (.perform scope (.onWorld (.poll job) :: actions)) rest)
    (hcall : (σ n).world.jobs.get? job = some (.stopAll call)) :
    (σ n).world.Polls job call (σ (n + 1)).world := by
  have hsound := hσ.sound n
  have hfits := (hσ.orderly_of_perform hexec).fits job call hcall
  rw [world_of_deed hexec rfl]
  exact (poll_polls hsound.settled hsound.roster hfits hcall).note _

/-- A host that a call finds is running. -/
theorem running_of_finds (hfinds : Finds σ job key n) :
    ((σ (n + 1)).world.host key).running = true := by
  obtain ⟨⟨next, hnext, rfl⟩, scope, deed, actions, rest, hexec, hdeed⟩ := hfinds
  rw [hσ.running_of_perform hexec]
  rcases hdeed with ⟨registry, rfl, hwaits⟩ | ⟨rfl, hnew⟩
  · rw [world_of_deed hexec rfl] at hnext
    exact (stopAll_found (hσ.sound n).settled hwaits hnext).1
  · obtain ⟨call, hcall⟩ := call_of_poll (by rw [world_of_deed hexec rfl] at hnext; exact hnext)
    cases hσ.polls hexec hcall with
    | waits stage hkept _ =>
        cases hkept.symm.trans hnext
        exact absurd ⟨call, hcall, rfl⟩ hnew
    | leaves _ _ _ hfound _ => exact (hfound next hnext).1

/-- A call cuts a host off only while no evaluation of it is under way, and asks it to stop. -/
theorem halts_of_cutsOff (hcuts : CutsOff σ job key n) :
    (σ n).world.Halts (σ (n + 1)).world key := by
  obtain ⟨scope, deed, actions, rest, hexec, hdeed⟩ := hcuts
  rcases hdeed with ⟨registry, rfl, hwaits, next, hnext, rfl, hstage⟩ | ⟨rfl, hchanges⟩
  · have hworld := world_of_deed hexec rfl
    rw [hworld] at hnext
    have hhalts := (stopAll_found (hσ.sound n).settled hwaits hnext).2 hstage
    rw [hworld]
    exact ⟨hhalts.quiet, hhalts.detached, hhalts.finished⟩
  rcases hchanges with ⟨hnew, next, hnext, rfl, hstage⟩ | ⟨⟨call, hcall, rfl, hstage⟩, hgone⟩
  · obtain ⟨call, hcall⟩ := call_of_poll (by rw [world_of_deed hexec rfl] at hnext; exact hnext)
    cases hσ.polls hexec hcall with
    | waits stage hkept hhalts =>
        cases hkept.symm.trans hnext
        exact (hhalts hstage).resolve_left fun h => hnew ⟨call, hcall, rfl, h⟩
    | leaves _ _ _ hfound _ => exact (hfound next hnext).2 hstage
  · cases hσ.polls hexec hcall with
    | waits stage hkept hhalts =>
        cases stage with
        | evaluations => exact absurd ⟨_, hkept, rfl, rfl⟩ hgone
        | done =>
            refine (hhalts rfl).resolve_left fun h => ?_
            rw [hstage] at h
            cases h
    | leaves _ hhalts _ _ _ => exact hhalts hstage

/-- Where a call comes from that is kept under a job. -/
theorem call_before {next : StopAll}
    (hnext : (σ (n + 1)).world.jobs.get? job = some (.stopAll next)) :
    (σ n).world.jobs.get? job = some (.stopAll next) ∨ ∃ scope deed actions rest,
      Executes σ n (.perform scope (.onWorld deed :: actions)) rest ∧
        ((∃ registry, deed = .stopAll registry job ∧
            ((σ n).world.doDeed deed).2.isReady = false) ∨ deed = .poll job) := by
  rcases (hσ.next n).cases with hsame | ⟨t, rest, hagenda, hstep⟩
  · left
    rwa [hsame.jobs] at hnext
  · have hsound := hσ.sound n
    rw [hstep, step_world hagenda] at hnext
    cases hwaits : t.waits with
    | false =>
        left
        rwa [(Task.react_untouched hsound.linked (hsound.head hagenda) hwaits).1] at hnext
    | true =>
        obtain ⟨scope, deed, actions, rfl, hdeed⟩ := Task.deed_of_waits hwaits
        rw [Task.react_deed _ _ _ hdeed] at hnext
        exact (doDeed_call hdeed hnext).imp id fun h =>
          ⟨scope, deed, actions, rest, ⟨hagenda, hstep⟩, h⟩

/-- A call waits for the evaluations of a host until it cuts the host off. -/
theorem cutsOff_of_evaluations (hbefore : AwaitsAt σ job key .evaluations n)
    (hafter : Awaits σ job key (n + 1)) :
    AwaitsAt σ job key .evaluations (n + 1) ∨ CutsOff σ job key n := by
  obtain ⟨next, hnext, hhost⟩ := hafter
  cases hstage : next.stage with
  | evaluations => exact .inl ⟨next, hnext, hhost, hstage⟩
  | done =>
      right
      obtain ⟨call, hcall, -, hevaluations⟩ := hbefore
      rcases hσ.call_before hnext with hsame | ⟨scope, deed, actions, rest, hexec, hdeed⟩
      · cases hsame.symm.trans hcall
        rw [hevaluations] at hstage
        cases hstage
      · refine ⟨scope, deed, actions, rest, hexec, ?_⟩
        rcases hdeed with ⟨registry, rfl, hwaits⟩ | rfl
        · exact .inl ⟨registry, rfl, hwaits, next, hnext, hhost, hstage⟩
        · refine .inr ⟨rfl, .inl ⟨?_, next, hnext, hhost, hstage⟩⟩
          rintro ⟨other, hother, -, hdone⟩
          cases hother.symm.trans hcall
          rw [hevaluations] at hdone
          cases hdone

/-- A call cuts each host off that it finds, before it leaves the host. -/
theorem cutsOff_of_finds (hfinds : Finds σ job key i) (hin : i < n)
    (hawaits : ∀ k, i < k → k ≤ n → Awaits σ job key k) (hleaves : Leaves σ job key n) :
    ∃ j, i ≤ j ∧ j ≤ n ∧ CutsOff σ job key j := by
  have hstages : ∀ k, i < k → k ≤ n →
      AwaitsAt σ job key .evaluations k ∨ ∃ j, i ≤ j ∧ j < k ∧ CutsOff σ job key j := by
    intro k hik
    induction hik with
    | refl =>
        intro _
        obtain ⟨⟨next, hnext, hhost⟩, scope, deed, actions, rest, hexec, hdeed⟩ := hfinds
        cases hstage : next.stage with
        | evaluations => exact .inl ⟨next, hnext, hhost, hstage⟩
        | done =>
            have hdone : AwaitsAt σ job key .done (i + 1) := ⟨next, hnext, hhost, hstage⟩
            refine .inr
              ⟨i, Nat.le_refl i, Nat.lt_succ_self i, scope, deed, actions, rest, hexec, ?_⟩
            rcases hdeed with ⟨registry, rfl, hwaits⟩ | ⟨rfl, hnew⟩
            · exact .inl ⟨registry, rfl, hwaits, hdone⟩
            · refine .inr ⟨rfl, .inl ⟨?_, hdone⟩⟩
              exact fun ⟨call, hcall, hhost, _⟩ => hnew ⟨call, hcall, hhost⟩
    | @step k hik ih =>
        intro hkn
        rcases ih (Nat.le_of_lt hkn) with hevaluations | ⟨j, hij, hjk, hcuts⟩
        · refine (hσ.cutsOff_of_evaluations hevaluations
            (hawaits (k + 1) (Nat.lt_succ_of_lt hik) hkn)).imp id ?_
          exact fun hcuts => ⟨k, Nat.le_of_lt hik, Nat.lt_succ_self k, hcuts⟩
        · exact .inr ⟨j, hij, by omega, hcuts⟩
  obtain ⟨-, hgone, scope, actions, rest, hexec⟩ := hleaves
  rcases hstages n hin (Nat.le_refl n) with hevaluations | ⟨j, hij, hjn, hcuts⟩
  · refine ⟨n, Nat.le_of_lt hin, Nat.le_refl n, scope, _, actions, rest, hexec,
      .inr ⟨rfl, .inr ⟨hevaluations, ?_⟩⟩⟩
    exact fun ⟨call, hcall, hhost, _⟩ => hgone ⟨call, hcall, hhost⟩
  · exact ⟨j, hij, Nat.le_of_lt hjn, hcuts⟩

/-- A host that a call has left does not run, and it is off its registry. -/
theorem idle_of_leaves (hleaves : Leaves σ job key n) :
    ((σ n).world.host key).running = false ∧
      ∀ id, (id, key) ∉ ((σ (n + 1)).world.registry ((σ n).world.host key).registry).members := by
  obtain ⟨⟨call, hcall, rfl⟩, hgone, scope, actions, rest, hexec⟩ := hleaves
  cases hσ.polls hexec hcall with
  | waits stage hkept _ => exact absurd ⟨_, hkept, rfl⟩ hgone
  | leaves hidle _ hoff _ _ =>
      rw [((hσ.orderly_of_perform hexec).fits job call hcall).own]
      exact ⟨hidle, hoff⟩

theorem inFlight_of_awaits (hawaits : Awaits σ job key n) :
    InFlight σ ((σ n).world.host key).registry n := by
  obtain ⟨call, hcall, rfl⟩ := hawaits
  exact ⟨job, call, hcall, ((hσ.orderly n).fits job call hcall).own.symm⟩

/-- A host that was built and is off its registry stays off it. -/
theorem off_later {m : Nat} (hnm : n ≤ m) (hkey : (σ n).world.Has key) {registry : String}
    (hoff : ∀ id, (id, key) ∉ ((σ n).world.registry registry).members) :
    ∀ id, (id, key) ∉ ((σ m).world.registry registry).members := by
  induction hnm with
  | refl => exact hoff
  | @step m hnm ih =>
      intro id hmem
      rcases (hσ.next m).cases with hsame | ⟨t, rest, hagenda, hstep⟩
      · exact ih id ((hsame.members registry).subset hmem)
      · have hsound := hσ.sound m
        rw [hstep, step_world hagenda] at hmem
        exact ih id (Task.react_members hsound.linked (hsound.head hagenda) hmem
          (hσ.has_later hnm hkey))

/-- A run ends by finishing, unless it is refused. -/
theorem finishes_of_fall (hrunning : ((σ n).world.host key).running = true)
    (hidle : ((σ (n + 1)).world.host key).running = false) :
    (∃ origin, Finishes σ key origin n) ∨ ∃ rest, Executes σ n (.confirmRun key) rest := by
  rcases hσ.host_step key n with hsame | ⟨t, rest, hexec, hworld⟩
  · rw [hsame, hrunning] at hidle
    cases hidle
  · have hsound := hσ.sound n
    have hkeys := hsound.head hexec.agenda
    rw [hworld] at hidle
    by_cases hruns : t.runs? = some key
    · have hkey := hkeys key (Task.host?_of_sets? (Task.sets?_of_runs? hruns))
      cases t with
      | beginRun _ =>
          cases hruns
          rw [Task.beginRun_sets.host_self] at hidle
          cases hidle
      | confirmRun _ =>
          cases hruns
          exact .inr ⟨rest, hexec⟩
      | finish _ origin =>
          cases hruns
          exact .inl ⟨origin, rest, hexec⟩
      | update _ t =>
          cases hruns
          cases hfinished : ((σ n).world.host key).finished with
          | true =>
              rw [Task.update_idle t hfinished, hrunning] at hidle
              cases hidle
          | false =>
              rw [(Task.update_sets hkey t hfinished).host_self] at hidle
              exact absurd (hidle.symm.trans hrunning) Bool.false_ne_true
      | close _ origin =>
          cases hruns
          rw [(Task.close_sets hkey origin).host_self] at hidle
          exact absurd (hidle.symm.trans hrunning) Bool.false_ne_true
      | _ => cases hruns
    · rw [(Task.react_running hsound.linked hkeys hruns).1, hrunning] at hidle
      cases hidle

/-- A host that runs while a script is at work comes to rest by finishing its run. -/
theorem finishes_after {scope : Scope} {actions : List Action} {rest : List Task}
    (hexec : Executes σ i (.perform scope actions) rest) (hin : i < n)
    (hrunning : ((σ (i + 1)).world.host key).running = true)
    (hidle : ((σ n).world.host key).running = false) :
    ∃ e origin, i < e ∧ e < n ∧ Finishes σ key origin e := by
  obtain ⟨e, hie, hen, hruns, hfalls⟩ := exists_rise
    (fun k => !((σ k).world.host key).running) hin (by simp [hrunning]) (by simp [hidle])
  simp only [Bool.not_eq_eq_eq_not, Bool.not_true, Bool.not_false] at hruns hfalls
  rcases hσ.finishes_of_fall (hruns e hie (Nat.le_refl e)) hfalls with ⟨origin, hfinishes⟩ |
    ⟨below, hconfirm⟩
  · exact ⟨e, origin, hie, hen, hfinishes⟩
  · exfalso
    -- a run that is refused has begun right before, while the host was idle
    obtain ⟨b, hbe, hbegin, hstuck⟩ := hσ.entered (suffix_of_executes hconfirm)
    rcases Nat.lt_trichotomy b i with hbi | rfl | hib
    · have hagenda := (hstuck i hbi (Nat.le_of_lt hie)).1
      rw [hexec.agenda] at hagenda
      cases hagenda
    · have hagenda := hbegin.agenda
      rw [hexec.agenda] at hagenda
      cases hagenda
    · have hnested := (hσ.sound b).nested key
      rw [hbegin.agenda, Task.nested_cons_entry (by simp [Task.part])] at hnested
      rw [hruns b hib (Nat.le_of_lt hbe)] at hnested
      cases hnested.1

/-- A call passes over no host that runs. -/
theorem visits {id : Nat} (hvisits : Visits σ job id key n)
    (hrunning : ((σ n).world.host key).running = true)
    (halive : ((σ (n + 1)).world.host key).alive = true) :
    Finds σ job key n ∨ ToVisit σ job id key (n + 1) := by
  obtain ⟨scope, deed, actions, rest, hexec, hdeed⟩ := hvisits
  have hsettled := (hσ.sound n).settled
  rcases hdeed with ⟨registry, rfl, hmem⟩ | ⟨rfl, call, hcall, hrest⟩
  · have hworld := world_of_deed hexec rfl
    rw [hworld] at halive
    obtain ⟨next, hnext, hwaits, rfl | hlater⟩ := stopAll_visits hsettled hmem halive hrunning
    · exact .inl ⟨⟨next, by rw [hworld]; exact hnext, rfl⟩, scope, _, actions, rest, hexec,
        .inl ⟨registry, rfl, hwaits⟩⟩
    · exact .inr ⟨next, by rw [hworld]; exact hnext, hlater⟩
  · cases hσ.polls hexec hcall with
    | waits stage hkept _ => exact .inr ⟨_, hkept, hrest⟩
    | leaves hidle _ _ _ hfinds =>
        obtain ⟨next, hnext, hfound⟩ := hfinds id key hrest halive hrunning
        rcases hfound with rfl | hlater
        · refine .inl ⟨⟨next, hnext, rfl⟩, scope, _, actions, rest, hexec, .inr ⟨rfl, ?_⟩⟩
          rintro ⟨other, hother, hhost⟩
          cases hother.symm.trans hcall
          rw [← hhost, hidle] at hrunning
          cases hrunning
        · exact .inr ⟨next, hnext, hlater⟩

end Behavior

namespace Timeline

variable {σ : Nat → Machine} {key : Nat} {origin : String} {rest : List Task}
  {b m s a c e n : Nat} (ht : Timeline σ key origin rest b m s a c e) (hσ : Behavior σ)

include ht hσ

theorem cancelled : ((σ (c + 1)).world.host key).timers.Cleared := by
  rw [ht.host_closed hσ]
  exact Timers.cancelAll_cleared _

/-- What closes a run and finishes it is a whole shutdown. -/
theorem shutdown : ∃ f, Shutdown σ key origin c f e := by
  obtain ⟨f, hcf, hfe, hnotified, hflushed, -⟩ := ht.flushes hσ
  refine ⟨f, ⟨hcf, hfe⟩, ⟨rest, ht.closes, ht.finishes⟩, ht.cancelled hσ, hnotified, hflushed, ?_⟩
  rw [ht.host_finished hσ]
  exact ⟨rfl, rfl⟩

/-- The timers that were cancelled at the end of a run are not replaced as long as a stop-all call
is in flight. -/
theorem cleared_later {registry : String} (hown : ((σ c).world.host key).registry = registry)
    (hflight : ∀ k, e ≤ k → k ≤ n → InFlight σ registry k) (k : Nat) (hck : c < k)
    (hkn : k ≤ n + 1) : ((σ k).world.host key).timers.Cleared := by
  obtain ⟨hbm, hms, hsa, hac, hce⟩ := ht.order
  have hhas := (hσ.sound c).head ht.closes.agenda key rfl
  obtain ⟨q, -, hqc, hflag⟩ := ht.requested hσ
  induction hck with
  | refl => exact ht.cancelled hσ
  | @step k hck ih =>
      apply (ih (by omega)).of_noneNew
      rcases Nat.lt_or_ge k e with hke | hek
      · have hkey := hσ.has_later (Nat.le_of_lt hck) hhas
        have hfinished := hflag k (Nat.lt_trans (by omega) hck) (Nat.le_of_lt hke)
        rw [decide_eq_true (Nat.lt_trans hqc hck)] at hfinished
        rcases hσ.host_step key k with hsame | ⟨t, below, hexec, hworld⟩
        · rw [hsame]
          exact .refl _
        · have hsound := hσ.sound k
          rw [hworld]
          exact Task.react_timers hsound.linked (hsound.head hexec.agenda) hkey (.inr hfinished)
      · apply hσ.timers_of_inFlight (hflight k hek (by omega))
        rw [(hσ.identity (Nat.le_succ_of_le (Nat.le_of_lt hck)) hhas).2]
        exact hown

end Timeline

/-- What stop-all calls keep to with each host that they find running. -/
structure Protocol (σ : Nat → Machine) : Prop where
  /-- No running host that is to be visited is passed over. -/
  visits : ∀ job id key n, Visits σ job id key n → ((σ n).world.host key).running = true →
    ((σ (n + 1)).world.host key).alive = true →
    Finds σ job key n ∨ ToVisit σ job id key (n + 1)
  /-- A call cuts a host off only while no evaluation of it is under way, and asks it to stop. -/
  cuts : ∀ job key n, CutsOff σ job key n → (σ n).world.Halts (σ (n + 1)).world key ∧
    Task.evaluating key (σ n).agenda = 0
  /-- Whenever a host is cut off, no evaluation of it is under way. -/
  quiet : ∀ key n, (σ n).world.Has key → ((σ n).world.host key).outlet.detached = false →
    ((σ (n + 1)).world.host key).outlet.detached = true →
    ((σ n).world.host key).pending = 0 ∧ Task.evaluating key (σ n).agenda = 0
  /-- A host that is cut off publishes nothing until its next run begins. -/
  silence : ∀ key n m, (σ n).world.Has key → ((σ n).world.host key).outlet.detached = true →
    n ≤ m → (∀ i, n ≤ i → i < m → ¬ Begins σ key i) →
    ((σ m).world.host key).published = ((σ n).world.host key).published
  /-- A call that has found a host running leaves it only after it has cut the host off and after
  the shutdown of that run, when all its timers are gone, and then the host is off its registry for
  good. -/
  leaves : ∀ job key i n, i < n → Finds σ job key i → (∀ k, i < k → k ≤ n → Awaits σ job key k) →
    Leaves σ job key n →
    ((σ (i + 1)).world.host key).running = true ∧
      (∃ j, i ≤ j ∧ j ≤ n ∧ CutsOff σ job key j) ∧
      (∃ origin c f e, Shutdown σ key origin c f e ∧ i < e ∧ e < n) ∧
      (σ (n + 1)).Rests key ∧ ((σ (n + 1)).world.host key).timers.Cleared ∧
      ∀ m, n < m → (σ m).world.enlists ((σ n).world.host key).registry key = false

/-- A host that a callback of its own stops, with all others, at its first update. -/
def Machine.halted : Machine :=
  .start (.start default [] [("body",
      [.inScript none (.connect .update (.native [.onWorld (.stopAll "" "j")]))])] [] default)
    [.build ⟨"h", "body", "h.js", none, .standard, "", none, none, false, none, false, 2⟩ [],
      .onHost (some "h") .run, .onWorld (.poll "j")]

end TickHost
