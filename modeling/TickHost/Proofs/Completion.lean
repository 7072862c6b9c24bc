import TickHost.Proofs.Alarms
import TickHost.Proofs.Requests
import TickHost.Proofs.Shutdown

/-!
The completion of runs. Whoever waits until a host is done waits exactly as long as a run of that
host has begun and was not marked as done. The mark is the last thing that a run does, after its
last events are out and its host does not run any more, and no run returns without it, a refused
one neither. The runs of other hosts have no part in this.
-/

namespace TickHost

open World Machine

/-- A run of the host is refused in this step: when it is to be confirmed everything is stopping. -/
def Refuses (σ : Nat → Machine) (key n : Nat) : Prop :=
  (∃ rest, Executes σ n (.confirmRun key) rest) ∧ (σ n).world.isStopping key = true

/-- A run of the host is marked as done in this step. -/
def MarksDone (σ : Nat → Machine) (key n : Nat) : Prop :=
  (∃ origin, Finishes σ key origin n) ∨ Refuses σ key n

/-- A run of the host has begun and was not marked as done since. -/
def Unfinished (σ : Nat → Machine) (key n : Nat) : Prop :=
  ∃ b, b < n ∧ Begins σ key b ∧ ∀ i, b < i → i < n → ¬ MarksDone σ key i

namespace World

/-- The writes by which a run ends, in their order. -/
def lastWrites (key : Nat) (origin : String) : List (World → World) :=
  [fun w => w.publish key (.finished origin) .host, fun w => w.updateHost key Host.endRun,
    fun w => w.publish key .runningStateChanged .host, fun w => w.publish key .doneRunning .host,
    fun w => w.updateHost key Host.markDone]

/-- The world after the first of the writes by which a run ends. -/
def afterWrites (w : World) (key : Nat) (origin : String) (k : Nat) : World :=
  ((lastWrites key origin).take k).foldl (fun w write => write w) w

variable {w : World} {key : Nat} {origin : String}

/-- Until the last of these writes a host is as done as before. -/
theorem afterWrites_done {k : Nat} (hk : k < 5) :
    ((w.afterWrites key origin k).host key).done = (w.host key).done := by
  match k, hk with
  | 0, _ => rfl
  | 1, _ | 2, _ | 3, _ | 4, _ =>
      simp [afterWrites, lastWrites, publish_host, host_updateHost, Host.announce, Host.endRun]

/-- What is left for the last of these writes is the mark. -/
theorem afterWrites_host (w : World) (key : Nat) (origin : String) :
    ((w.afterWrites key origin 4).host key).markDone =
      (w.host key).finishRun w.clock origin := by
  have hclock : ∀ (w : World) (f : Host → Host), (w.updateHost key f).clock = w.clock :=
    fun _ _ => rfl
  simp [afterWrites, lastWrites, publish_host, host_updateHost, publish_clock, hclock,
    Host.finishRun]

end World

/-- A task of a run goes on with another one, unless it marks the run as done. -/
theorem Task.marks_or_continues {w : World} (o : Outcome) {key : Nat} {x : Task}
    (hx : x.part key = .inside) :
    ((∃ origin, x = .finish key origin) ∨ x = .confirmRun key ∧ w.isStopping key = true) ∧
        (react w o x).next = [] ∨
      ∃ pre y, (react w o x).next = pre ++ [y] ∧ y.part key = .inside := by
  by_cases hfinish : ∃ origin, x = .finish key origin
  · obtain ⟨origin, rfl⟩ := hfinish
    exact .inl ⟨.inl ⟨origin, rfl⟩, rfl⟩
  · by_cases hrefused : x = .confirmRun key ∧ w.isStopping key = true
    · refine .inl ⟨.inr hrefused, ?_⟩
      rw [hrefused.1]
      exact react_refused_next hrefused.2
    · obtain ⟨pre, y, hnext, -, -, hy, -⟩ := react_continues (w := w) (o := o) hx
        (fun origin h => hfinish ⟨origin, h⟩) fun h => by simpa [h] using hrefused
      exact .inr ⟨pre, y, hnext, hy⟩

section Marks

variable {σ : Nat → Machine} {key n : Nat}

theorem MarksDone.executes (hmarks : MarksDone σ key n) :
    ∃ x rest, Executes σ n x rest ∧ x.part key = .inside := by
  rcases hmarks with ⟨origin, rest, hexec⟩ | ⟨⟨rest, hexec⟩, -⟩
  · exact ⟨_, rest, hexec, Task.part_finish⟩
  · exact ⟨_, rest, hexec, Task.part_confirmRun⟩

namespace Behavior

variable (hσ : Behavior σ)

include hσ

theorem running_of_marks (hmarks : MarksDone σ key n) :
    ((σ n).world.host key).running = true := by
  obtain ⟨x, rest, hexec, hx⟩ := hmarks.executes
  exact hσ.running_of_inside hx (suffix_of_executes hexec)

/-- A host that was marked as done does not run any more. -/
theorem rests_of_marks (hmarks : MarksDone σ key n) :
    ((σ (n + 1)).world.host key).running = false ∧
      ((σ (n + 1)).world.host key).done = true := by
  rcases hmarks with ⟨origin, rest, hexec⟩ | ⟨⟨rest, hexec⟩, hstopping⟩
  · have hkey := (hσ.sound n).head hexec.agenda key rfl
    rw [world_after hexec, (Task.finish_sets hkey origin).host_self]
    exact ⟨rfl, rfl⟩
  · rw [world_after hexec, (Task.confirmRun_sets_refused hstopping).host_self]
    exact ⟨rfl, rfl⟩

/-- A run comes to its end with the mark. -/
theorem marks_of_fall (hrunning : ((σ n).world.host key).running = true)
    (hidle : ((σ (n + 1)).world.host key).running = false) : MarksDone σ key n := by
  rcases hσ.finishes_of_fall hrunning hidle with hfinishes | ⟨rest, hexec⟩
  · exact .inl hfinishes
  · cases hstopping : (σ n).world.isStopping key with
    | true => exact .inr ⟨⟨rest, hexec⟩, hstopping⟩
    | false =>
        have hkey := (hσ.sound n).head hexec.agenda key rfl
        rw [world_after hexec, (Task.confirmRun_sets hkey hstopping).host_self] at hidle
        exact absurd (hidle.symm.trans hrunning) Bool.false_ne_true

omit hσ in
theorem running_of_begins (hbegins : Begins σ key n) :
    ((σ (n + 1)).world.host key).running = true := by
  obtain ⟨rest, hexec⟩ := hbegins
  rw [world_after hexec, Task.beginRun_sets.host_self]
  rfl

/-- A host runs from the beginning of a run to its mark. -/
theorem running_iff : ((σ n).world.host key).running = true ↔ Unfinished σ key n := by
  constructor
  · intro hrunning
    obtain ⟨disk, remote, programs, functions, network, actions, hstart⟩ := hσ.starts
    have hfirst : ((σ 0).world.host key).running = false := by
      rw [hstart]
      rfl
    obtain ⟨b, hbn, hidle, hruns⟩ := exists_last_rise
      (fun i => ((σ i).world.host key).running) hfirst hrunning
    refine ⟨b, hbn, hσ.begins_of_rise hidle (hruns (b + 1) (Nat.lt_succ_self b) hbn), ?_⟩
    intro i hbi hin hmarks
    have hafter := hruns (i + 1) (Nat.lt_succ_of_lt hbi) hin
    exact absurd (hafter.symm.trans (hσ.rests_of_marks hmarks).1) Bool.true_eq_false.mp
  · rintro ⟨b, hbn, hbegins, hunmarked⟩
    induction hbn with
    | refl => exact running_of_begins hbegins
    | @step n hbn ih =>
        have hbefore := ih fun i hbi hin => hunmarked i hbi (Nat.lt_succ_of_lt hin)
        cases hafter : ((σ (n + 1)).world.host key).running with
        | true => rfl
        | false =>
            exact (hunmarked n hbn (Nat.lt_succ_self n) (hσ.marks_of_fall hbefore hafter)).elim

theorem isReady_eq (key n : Nat) :
    (σ n).world.isReady (.done key) = !((σ n).world.host key).running :=
  (hσ.sound n).done key

theorem ready_iff : (σ n).world.isReady (.done key) = true ↔ ¬ Unfinished σ key n := by
  rw [hσ.isReady_eq, ← hσ.running_iff]
  simp

theorem pending_of_underway {b : Nat} (h : Underway σ key b n) :
    (σ n).world.isReady (.done key) = false := by
  obtain ⟨hbn, rest, -, hgoes⟩ := h
  obtain ⟨x, hx, hsuffix⟩ := hgoes n hbn (Nat.le_refl n)
  rw [hσ.isReady_eq, hσ.running_of_inside hx hsuffix]
  rfl

/-- A run that has begun goes on, or it has returned with its mark. -/
theorem underway_or_marked {b : Nat} {rest : List Task}
    (hbegin : Executes σ b (.beginRun key) rest) (hbn : b < n)
    (hcrashed : (σ n).world.crashed = false) :
    Underway σ key b n ∨ ∃ d, d < n ∧ Underway σ key b d ∧ MarksDone σ key d ∧
      (σ (d + 1)).agenda = rest := by
  induction hbn with
  | refl =>
      left
      refine ⟨Nat.lt_succ_self b, rest, hbegin, fun i hbi hib => ?_⟩
      obtain rfl := Nat.le_antisymm hib hbi
      exact ⟨_, Task.part_confirmRun, Task.suffix_of_eq (after hbegin hcrashed)⟩
  | @step n hbn ih =>
      rcases ih (hσ.uncrashed (Nat.le_succ n) hcrashed) with hgoes | ⟨d, hdn, hover⟩
      · obtain ⟨-, below, hbegin', hinside⟩ := hgoes
        obtain rfl := (hbegin.unique hbegin').2
        obtain ⟨x, hx, hsuffix⟩ := hinside n hbn (Nat.le_refl n)
        have hstill : (∃ y : Task, y.part key = .inside ∧ y :: rest <:+ (σ (n + 1)).agenda) →
            Underway σ key b (n + 1) := by
          intro hnow
          refine ⟨Nat.lt_succ_of_lt hbn, rest, hbegin, fun i hbi hin => ?_⟩
          rcases Nat.lt_or_eq_of_le hin with hlt | rfl
          · exact hinside i hbi (Nat.le_of_lt_succ hlt)
          · exact hnow
        rcases (hσ.next n).suffix (Task.isPerform_of_inside hx) hcrashed hsuffix with
          ⟨hagenda, hstep⟩ | hstays
        · have hexec : Executes σ n x rest := ⟨hagenda, hstep⟩
          have hafter := after hexec hcrashed
          rcases Task.marks_or_continues (σ n).outcome hx with ⟨hmarks, hnext⟩ |
            ⟨pre, y, hnext, hy⟩
          · right
            rw [hnext, List.nil_append] at hafter
            refine ⟨n, Nat.lt_succ_self n, ⟨hbn, rest, hbegin, hinside⟩, ?_, hafter⟩
            rcases hmarks with ⟨origin, rfl⟩ | ⟨rfl, hstopping⟩
            · exact .inl ⟨origin, rest, hexec⟩
            · exact .inr ⟨⟨rest, hexec⟩, hstopping⟩
          · left
            rw [hnext, List.append_assoc] at hafter
            exact hstill ⟨y, hy, pre, hafter.symm⟩
        · exact .inl (hstill ⟨x, hx, hstays⟩)
      · exact .inr ⟨d, Nat.lt_succ_of_lt hdn, hover⟩

end Behavior

end Marks

/-- How the end of a run of a host in step `e` comes about. -/
structure Ends (σ : Nat → Machine) (key : Nat) (origin : String) (e : Nat) : Prop where
  pending : (σ e).world.isReady (.done key) = false
  /-- The step is its writes, and none of them but the last one ends a wait. -/
  writes : (σ (e + 1)).world = (σ e).world.afterWrites key origin 5
  last : ∀ k < 5, ((σ e).world.afterWrites key origin k).isReady (.done key) = false
  ready : (σ (e + 1)).world.isReady (.done key) = true
  /-- When only the mark is left the host does not run any more, has no timers, and all its events
  are out. -/
  idle : (((σ e).world.afterWrites key origin 4).host key).running = false
  cleared : (((σ e).world.afterWrites key origin 4).host key).timers.Cleared
  published : (((σ e).world.afterWrites key origin 4).host key).published =
    ((σ e).world.host key).published ++ heard σ key e (e + 1)
  /-- These events are the last ones of a run, and nothing is heard of a host that is cut off. -/
  events : Envelope.events (heard σ key e (e + 1)) =
    if ((σ e).world.host key).outlet.detached then []
    else [.finished origin, .runningStateChanged, .doneRunning]

/-- What those can rely on who wait until a host is done. -/
structure Completion (σ : Nat → Machine) (key : Nat) : Prop where
  /-- The wait is over exactly when no run of the host is between its beginning and its mark. -/
  ready : ∀ n, (σ n).world.isReady (.done key) = true ↔ ¬ Unfinished σ key n
  /-- Whoever begins to wait is answered accordingly, and so is who has waited before. -/
  asked : ∀ n handle job, (σ n).world.handles.get? handle = some key →
    (¬ Unfinished σ key n → ((σ n).world.doDeed (.waitDone handle job)).2 = .ready) ∧
      (Unfinished σ key n → ((σ n).world.doDeed (.waitDone handle job)).2 = .pending)
  polled : ∀ n job, (σ n).world.jobs.get? job = some (.done key) →
    (¬ Unfinished σ key n → ((σ n).world.doDeed (.poll job)).2 = .ready) ∧
      (Unfinished σ key n → ((σ n).world.doDeed (.poll job)).2 = .pending)
  running : ∀ n, ((σ n).world.host key).running = true →
    (σ n).world.isReady (.done key) = false
  /-- No other step has a part in this, whichever hosts begin, stop or end in it. -/
  unmoved : ∀ n, ¬ Begins σ key n → ¬ MarksDone σ key n →
    (σ (n + 1)).world.isReady (.done key) = (σ n).world.isReady (.done key)
  ends : ∀ origin e, Finishes σ key origin e → Ends σ key origin e
  /-- A run that is refused is marked as done when it is, and nothing is heard of it. -/
  refused : ∀ n, Refuses σ key n → (σ n).world.isReady (.done key) = false ∧
    (σ (n + 1)).world.isReady (.done key) = true ∧
    ((σ (n + 1)).world.host key).running = false ∧ heard σ key n (n + 1) = []
  /-- A run that has begun keeps everybody waiting until it returns, and it returns with the
  mark. -/
  underway : ∀ b n, Underway σ key b n → (σ n).world.isReady (.done key) = false
  returns : ∀ b rest n, Executes σ b (.beginRun key) rest → b < n →
    (σ n).world.crashed = false →
    Underway σ key b n ∨ ∃ d, d < n ∧ Underway σ key b d ∧ MarksDone σ key d ∧
      (σ (d + 1)).agenda = rest

section Completion

variable {σ : Nat → Machine} {key n : Nat}

theorem World.wait_answer (w : World) (name : String) (job : Job) :
    (w.isReady job = true → (w.wait name job).2 = .ready) ∧
      (w.isReady job = false → (w.wait name job).2 = .pending) := by
  constructor <;> intro hready
  · rw [wait, if_pos hready]
  · rw [wait, if_neg (by simp [hready])]
    rfl

/-- Every run of a host that comes to its end does so in this way. -/
theorem Behavior.ends (hσ : Behavior σ) {origin : String} {e : Nat}
    (hfinishes : Finishes σ key origin e) : Ends σ key origin e := by
  have hmarks : MarksDone σ key e := .inl ⟨origin, hfinishes⟩
  obtain ⟨hidle, hdone⟩ := hσ.rests_of_marks hmarks
  have hpending : (σ e).world.isReady (.done key) = false := by
    rw [hσ.isReady_eq, hσ.running_of_marks hmarks]
    rfl
  obtain ⟨b, hrun⟩ := hσ.run_of_finishes hfinishes
  obtain ⟨rest, m, s, a, c, ht⟩ := hrun.timeline hσ
  have hkey := (hσ.sound e).head ht.finishes.agenda key rfl
  have hhost := ht.host_finished hσ
  rw [← World.afterWrites_host] at hhost
  have hce : c < e := ht.order.2.2.2.2
  have hcleared : (timersOf σ key (e + 1)).Cleared := by
    apply hσ.cleared_since ht.closes (Nat.lt_succ_of_lt hce)
    intro i hci hie
    exact ht.not_begins hσ i (by have := ht.order; omega) (Nat.le_of_lt_succ hie)
  constructor
  case pending => exact hpending
  case writes => exact Behavior.world_after ht.finishes
  case last => exact fun k hk => (World.afterWrites_done hk).trans hpending
  case ready => exact hdone
  case idle =>
    rw [hhost] at hidle
    exact hidle
  case cleared =>
    rw [timersOf, hhost] at hcleared
    exact hcleared
  case published =>
    have hsaid := hσ.says_heard (Nat.le_succ e) hkey
    rw [hhost] at hsaid
    exact hsaid
  case events =>
    cases hcut : ((σ e).world.host key).outlet.detached with
    | true =>
        obtain ⟨es, hsaid, hsilent, -⟩ := hσ.says_step hkey
        rw [Behavior.heard_eq hsaid, hsilent hcut]
        rfl
    | false =>
        obtain ⟨id, number, time, hheard⟩ := ht.heard_finished hσ hcut
        rw [hheard]
        rfl

end Completion

end TickHost
