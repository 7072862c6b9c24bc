import TickHost.Proofs.Course
import TickHost.Proofs.Sequels
import TickHost.Proofs.Visits

/-!
Stop requests and runs. The stop flag of a host is taken back when a run begins, and by nothing
else. So a run obeys every request that is made after it has begun: its loop starts no further tick,
and leaves at the next of its tests. A request that is made while the run is on its way to its
beginning, by the code that sets up the script engine, is announced and then lost.
-/

namespace TickHost

open World Machine

@[simp]
theorem World.host_note (w : World) (entry : Entry) (key : Nat) :
    (w.note entry).host key = w.host key := rfl

namespace Task

/-- A task asks a host to stop: as a script or a native callback of it, as its owner, through a
handle, or as a directive. -/
inductive Stops (w : World) (key : Nat) : Task → Prop where
  | script (scope : Scope) (named : Option String) (actions : List Action)
      (hactor : (perform scope (.inScript named .stop :: actions)).actor? w = some key) :
      Stops w key (.perform scope (.inScript named .stop :: actions))
  | owner (scope : Scope) (named : Option String) (actions : List Action)
      (hname : (named.or (scope.host.map fun _ => scope.name)).bind w.names.get? = some key) :
      Stops w key (.perform scope (.onHost named .stop :: actions))
  | handle (scope : Scope) (handle : String) (actions : List Action)
      (hhandle : w.handles.get? handle = some key) :
      Stops w key (.perform scope (.onHandle handle .stop :: actions))
  | directive (origin : String) (line : Nat) (text : List Char) (lines : List (Nat × List Char))
      (hread : Directive.read text = .ok .stop) :
      Stops w key (.directives key origin ((line, text) :: lines))
  | timed (function : String) (args : List Value) (hdirectives : (w.host key).directives = true)
      (hread : Directive.read function.toList = .ok .stop) :
      Stops w key (.call key (.script function) args)

variable {w : World} {o : Outcome} {key : Nat}

/-- Whoever asks, the stop flag is up afterwards. -/
theorem Stops.finished {t : Task} (hstops : t.Stops w key) (hlinked : w.Linked)
    (hkeys : ∀ key, t.host? = some key → w.Has key) :
    ((react w o t).world.host key).finished = true := by
  cases hstops with
  | script scope named actions hactor =>
      rw [react_inScript o hactor]
      exact requestStop_finished (has_of_actor hlinked hkeys hactor)
  | owner scope named actions hname =>
      cases named with
      | some name =>
          have hname : w.names.get? name = some key := hname
          have hkey := hlinked.names name key hname
          simpa [react, performOne, start, hname, startHostDeed, doHostDeed] using
            requestStop_finished hkey
      | none =>
          cases hhost : scope.host with
          | none => simp [hhost] at hname
          | some host =>
              have hname : w.names.get? scope.name = some key := by simpa [hhost] using hname
              have hkey := hlinked.names scope.name key hname
              simpa [react, performOne, start, hhost, hname, startHostDeed, doHostDeed] using
                requestStop_finished hkey
  | handle scope handle actions hhandle =>
      have hkey := hlinked.handles handle key hhandle
      simpa [react, performOne, start, hhandle, doHandleDeed] using requestStop_finished hkey
  | directive origin line text lines hread =>
      have hkey := hkeys key rfl
      simpa [react, runDirectives, runDirective, hread] using requestStop_finished hkey
  | timed function args hdirectives hread =>
      have hkey := hkeys key rfl
      simpa [react, callBack, hdirectives, runDirective, hread] using requestStop_finished hkey

/-- Once its host has stopped, a loop does nothing more than to leave; an update that is left out
leads to the head of the loop first. -/
theorem Loops.react_finished {origin : String} {x : Task} (hx : Loops key origin x)
    (hfinished : (w.host key).finished = true) :
    react w o x = ⟨w, o, [.close key origin]⟩ ∨
      ∃ t u, x = .update key t ∧ react w o x = ⟨w, o, [.awaitTick key u]⟩ := by
  cases hx with
  | awaitTick t horigin => exact .inl (by simp [react, awaitNext, hfinished, horigin])
  | pump t horigin => exact .inl (by simp [react, hfinished, horigin])
  | flush t horigin => exact .inl (by simp [react, hfinished, horigin])
  | stream t horigin => exact .inl (by simp [react, hfinished, horigin])
  | update t horigin =>
      exact .inr ⟨t, { t with last := w.clock }, rfl, by simp [react, sendUpdate, hfinished]⟩

end Task

/-- The run that began at `b` has not come to its end. -/
def Underway (σ : Nat → Machine) (key b n : Nat) : Prop :=
  b < n ∧ ∃ rest, Executes σ b (.beginRun key) rest ∧
    ∀ i, b < i → i ≤ n → ∃ x : Task, x.part key = .inside ∧ x :: rest <:+ (σ i).agenda

/-- What a run goes on with is executed and leaves this in its place, below what it adds
besides. -/
def Passes (σ : Nat → Machine) (n : Nat) (x y : Task) : Prop :=
  ∃ rest, Executes σ n x rest ∧ y :: rest <:+ (σ (n + 1)).agenda

/-- The loop of a run starts a tick: it does not leave at its head. -/
def Ticks (σ : Nat → Machine) (key n : Nat) : Prop :=
  ∃ t u, Passes σ n (.awaitTick key t) (.pump key u)

/-- A host is asked to stop in this step. -/
def AsksStop (σ : Nat → Machine) (key n : Nat) : Prop :=
  ∃ t rest, Executes σ n t rest ∧ t.Stops (σ n).world key

/-- A call to run a host, in the step before `r`, leads to the run that begins at `b`: in between
the script engine is set up, once. -/
structure Enters (σ : Nat → Machine) (key r b : Nat) : Prop where
  order : r ≤ b
  entered : ∃ rest, (σ r).agenda = .initialise key :: .beginRun key :: rest ∧
    Executes σ b (.beginRun key) rest ∧
    ∀ i, r ≤ i → i ≤ b → .beginRun key :: rest <:+ (σ i).agenda

variable {σ : Nat → Machine} {key b n : Nat}

namespace Underway

theorem begins (h : Underway σ key b n) : Begins σ key b := by
  obtain ⟨-, rest, hbegin, -⟩ := h
  exact ⟨rest, hbegin⟩

theorem earlier {i : Nat} (h : Underway σ key b n) (hbi : b < i) (hin : i ≤ n) :
    Underway σ key b i := by
  obtain ⟨-, rest, hbegin, hgoes⟩ := h
  exact ⟨hbi, rest, hbegin, fun j hbj hji => hgoes j hbj (Nat.le_trans hji hin)⟩

variable (hσ : Behavior σ) (h : Underway σ key b n)

include hσ h

theorem has : (σ b).world.Has key := by
  obtain ⟨-, rest, hbegin, -⟩ := h
  exact (hσ.sound b).head hbegin.agenda key rfl

theorem not_begins (i : Nat) (hbi : b < i) (hin : i ≤ n) : ¬ Begins σ key i := by
  rintro ⟨below, hbegin⟩
  obtain ⟨-, rest, -, hgoes⟩ := h
  obtain ⟨x, hinside, hsuffix⟩ := hgoes i hbi hin
  exact hσ.not_begin hinside hsuffix hbegin.agenda

/-- While a run is under way the stop flag is not taken back. -/
theorem stays_finished {i : Nat} (hbi : b < i) (hin : i ≤ n)
    (hfinished : ((σ i).world.host key).finished = true) :
    ((σ n).world.host key).finished = true := by
  apply hσ.finished_later hin (hσ.has_later (Nat.le_of_lt hbi) (h.has hσ)) ?_ hfinished
  exact fun j hij hjn => h.not_begins hσ j (Nat.lt_of_lt_of_le hbi hij) (Nat.le_of_lt hjn)

end Underway

namespace Behavior

variable (hσ : Behavior σ)

include hσ

/-- Whatever a run goes on with, the run is under way. -/
theorem underway_of_inside {x : Task} {rest : List Task} (hx : x.part key = .inside)
    (hsuffix : x :: rest <:+ (σ n).agenda) : ∃ b, Underway σ key b n := by
  obtain ⟨b, hbn, hbegin, hgoes⟩ := hσ.begun hx hsuffix
  exact ⟨b, hbn, rest, hbegin, hgoes⟩

theorem asks_finished (hasks : AsksStop σ key n) :
    ((σ (n + 1)).world.host key).finished = true := by
  obtain ⟨t, rest, hexec, hstops⟩ := hasks
  have hsound := hσ.sound n
  rw [world_after hexec]
  exact hstops.finished hsound.linked (hsound.head hexec.agenda)

omit hσ in
/-- A run takes back the stop flag when it begins. -/
theorem live_of_begins (hbegins : Begins σ key n) :
    ((σ (n + 1)).world.host key).finished = false := by
  obtain ⟨rest, hbegin⟩ := hbegins
  rw [world_after hbegin, Task.beginRun_sets.host_self]
  rfl

/-- The loop of a host that has stopped leaves. -/
theorem leaves {origin : String} {x : Task} {rest : List Task} (hx : Task.Loops key origin x)
    (hexec : Executes σ n x rest) (hfinished : ((σ n).world.host key).finished = true) :
    (σ (n + 1)).agenda = .close key origin :: rest ∨
      ∃ t u, x = .update key t ∧ (σ (n + 1)).agenda = .awaitTick key u :: rest := by
  have hcrashed := (hσ.sound n).uncrashed hexec.agenda
  rcases hx.react_finished (o := (σ n).outcome) hfinished with hreact | ⟨t, u, ht, hreact⟩
  · left
    rw [after hexec (by rw [world_after hexec, hreact]; exact hcrashed), hreact]
    rfl
  · refine .inr ⟨t, u, ht, ?_⟩
    rw [after hexec (by rw [world_after hexec, hreact]; exact hcrashed), hreact]
    rfl

/-- All that the loop of a host that has stopped goes on with is its end, or its head. -/
theorem not_passes {origin : String} {x y : Task} (hx : Task.Loops key origin x)
    (hclose : y ≠ .close key origin) (hhead : ∀ t u, x = .update key t → y ≠ .awaitTick key u)
    (hfinished : ((σ n).world.host key).finished = true) : ¬ Passes σ n x y := by
  rintro ⟨rest, hexec, hpasses⟩
  rcases hσ.leaves hx hexec hfinished with hagenda | ⟨t, u, ht, hagenda⟩
  · exact hclose (Task.same_place hpasses (Task.suffix_of_eq hagenda))
  · exact hhead t u ht (Task.same_place hpasses (Task.suffix_of_eq hagenda))

theorem not_ticks (hfinished : ((σ n).world.host key).finished = true) : ¬ Ticks σ key n := by
  rintro ⟨t, u, hpasses⟩
  exact hσ.not_passes (.awaitTick t rfl) (by simp) (by simp) hfinished hpasses

/-- The loop of a host that nobody has stopped starts the next tick. -/
theorem ticks_of_live {t : Ticking} {rest : List Task}
    (hexec : Executes σ n (.awaitTick key t) rest)
    (hlive : ((σ n).world.host key).finished = false) : Ticks σ key n := by
  have hcrashed := (hσ.sound n).uncrashed hexec.agenda
  have hreact : ∃ w u, Task.react (σ n).world (σ n).outcome (.awaitTick key t) =
      ⟨w, (σ n).outcome, [.pump key u]⟩ ∧ w.crashed = (σ n).world.crashed := by
    simp only [Task.react, Task.awaitNext, hlive, Bool.false_eq_true, if_false]
    exact ⟨_, _, rfl, rfl⟩
  obtain ⟨w, u, hreact, hsame⟩ := hreact
  refine ⟨t, u, rest, hexec, Task.suffix_of_eq ?_⟩
  rw [after hexec (by rw [world_after hexec, hreact, hsame, hcrashed]), hreact]
  rfl

/-- Before a run begins somebody asked for it, and the script engine was set up. -/
theorem entered_before (hbegins : Begins σ key b) : ∃ r, Enters σ key r b := by
  obtain ⟨rest, hbegin⟩ := hbegins
  obtain ⟨a, t, below, pre, post, hab, hexec, hnext, hrest, hstays⟩ :=
    hσ.pushed rfl (suffix_of_executes hbegin)
  obtain ⟨hfirst, -, -⟩ := Task.begins_of_pushes hnext
  have hagenda := after hexec (hσ.uncrashed_of_suffix (hstays (a + 1) (Nat.lt_succ_self a) hab))
  refine ⟨a + 1, hab, rest, ?_, hbegin, fun i hai hib => hstays i hai hib⟩
  rw [hagenda, hnext, hfirst, hrest]
  rfl

end Behavior

namespace Task

/-- A script asks its own host to stop. -/
def asks (key : Nat) : Task → Bool
  | perform scope (.inScript none .stop :: _) => scope.host = some key
  | _ => false

/-- A task sets up the script engine of the host. -/
def initialises (key : Nat) : Task → Bool
  | initialise k => k = key
  | _ => false

/-- A task waits for the next tick of the host. -/
def awaits (key : Nat) : Task → Bool
  | awaitTick k _ => k = key
  | _ => false

end Task

namespace Machine

variable {m : Machine}

theorem asksStop_trace (hasks : (m.trace n).agenda.head?.any (Task.asks key) = true) :
    AsksStop m.trace key n := by
  obtain ⟨t, rest, hexec, ht⟩ := executes_trace_iff.mpr hasks
  refine ⟨t, rest, hexec, ?_⟩
  unfold Task.asks at ht
  split at ht
  · exact .script _ none _ (of_decide_eq_true ht)
  · cases ht

/-- The run that is under way in a trace is the only one that has begun so far. -/
theorem underway_trace (hm : Behavior m.trace)
    (hinside : (m.trace n).agenda.head?.any (fun t => t.part key = .inside) = true)
    (honly : ∀ i < n, i ≠ b → ¬ Begins m.trace key i) : Underway m.trace key b n := by
  obtain ⟨t, rest, hexec, ht⟩ := executes_trace_iff.mpr hinside
  obtain ⟨b', hunderway⟩ :=
    hm.underway_of_inside (of_decide_eq_true ht) (Behavior.suffix_of_executes hexec)
  have hb : b' = b := by
    apply Decidable.byContradiction
    intro hne
    exact honly b' hunderway.1 hne hunderway.begins
  exact hb ▸ hunderway

theorem ticks_trace (hm : Behavior m.trace)
    (hawaits : (m.trace n).agenda.head?.any (Task.awaits key) = true)
    (hlive : ((m.trace n).world.host key).finished = false) : Ticks m.trace key n := by
  obtain ⟨t, rest, hexec, ht⟩ := executes_trace_iff.mpr hawaits
  cases t with
  | awaitTick k t =>
      obtain rfl : k = key := of_decide_eq_true ht
      exact hm.ticks_of_live hexec hlive
  | _ => cases ht

end Machine

/-- What becomes of the requests to stop a host, for its run that begins at `b`. -/
structure StopRequests (σ : Nat → Machine) (key b : Nat) : Prop where
  /-- Somebody called for the run; before it begins the script engine is set up. -/
  entered : ∃ r, Enters σ key r b
  /-- No request that was made before the run begins is left. -/
  forgotten : ((σ (b + 1)).world.host key).finished = false
  /-- A request raises the stop flag, whoever makes it and whenever. -/
  raised : ∀ q, AsksStop σ key q → ((σ (q + 1)).world.host key).finished = true
  /-- A request that is made after the run has begun stands as long as the run is under way. -/
  kept : ∀ q n, b < q → AsksStop σ key q → q < n → Underway σ key b n →
    ((σ n).world.host key).finished = true
  /-- The run then starts no tick any more. -/
  obeyed : ∀ q n, b < q → AsksStop σ key q → q < n → Underway σ key b n → ¬ Ticks σ key n
  /-- Wherever its loop goes on next, it leaves; from an update that is left out it does so at its
  head. -/
  left : ∀ q n origin x rest, b < q → AsksStop σ key q → q < n → Underway σ key b n →
    Task.Loops key origin x → Executes σ n x rest →
    (σ (n + 1)).agenda = .close key origin :: rest ∨
      ∃ t u, x = .update key t ∧ (σ (n + 1)).agenda = .awaitTick key u :: rest

/-- Every run obeys the requests that are made after its beginning, and these only. -/
theorem run_obeys_stop_requests (hσ : Behavior σ) (hbegins : Begins σ key b) :
    StopRequests σ key b := by
  have hkept : ∀ q n, b < q → AsksStop σ key q → q < n → Underway σ key b n →
      ((σ n).world.host key).finished = true := by
    intro q n hbq hasks hqn hunderway
    apply hunderway.stays_finished hσ (Nat.lt_succ_of_lt hbq) hqn
    exact hσ.asks_finished hasks
  constructor
  case entered => exact hσ.entered_before hbegins
  case forgotten => exact Behavior.live_of_begins hbegins
  case raised => exact fun q hasks => hσ.asks_finished hasks
  case kept => exact hkept
  case obeyed =>
    intro q n hbq hasks hqn hunderway
    apply hσ.not_ticks
    exact hkept q n hbq hasks hqn hunderway
  case left =>
    intro q n origin x rest hbq hasks hqn hunderway hx hexec
    apply hσ.leaves hx hexec
    exact hkept q n hbq hasks hqn hunderway

/-- A host is stopped by the code that sets up its script engine, and by its script at the first
update. -/
def Machine.hasty : Machine :=
  .start (.start default [] [("body",
      [.inScript none (.connect .update (.native [.inScript none .stop]))])] [] default)
    [.build ⟨"h", "body", "h.js", none, .standard, "", none, none, false, none, false, 2⟩
        [.inScript none .stop],
      .onHost (some "h") .run]

/-- The second request is obeyed. -/
theorem hasty_obeys_stop_request : Begins hasty.trace 0 6 ∧ StopRequests hasty.trace 0 6 ∧
    AsksStop hasty.trace 0 27 ∧ (∀ n, 27 < n → Underway hasty.trace 0 6 n →
      ¬ Ticks hasty.trace 0 n) := by
  have hbegins : Begins hasty.trace 0 6 := by decide +kernel
  have hrequests := run_obeys_stop_requests (trace_behavior ..) hbegins
  have hasks : AsksStop hasty.trace 0 27 := asksStop_trace (by decide +kernel)
  refine ⟨hbegins, hrequests, hasks, ?_⟩
  intro n hqn hunderway
  exact hrequests.obeyed 27 n (by decide) hasks hqn hunderway

/-- A request that is made after a run was called for and before it begins is lost: the run starts
its ticks all the same. -/
theorem not_always_stop_obeyed : ¬ ∀ σ, Behavior σ → ∀ key r b q n, Enters σ key r b → r ≤ q →
    AsksStop σ key q → q < n → Underway σ key b n → ¬ Ticks σ key n := by
  intro hobeyed
  have hσ : Behavior hasty.trace := trace_behavior ..
  have hasks : AsksStop hasty.trace 0 3 := asksStop_trace (by decide +kernel)
  have hticks : Ticks hasty.trace 0 15 := ticks_trace hσ (by decide +kernel) (by decide +kernel)
  have hunderway : Underway hasty.trace 0 6 15 :=
    underway_trace hσ (by decide +kernel) (by decide +kernel)
  obtain ⟨r, henters⟩ := hσ.entered_before hunderway.begins
  have hr : r ≤ 3 := by
    have hnone : ∀ i ≤ 6, 3 < i →
        (hasty.trace i).agenda.head?.any (Task.initialises 0) = false := by decide +kernel
    apply Nat.le_of_not_lt
    intro hlate
    obtain ⟨below, hagenda, -⟩ := henters.entered
    have hfirst := hnone r henters.order hlate
    simp [hagenda, Task.initialises] at hfirst
  exact hobeyed hasty.trace hσ 0 r 6 3 15 henters hr hasks (by decide) hunderway hticks

end TickHost
