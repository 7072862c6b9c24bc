import TickHost.Proofs.Deferrals

/-!
What a pump carries out. It carries out the commands of its host one after the other until it finds
none, and then goes on to the timers. So it does not only carry out what waited when it began: what
is posted while it is at work, by the very tasks and callbacks that it runs, comes next in the same
pump, and so does the answer to an include whose fetch is answered at once. A pump is through if
what is posted meanwhile comes to an end. Nothing sees to that, and a script that includes itself
over and over keeps a pump at work for ever.
-/

namespace TickHost

open World Machine

/-- The commands that are posted to a host in a step. -/
def posting (σ : Nat → Machine) (key n : Nat) : List Command :=
  (waiting σ key (n + 1)).drop (waiting σ key n).length

/-- The command that a host takes in a step, if any. -/
def taking (σ : Nat → Machine) (key n : Nat) : List Command :=
  if (waiting σ key (n + 1)).length < (waiting σ key n).length then (waiting σ key n).take 1
  else []

/-- What some steps bring, from step `a` on and before step `n`. -/
def during {α : Type} (brings : Nat → List α) (a n : Nat) : List α :=
  (List.range' a (n - a)).flatMap brings

section

variable {α : Type} {brings : Nat → List α} {a n m : Nat}

@[simp]
theorem during_self (brings : Nat → List α) (a : Nat) : during brings a a = [] := by
  simp [during]

theorem during_append (han : a ≤ n) (hnm : n ≤ m) :
    during brings a m = during brings a n ++ during brings n m := by
  have hsteps : List.range' a (m - a) = List.range' a (n - a) ++ List.range' n (m - n) := by
    have hlength : m - a = n - a + (m - n) := by omega
    rw [hlength, ← List.range'_append_1, Nat.add_sub_of_le han]
  rw [during, hsteps, List.flatMap_append]
  rfl

theorem during_succ (han : a ≤ n) :
    during brings a (n + 1) = during brings a n ++ brings n := by
  rw [during_append han (Nat.le_succ n)]
  simp [during]

end

/-- A pump that was begun in step `p` is at work on the commands of its host, above the rest of the
tick. -/
structure Draining (σ : Nat → Machine) (key p : Nat) (below : List Task) (n : Nat) : Prop where
  after : p < n
  begun : ∃ t rest, Executes σ p (.pump key t) rest ∧ below = .flush key t :: rest
  stands : ∀ i, p < i → i ≤ n → .drain key :: below <:+ (σ i).agenda

/-- A pump is through with the commands of its host: it finds none. -/
structure Through (σ : Nat → Machine) (key p : Nat) (below : List Task) (q : Nat) : Prop where
  draining : Draining σ key p below q
  executes : Executes σ q (.drain key) below
  empty : waiting σ key q = []

section

variable {σ : Nat → Machine} {key p q d n m : Nat} {below rest : List Task}

theorem Draining.has (h : Draining σ key p below n) (hσ : Behavior σ) : (σ p).world.Has key := by
  obtain ⟨t, rest, hexec, -⟩ := h.begun
  exact (hσ.sound p).head hexec.agenda key rfl

theorem Draining.alive (h : Draining σ key p below n) (hσ : Behavior σ) :
    ((σ n).world.host key).alive = true := by
  obtain ⟨t, rest, -, rfl⟩ := h.begun
  apply hσ.alive_of_inside (x := .flush key t) (by simp [Task.part])
  exact (List.suffix_cons _ _).trans (h.stands n h.after (Nat.le_refl n))

namespace Behavior

variable (hσ : Behavior σ)

include hσ

/-- What waits, and what is posted, is what is taken and what still waits, in the same order. -/
theorem balance {a : Nat} (han : a ≤ n) (hkey : (σ a).world.Has key)
    (halive : ((σ n).world.host key).alive = true) :
    waiting σ key a ++ during (posting σ key) a n =
      during (taking σ key) a n ++ waiting σ key n := by
  induction han with
  | refl => simp
  | @step n han ih =>
      have hhas := hσ.has_later han hkey
      have hbefore := ih (hσ.alive_before (Nat.le_succ n) hhas halive)
      rw [during_succ han, during_succ han, ← List.append_assoc, hbefore, List.append_assoc,
        List.append_assoc]
      congr 1
      rcases hσ.waiting_step hhas halive with ⟨⟨added, hadded⟩, -⟩ |
        ⟨command, rest, -, hwaiting, -⟩
      · rw [posting, taking, ← hadded, List.drop_left, if_neg (by simp), List.nil_append]
      · rw [posting, taking, hwaiting, if_pos (by simp)]
        simp

/-- Draining does not fail. -/
theorem uncrashed_of_drain (hexec : Executes σ n (.drain key) rest) :
    (σ (n + 1)).world.crashed = false := by
  rw [world_after hexec]
  have hcrashed := (hσ.sound n).uncrashed hexec.agenda
  simp only [Task.react, Task.drainOne]
  split
  · exact hcrashed
  · split <;> exact hcrashed

/-- A pump that finds a command takes it, begins to carry it out and stays at work. -/
theorem drains_on (h : Draining σ key p below n) (hexec : Executes σ n (.drain key) below)
    (hsome : waiting σ key n ≠ []) : ∃ command, taking σ key n = [command] ∧
      (σ (n + 1)).agenda = command.work key ++ .drain key :: below ∧
      Draining σ key p below (n + 1) := by
  obtain ⟨command, others, hwaiting⟩ := List.exists_cons_of_ne_nil hsome
  have hafter : waiting σ key (n + 1) = others := by
    have htail := Task.drain_commands (σ n).world (σ n).outcome key
    rwa [← world_after hexec, show ((σ n).world.host key).commands = _ from hwaiting] at htail
  have hagenda : (σ (n + 1)).agenda = command.work key ++ .drain key :: below := by
    rw [after hexec (hσ.uncrashed_of_drain hexec), Task.drain_works hwaiting, List.append_assoc]
    rfl
  refine ⟨command, ?_, hagenda, Nat.lt_succ_of_lt h.after, h.begun, fun i hpi hin => ?_⟩
  · rw [taking, hafter, hwaiting, if_pos (by simp)]
    rfl
  · rcases Nat.lt_or_eq_of_le hin with hless | rfl
    · exact h.stands i hpi (Nat.le_of_lt_succ hless)
    · exact ⟨command.work key, hagenda.symm⟩

/-- While a pump is at work nobody else takes a command. -/
theorem drain_of_taking {command : Command} (h : Draining σ key p below n)
    (htaking : command ∈ taking σ key n) (hcrashed : (σ (n + 1)).world.crashed = false) :
    Executes σ n (.drain key) below ∧ waiting σ key n ≠ [] := by
  have hless : (waiting σ key (n + 1)).length < (waiting σ key n).length := by
    apply Decidable.byContradiction
    intro hnot
    rw [taking, if_neg hnot] at htaking
    cases htaking
  have hstands := h.stands n h.after (Nat.le_refl n)
  refine ⟨?_, List.ne_nil_of_length_pos (Nat.zero_lt_of_lt hless)⟩
  rcases (hσ.next n).suffix rfl hcrashed hstands with hexec | hstays
  · exact ⟨hexec.1, hexec.2⟩
  · have halive : ((σ (n + 1)).world.host key).alive = true := by
      obtain ⟨t, rest, -, rfl⟩ := h.begun
      exact hσ.alive_of_inside (x := .flush key t) (by simp [Task.part])
        ((List.suffix_cons _ _).trans hstays)
    have hhas := hσ.has_later (Nat.le_of_lt h.after) (h.has hσ)
    rcases hσ.waiting_step hhas halive with ⟨hgrown, -⟩ | ⟨-, rest, hexec, -⟩
    · exact absurd hgrown.length_le (Nat.not_le_of_lt hless)
    · obtain rfl := (hσ.pump_unique rfl rfl (suffix_of_executes hexec) hstands).2
      exact hexec

/-- The next time that a pump comes back to the commands it is still at work. -/
theorem drains_next (h : Draining σ key p below n) (hnm : n ≤ m)
    (hexec : Executes σ m (.drain key) below) :
    ∃ i, n ≤ i ∧ Executes σ i (.drain key) below ∧ Draining σ key p below i := by
  obtain ⟨i, hni, -, hdrain, -, hstays⟩ :=
    hσ.first_popped rfl (h.stands n h.after (Nat.le_refl n)) hnm hexec
  refine ⟨i, hni, hdrain, Nat.lt_of_lt_of_le h.after hni, h.begun, fun j hpj hji => ?_⟩
  rcases Nat.lt_or_ge j n with hjn | hnj
  · exact h.stands j hpj (Nat.le_of_lt hjn)
  · exact hstays j hnj hji

theorem taken_by (h : Draining σ key p below n) :
    waiting σ key (p + 1) ++ during (posting σ key) (p + 1) n =
      during (taking σ key) (p + 1) n ++ waiting σ key n :=
  hσ.balance h.after (hσ.has (h.has hσ)) (h.alive hσ)

/-- If what it carries out always comes to an end and does not post more and more, a pump gets
through. -/
theorem through_of_bounded {limit : Nat} (h : Draining σ key p below n)
    (hback : ∀ n, Draining σ key p below n → ∃ m, n ≤ m ∧ Executes σ m (.drain key) below)
    (hlimit : ∀ n, Draining σ key p below n →
      (during (posting σ key) (p + 1) n).length ≤ limit) : ∃ q, Through σ key p below q := by
  -- every command that is taken is one less that can still be taken
  generalize hleft : (waiting σ key (p + 1)).length + limit -
    (during (taking σ key) (p + 1) n).length = left
  induction left using Nat.strongRecOn generalizing n with
  | ind left ih =>
      obtain ⟨m, hnm, hm⟩ := hback n h
      obtain ⟨i, hni, hexec, hi⟩ := hσ.drains_next h hnm hm
      by_cases hempty : waiting σ key i = []
      · exact ⟨i, hi, hexec, hempty⟩
      · obtain ⟨command, hone, -, hnext⟩ := hσ.drains_on hi hexec hempty
        have hmore : (during (taking σ key) (p + 1) n).length <
            (during (taking σ key) (p + 1) (i + 1)).length := by
          have hpn : p + 1 ≤ n := h.after
          rw [during_succ hi.after, during_append hpn hni, List.length_append,
            List.length_append, hone, List.length_singleton]
          omega
        have hbalance := congrArg List.length (hσ.taken_by hnext)
        have hposted := hlimit (i + 1) hnext
        simp only [List.length_append] at hbalance
        exact ih _ (by omega) hnext rfl

/-- A pump that is through goes on to the timers. -/
theorem goes_on (h : Through σ key p below q) : (σ (q + 1)).agenda =
    .fire key (σ q).world.clock (((σ q).world.host key).timers.due (σ q).world.clock) ::
      below := by
  rw [after h.executes (hσ.uncrashed_of_drain h.executes)]
  simp only [Task.react, Task.drainOne]
  rw [show ((σ q).world.host key).commands = _ from h.empty]
  rfl

/-- Whatever looks for commands is a pump at work. -/
theorem draining_of_drain (hexec : Executes σ n (.drain key) rest) :
    ∃ p, Draining σ key p rest n := by
  induction n using Nat.strongRecOn generalizing rest with
  | ind n ih =>
      obtain ⟨a, t, under, post, han, hpush, hpumps, rfl, hstays⟩ :=
        hσ.pumped (x := .drain key) rfl (suffix_of_executes hexec)
      cases hpumps with
      | enter ticking _ => exact ⟨a, han, ⟨ticking, under, hpush, rfl⟩, hstays⟩
      | drain =>
          obtain ⟨p, hbefore⟩ := ih a han hpush
          refine ⟨p, Nat.lt_trans hbefore.after han, hbefore.begun, fun i hpi hin => ?_⟩
          rcases Nat.lt_or_ge a i with hai | hia
          · exact hstays i hai hin
          · exact hbefore.stands i hpi hia

/-- The commands that are left when a pump is through, and those that come later, wait for a later
pump. -/
theorem later_pump (h : Through σ key p below q) (hqn : q < n)
    (hexec : Executes σ n (.drain key) rest) : ∃ p', q < p' ∧ Draining σ key p' rest n := by
  obtain ⟨p', hdraining⟩ := hσ.draining_of_drain hexec
  refine ⟨p', Nat.lt_of_not_le fun hpq => ?_, hdraining⟩
  -- it would stand where the other pump goes on to the timers
  have hstands := hdraining.stands (q + 1) (Nat.lt_succ_of_le hpq) hqn
  cases (hσ.pump_unique rfl rfl hstands (Task.suffix_of_eq (hσ.goes_on h))).1

end Behavior

end

/-- What the pumps of a host carry out. -/
structure PumpDrains (σ : Nat → Machine) (key : Nat) : Prop where
  /-- A pump carries out what waited when it began, and then what is posted meanwhile, each command
  once and in the order of posting. -/
  order : ∀ {p below n}, Draining σ key p below n →
    waiting σ key (p + 1) ++ during (posting σ key) (p + 1) n =
      during (taking σ key) (p + 1) n ++ waiting σ key n
  /-- To take a command is to carry it out, before anything else of the pump. -/
  carries : ∀ {p below n command}, Draining σ key p below n → command ∈ taking σ key n →
    (σ (n + 1)).world.crashed = false → Executes σ n (.drain key) below ∧
      (σ (n + 1)).agenda = command.work key ++ .drain key :: below ∧
      Draining σ key p below (n + 1)
  /-- When it is through nothing of it is left. It has carried out only what waited when it began
  exactly if nothing was posted meanwhile. -/
  all : ∀ {p below q}, Through σ key p below q →
    during (taking σ key) (p + 1) q =
        waiting σ key (p + 1) ++ during (posting σ key) (p + 1) q ∧
      (during (taking σ key) (p + 1) q = waiting σ key (p + 1) ↔
        during (posting σ key) (p + 1) q = [])
  /-- Then it goes on to the timers and the rest of the tick. -/
  goes : ∀ {p below q}, Through σ key p below q → ∃ due,
    (σ (q + 1)).agenda = .fire key (σ q).world.clock due :: below
  /-- What is posted from then on is left to a later pump. -/
  later : ∀ {p below q n rest}, Through σ key p below q → q < n → Executes σ n (.drain key) rest →
    ∃ p', q < p' ∧ Draining σ key p' rest n
  /-- A pump gets through if what it carries out always comes to an end, and does not post more and
  more. -/
  ends : ∀ {p below limit}, Draining σ key p below (p + 1) →
    (∀ n, Draining σ key p below n → ∃ m, n ≤ m ∧ Executes σ m (.drain key) below) →
    (∀ n, Draining σ key p below n → (during (posting σ key) (p + 1) n).length ≤ limit) →
    ∃ q, Through σ key p below q

/-- The pumps of every host carry out their commands so. -/
theorem pumps_drain {σ : Nat → Machine} (hσ : Behavior σ) (key : Nat) : PumpDrains σ key where
  order := hσ.taken_by
  carries {p below n command} h htaking hcrashed := by
    obtain ⟨hexec, hsome⟩ := hσ.drain_of_taking h htaking hcrashed
    obtain ⟨other, hone, hagenda, hnext⟩ := hσ.drains_on h hexec hsome
    obtain rfl : command = other := by simpa [hone] using htaking
    exact ⟨hexec, hagenda, hnext⟩
  all h := by
    have htaken := hσ.taken_by h.draining
    rw [h.empty, List.append_nil] at htaken
    rw [← htaken]
    exact ⟨rfl, List.append_right_eq_self⟩
  goes h := ⟨_, hσ.goes_on h⟩
  later := hσ.later_pump
  ends := hσ.through_of_bounded

/-- A pump of a trace that is through can be read off its agendas. -/
theorem Machine.through_trace {m : Machine} (hm : Behavior m.trace) {key p q : Nat}
    (hdrains : (m.trace q).agenda.head?.any (fun
      | .drain other => other = key
      | _ => false) = true)
    (honly : ∀ i < q, i ≠ p → (m.trace i).agenda.head?.any (fun
      | .pump other _ => other = key
      | _ => false) = false)
    (hempty : (waiting m.trace key q).isEmpty = true) : ∃ below, Through m.trace key p below q := by
  obtain ⟨below, hexec⟩ := drains_trace hdrains
  obtain ⟨p', hdraining⟩ := hm.draining_of_drain hexec
  have hp : p' = p := by
    apply Decidable.byContradiction
    intro hne
    obtain ⟨t, rest, hpump, -⟩ := hdraining.begun
    have hnone := honly p' hdraining.after hne
    rw [hpump.agenda] at hnone
    simp at hnone
  exact ⟨below, hp ▸ hdraining, hexec, List.isEmpty_iff.mp hempty⟩

/-- Before a host is run a task is posted to it that posts another task. -/
def Machine.nested : Machine :=
  .start (.start default [] [] [] default)
    [.build ⟨"h", "", "h.js", none, .standard, "", none, none, false, none, false, 1⟩ [],
      .inScript (some "h") (.handle "k"),
      .onHandle "k" (.invoke [.onHandle "k" (.invoke [.onWorld .now])]),
      .onHost (some "h") .run]

theorem Machine.nested_behavior : Behavior nested.trace :=
  trace_behavior ..

/-- The pump carries out both tasks. -/
theorem Machine.nested_through : ∃ below, Through nested.trace 0 15 below 22 :=
  through_trace nested_behavior (by decide +kernel) (by decide +kernel) (by decide +kernel)

/-- One task waits when the pump begins, and one is posted meanwhile. -/
theorem nested_drains : (∃ below, Through nested.trace 0 15 below 22) ∧
    (waiting nested.trace 0 16).length = 1 ∧
    (during (posting nested.trace 0) 16 22).length = 1 ∧ PumpDrains nested.trace 0 :=
  ⟨nested_through, by decide +kernel, by decide +kernel, pumps_drain nested_behavior 0⟩

/-! A pump that does not end. -/

/-- The script of a host includes nothing, and its callback does so again. The fetch of nothing is
answered at once. -/
def Machine.restless : Machine :=
  .start (.start default [] [] [("f", [.inScript none (.includeAll [] (some (.script "f")))])]
      default)
    [.build ⟨"h", "", "h.js", none, .standard, "", none, none, false, none, false, 1⟩ [],
      .inScript (some "h") (.includeAll [] (some (.script "f"))), .onHost (some "h") .run]

/-- The first host of a world includes nothing over and over. -/
structure World.Restless (w : World) (commands : List Command) : Prop where
  crashed : w.crashed = false
  function : w.functions.get? "f" = some [.inScript none (.includeAll [] (some (.script "f")))]
  opens : w.isStopping 0 = false
  engine : (w.host 0).directives = false
  fetcher : (w.host 0).fetcher = none
  alive : (w.host 0).alive = true
  commands : (w.host 0).commands = commands

/-- The answer to the include. -/
def Command.again : Command :=
  .includeReady [] (.script "f") (FetchResults.unconfigured [])

namespace World.Restless

variable {w : World} {commands : List Command} (h : w.Restless commands)

include h

theorem note (entry : Entry) : (w.note entry).Restless commands :=
  ⟨h.crashed, h.function, h.opens, h.engine, h.fetcher, h.alive, h.commands⟩

theorem queue (others : List Command) :
    (w.updateHost 0 fun h => { h with commands := others }).Restless others := by
  have hhost : (w.updateHost 0 fun h => { h with commands := others }).host 0 =
      { w.host 0 with commands := others } := by rw [host_updateHost, if_pos rfl]
  constructor
  case crashed => exact h.crashed
  case function => exact h.function
  case opens =>
    have hopens := h.opens
    simp only [World.isStopping] at hopens ⊢
    rw [hhost]
    exact hopens
  case engine => rw [hhost]; exact h.engine
  case fetcher => rw [hhost]; exact h.fetcher
  case alive => rw [hhost]; exact h.alive
  case commands => rw [hhost]

end World.Restless

namespace World.Restless

variable {w : World}

theorem react_drain (h : w.Restless [.again]) (o : Outcome) : ∃ w',
    Task.react w o (.drain 0) = ⟨w', o, Command.again.work 0 ++ [.drain 0]⟩ ∧ w'.Restless [] := by
  refine ⟨_, ?_, h.queue []⟩
  simp [Task.react, Task.drainOne, h.commands, Command.again, Command.work, World.updateHost]

theorem react_call (h : w.Restless []) (o : Outcome) : ∃ w' scope,
    Task.react w o (.call 0 (.script "f") []) =
      ⟨w', o, [.perform scope [.inScript none (.includeAll [] (some (.script "f")))]]⟩ ∧
      scope.host = some 0 ∧ w'.Restless [] := by
  refine ⟨_, ⟨some 0, (w.host 0).name, .host⟩, ?_, rfl, h.note (.called (w.host 0).name "f" [])⟩
  simp [Task.react, Task.callBack, h.engine, World.note, h.function]

theorem react_perform (h : w.Restless []) (o : Outcome) {scope : Scope}
    (hscope : scope.host = some 0) : ∃ w',
    Task.react w o (.perform scope [.inScript none (.includeAll [] (some (.script "f")))]) =
      ⟨w', o, [.perform scope []]⟩ ∧ w'.Restless [.again] := by
  have hposted : w.updateHost 0 (·.post .again) =
      w.updateHost 0 fun h => { h with commands := [.again] } := by
    simp [World.updateHost, Host.post, h.commands]
  refine ⟨_, ?_, (h.queue _).note (.answered "include" .nothing)⟩
  rw [← hposted]
  simp [Task.react, Task.performOne, Task.start, hscope, Task.startScriptDeed, World.doScriptDeed,
    h.opens, World.resolveAll, World.fetch, h.fetcher, World.answerFetch, h.alive, World.callback,
    Command.again, ScriptDeed.name]

end World.Restless

/-- The restless pump has come to a moment of one of its rounds, with these tasks left until the
rest of the tick. -/
structure Rounds (below : List Task) (n : Nat) (o : Outcome) (tasks : List Task)
    (commands : List Command) : Prop where
  world : (restless.trace n).world.Restless commands
  outcome : (restless.trace n).outcome = o
  agenda : (restless.trace n).agenda = tasks ++ below

/-- At a moment the restless pump is at work, and it finds a command if it looks for one. -/
structure Busy (below : List Task) (n : Nat) : Prop where
  stands : .drain 0 :: below <:+ (restless.trace n).agenda
  finds : ∀ rest, (restless.trace n).agenda = .drain 0 :: rest → waiting restless.trace 0 n ≠ []

section Restless

variable {below : List Task} {n : Nat} {o o' : Outcome} {x : Task} {tasks next : List Task}
  {commands commands' : List Command} {w' : World}

theorem Rounds.step (h : Rounds below n o (x :: tasks) commands)
    (hreact : Task.react (restless.trace n).world o x = ⟨w', o', next⟩)
    (hrestless : w'.Restless commands') : Rounds below (n + 1) o' (next ++ tasks) commands' := by
  have hstep := trace_react h.agenda (h.outcome ▸ hreact) hrestless.crashed
  constructor
  case world => rwa [hstep]
  case outcome => rw [hstep]
  case agenda =>
    rw [hstep, List.append_assoc]
    rfl

theorem Rounds.busy (above : List Task) (h : Rounds below n o (x :: above ++ [.drain 0]) commands)
    (hother : x.pumps? = none) : Busy below n where
  stands := by
    refine ⟨x :: above, ?_⟩
    rw [h.agenda, List.append_assoc]
    rfl
  finds rest hagenda := by
    obtain rfl : x = .drain 0 := (List.cons.inj (h.agenda.symm.trans hagenda)).1
    cases hother

/-- In a round the pump takes the answer to an include, and the next one is posted. -/
theorem Rounds.around (h : Rounds below n o [.drain 0] [.again]) :
    (∃ o', Rounds below (n + 6) o' [.drain 0] [.again]) ∧
      ∀ i, n ≤ i → i < n + 6 → Busy below i := by
  have hbusy : Busy below n := by
    refine ⟨Task.suffix_of_eq h.agenda, fun _ _ => ?_⟩
    rw [waiting, h.world.commands]
    exact List.cons_ne_nil _ _
  obtain ⟨w₁, hdrain, hidle₁⟩ := h.world.react_drain o
  have h₁ := h.step hdrain hidle₁
  have h₂ := h₁.step rfl h₁.world
  obtain ⟨w₃, scope, hcall, hscope, hidle₃⟩ := h₂.world.react_call o
  have h₃ := h₂.step hcall hidle₃
  obtain ⟨w₄, hperform, hidle₄⟩ := h₃.world.react_perform o hscope
  have h₄ := h₃.step hperform hidle₄
  have h₅ := h₄.step rfl h₄.world
  have h₆ := h₅.step rfl h₅.world
  refine ⟨⟨_, h₆⟩, fun i hni hin => ?_⟩
  obtain ⟨j, rfl⟩ := Nat.exists_eq_add_of_le hni
  rcases j with _ | _ | _ | _ | _ | _ | j
  · exact hbusy
  · exact h₁.busy [_, _] rfl
  · exact h₂.busy [_] rfl
  · exact h₃.busy [_] rfl
  · exact h₄.busy [_] rfl
  · exact h₅.busy [] rfl
  · omega

end Restless

namespace Machine

theorem restless_behavior : Behavior restless.trace :=
  trace_behavior ..

theorem restless_world : (restless.trace 15).world.Restless [.again] := by
  constructor
  case crashed | opens | engine | alive => decide +kernel
  case function | fetcher | commands => rfl

/-- The pump is begun and looks for commands again and again, but always finds one. -/
theorem restless_pumps : ∃ below, Draining restless.trace 0 14 below 15 ∧
    ∀ k, (∃ o, Rounds below (15 + 6 * k) o [.drain 0] [.again]) ∧
      ∀ i, 15 ≤ i → i < 15 + 6 * k → Busy below i := by
  obtain ⟨ticking, rest, hpump⟩ : ∃ ticking rest,
      (restless.trace 14).agenda = .pump 0 ticking :: rest := ⟨_, _, rfl⟩
  have hexec : Executes restless.trace 14 (.pump 0 ticking) rest := ⟨hpump, trace_succ _ _⟩
  have hlive : ((restless.trace 14).world.host 0).finished = false := by decide +kernel
  have hagenda := Behavior.after hexec (by decide +kernel)
  simp only [Task.react, hlive, Bool.false_eq_true, if_false] at hagenda
  refine ⟨.flush 0 ticking :: rest, ⟨Nat.lt_succ_self 14, ⟨ticking, rest, hexec, rfl⟩, ?_⟩, ?_⟩
  · intro i hpi hin
    obtain rfl := Nat.le_antisymm hin hpi
    exact Task.suffix_of_eq hagenda
  · intro k
    induction k with
    | zero => exact ⟨⟨_, restless_world, rfl, hagenda⟩, fun i h h' => by omega⟩
    | succ k ih =>
        obtain ⟨⟨o, hrounds⟩, hbusy⟩ := ih
        obtain ⟨hnext, hround⟩ := hrounds.around
        refine ⟨hnext, fun i hstart hin => ?_⟩
        rcases Nat.lt_or_ge i (15 + 6 * k) with hearlier | hlater
        · exact hbusy i hstart hearlier
        · exact hround i hlater hin

end Machine

/-- A pump may carry out what was posted while it was at work, and it may go on for ever although
all that it carries out comes to an end. -/
theorem not_always_what_waited :
    (¬ ∀ σ, Behavior σ → ∀ key p below q, Through σ key p below q →
      during (taking σ key) (p + 1) q = waiting σ key (p + 1)) ∧
    ¬ ∀ σ, Behavior σ → ∀ key p below, Draining σ key p below (p + 1) →
      (∀ n, Draining σ key p below n → ∃ m, n ≤ m ∧ Executes σ m (.drain key) below) →
      ∃ q, Through σ key p below q := by
  constructor
  · intro hall
    obtain ⟨below, hthrough⟩ := nested_through
    have hlength := congrArg List.length (hall _ nested_behavior 0 15 below 22 hthrough)
    exact absurd hlength (by decide +kernel)
  · intro hall
    obtain ⟨below, hdraining, hrounds⟩ := restless_pumps
    obtain ⟨q, hthrough⟩ := hall _ restless_behavior 0 14 below hdraining fun n _ => by
      obtain ⟨⟨o, h⟩, -⟩ := hrounds n
      exact ⟨15 + 6 * n, by omega, h.agenda, trace_succ _ _⟩
    have hbusy := (hrounds (q + 1)).2 q hthrough.draining.after (by omega)
    exact hbusy.finds below hthrough.executes.agenda hthrough.empty

end TickHost
