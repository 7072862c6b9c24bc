import TickHost.Proofs.Frames

/-!
Executions. A behavior is an endless sequence of machines: it begins with a scenario, and each
machine comes from the one before by a step, or by something that is up to others. Others may
choose what a script does next, may do anything at all between two tasks where a host leaves them
the time for it, and may see the members of a registry in any order. A machine that has nothing to
do stays as it is.

There is one agenda. Hosts on threads of their own are covered as far as one of them goes on while
the others wait.
-/

namespace TickHost

open World

/-- The tasks before which others get a turn. A run is confirmed, and an evaluation entered and
announced, without a break. -/
def Task.pauses : Task → Bool
  | perform _ _ | batch _ _ _ | awaitTick _ _ | pump _ _ | drain _ | fire _ _ _ | flush _ _
  | stream _ _ | update _ _ | close _ _ | lastFlush _ | finish _ _ => true
  | _ => false

namespace Machine

/-- What others may do between two steps. -/
inductive Interrupts (m : Machine) : Machine → Prop where
  | chooses (scope : Scope) (actions chosen : List Action) (rest : List Task)
      (hagenda : m.agenda = .perform scope actions :: rest) :
      Interrupts m { m with agenda := .perform scope chosen :: rest }
  | intrudes (scope : Scope) (actions : List Action) (t : Task) (rest : List Task)
      (hagenda : m.agenda = t :: rest) (hpauses : t.pauses = true)
      (hscope : ∀ key, scope.host = some key → m.world.Has key) :
      Interrupts m { m with agenda := .perform scope actions :: t :: rest }
  | reorders (name : String) (members : List (Nat × Nat))
      (hperm : members.Perm (m.world.registry name).members) :
      Interrupts m { m with world := m.world.updateRegistry name fun r => { r with members } }

inductive Next (m : Machine) : Machine → Prop where
  | step : Next m m.step
  | interrupt {m' : Machine} (hinterrupts : Interrupts m m') : Next m m'

/-- The machine is in order: its world is, its tasks are about hosts that were built and nest, and
after a crash there are none. -/
structure Sound (m : Machine) : Prop where
  linked : m.world.Linked
  roster : m.world.Roster
  keys : Task.KeysIn m.world m.agenda
  crash : m.world.crashed = true → m.agenda = []
  nested : ∀ key, Task.Nested key (m.world.host key).running m.agenda
  depth : m.world.crashed = false → ∀ key, Task.Depth key (m.world.host key).pending m.agenda
  done : ∀ key, (m.world.host key).done = !(m.world.host key).running

/-- Interrupts change nothing in the world but the order of members. -/
structure Interrupts.Same (w w' : World) : Prop where
  hosts : w'.hosts = w.hosts
  names : w'.names = w.names
  handles : w'.handles = w.handles
  jobs : w'.jobs = w.jobs
  fetches : w'.fetches = w.fetches
  journal : w'.journal = w.journal
  crashed : w'.crashed = w.crashed
  stopping : ∀ name, (w'.registry name).stopping = (w.registry name).stopping
  nextId : ∀ name, (w'.registry name).nextId = (w.registry name).nextId
  members : ∀ name, (w'.registry name).members.Perm (w.registry name).members

theorem Interrupts.same {m m' : Machine} (hinterrupts : Interrupts m m') :
    Interrupts.Same m.world m'.world := by
  cases hinterrupts with
  | chooses | intrudes =>
      exact ⟨rfl, rfl, rfl, rfl, rfl, rfl, rfl, fun _ => rfl, fun _ => rfl, fun _ => .refl _⟩
  | reorders name members hperm =>
      refine ⟨rfl, rfl, rfl, rfl, rfl, rfl, rfl, fun other => ?_, fun other => ?_,
        fun other => ?_⟩ <;> rw [registry_updateRegistry] <;> split
      · rename_i heq
        subst heq
        rfl
      · rfl
      · rename_i heq
        subst heq
        rfl
      · rfl
      · rename_i heq
        subst heq
        exact hperm
      · exact .refl _

namespace Interrupts.Same

theorem refl (w : World) : Same w w :=
  ⟨rfl, rfl, rfl, rfl, rfl, rfl, rfl, fun _ => rfl, fun _ => rfl, fun _ => .refl _⟩

theorem trans {w w' w'' : World} (h : Same w w') (h' : Same w' w'') : Same w w'' where
  hosts := h'.hosts.trans h.hosts
  names := h'.names.trans h.names
  handles := h'.handles.trans h.handles
  jobs := h'.jobs.trans h.jobs
  fetches := h'.fetches.trans h.fetches
  journal := h'.journal.trans h.journal
  crashed := h'.crashed.trans h.crashed
  stopping name := (h'.stopping name).trans (h.stopping name)
  nextId name := (h'.nextId name).trans (h.nextId name)
  members name := (h'.members name).trans (h.members name)

variable {w w' : World} (hsame : Interrupts.Same w w')

include hsame

theorem host (key : Nat) : w'.host key = w.host key := by
  rw [World.host, World.host, hsame.hosts]

theorem has (key : Nat) : w'.Has key ↔ w.Has key := by
  rw [Has, Has, hsame.hosts]

theorem isStopping (key : Nat) : w'.isStopping key = w.isStopping key := by
  rw [World.isStopping, World.isStopping, hsame.host, Registry.isStopping, Registry.isStopping,
    hsame.stopping]

end Interrupts.Same

theorem step_nil {m : Machine} (hagenda : m.agenda = []) : m.step = m := by
  simp [step, hagenda]

theorem step_world {m : Machine} {t : Task} {rest : List Task} (hagenda : m.agenda = t :: rest) :
    m.step.world = (t.react m.world m.outcome).world := by
  simp [step, hagenda]

theorem step_agenda {m : Machine} {t : Task} {rest : List Task} (hagenda : m.agenda = t :: rest) :
    m.step.agenda = if m.step.world.crashed then []
      else (t.react m.world m.outcome).next ++ rest := by
  simp [step, hagenda]

namespace Sound

variable {m m' : Machine}

theorem start (disk : Disk) (remote : Table String) (programs functions : Table (List Action))
    (network : Directory) (actions : List Action) :
    (Machine.start (.start disk remote programs functions network) actions).Sound where
  linked := ⟨rfl, nofun, nofun, nofun, nofun⟩
  roster := ⟨nofun, nofun, nofun⟩
  keys := by simp [Machine.start, Task.KeysIn, Task.host?, Scope.outside]
  crash h := by cases h
  nested _ := trivial
  depth _ _ := rfl
  done _ := rfl

/-- The first task is about a host that was built. -/
theorem head (hsound : m.Sound) {t : Task} {rest : List Task} (hagenda : m.agenda = t :: rest) :
    ∀ key, t.host? = some key → m.world.Has key :=
  fun key hkey => hsound.keys t (by simp [hagenda]) key hkey

theorem uncrashed (hsound : m.Sound) {t : Task} {rest : List Task}
    (hagenda : m.agenda = t :: rest) : m.world.crashed = false := by
  cases hcrashed : m.world.crashed with
  | false => rfl
  | true => simp [hsound.crash hcrashed] at hagenda

theorem step (hsound : m.Sound) : m.step.Sound := by
  cases hagenda : m.agenda with
  | nil => rwa [step_nil hagenda]
  | cons t rest =>
      have hkeys := hsound.head hagenda
      have hnext := Task.react_keysIn (o := m.outcome) hsound.linked hkeys
      have hworld := step_world hagenda
      have hhas : ∀ key, m.world.Has key → m.step.world.Has key := by
        intro key hkey
        rw [hworld]
        exact Task.react_has hsound.linked hkeys hkey
      constructor
      · rw [hworld]
        exact Task.react_linked hsound.linked hkeys
      · rw [hworld]
        exact Task.react_roster hsound.linked hkeys hsound.roster
      · rw [step_agenda hagenda]
        split
        · exact .nil
        · refine Task.KeysIn.append (fun t' ht' key hkey => hhas key (hnext t' ht' key hkey)) ?_
          exact fun t' ht' key hkey => hhas key
            (hsound.keys t' (by simp [hagenda, ht']) key hkey)
      · intro hcrashed
        rw [step_agenda hagenda, if_pos hcrashed]
      · intro key
        have hnested := hsound.nested key
        rw [hagenda] at hnested
        rw [step_agenda hagenda]
        split
        · trivial
        · rw [hworld]
          exact Task.react_nested hsound.linked hkeys hnested
      · intro hcrashed key
        have hdepth := hsound.depth (hsound.uncrashed hagenda) key
        rw [hagenda] at hdepth
        rw [step_agenda hagenda, hcrashed, hworld]
        exact Task.react_depth hsound.linked hkeys hdepth
      · intro key
        rw [hworld]
        exact Task.react_done hsound.linked hkeys (hsound.done key)

/-- An interrupt adds scripts to the agenda or changes them, and nothing else. -/
theorem interrupt (hsound : m.Sound) (hinterrupts : Interrupts m m') : m'.Sound := by
  have hsame := hinterrupts.same
  have hhas := hsame.has
  have hlinked : m'.world.Linked := by
    refine ⟨by rw [hsame.hosts, hsound.linked.keys], ?_, ?_, ?_, ?_⟩
    · rw [hsame.names]
      exact fun name key h => (hhas key).mpr (hsound.linked.names name key h)
    · rw [hsame.handles]
      exact fun name key h => (hhas key).mpr (hsound.linked.handles name key h)
    · rw [hsame.fetches]
      exact fun f h => (hhas f.host).mpr (hsound.linked.fetches f h)
    · rw [hsame.jobs]
      exact fun name job h => (hhas job.host).mpr (hsound.linked.jobs name job h)
  have hroster : m'.world.Roster :=
    hsound.roster.of (by rw [hsame.hosts]) (fun key => by rw [hsame.host])
      (fun key => by rw [hsame.host]) (fun name => (hsame.members name).subset) hsame.nextId
  have hdone : ∀ key, (m'.world.host key).done = !(m'.world.host key).running := by
    intro key
    rw [hsame.host]
    exact hsound.done key
  cases hinterrupts with
  | chooses scope actions chosen rest hagenda =>
      refine ⟨hlinked, hroster, ?_, fun hcrashed => ?_, fun key => ?_, fun hcrashed key => ?_,
        hdone⟩
      · intro t ht key hkey
        rcases List.mem_cons.mp ht with rfl | ht
        · exact hsound.keys (.perform scope actions) (by simp [hagenda]) key hkey
        · exact hsound.keys t (by simp [hagenda, ht]) key hkey
      · simp [hsound.crash hcrashed] at hagenda
      · have hnested := hsound.nested key
        rwa [hagenda] at hnested
      · have hdepth := hsound.depth hcrashed key
        rwa [hagenda] at hdepth
  | intrudes scope actions t rest hagenda hpauses hscope =>
      refine ⟨hlinked, hroster, ?_, fun hcrashed => ?_, fun key => ?_, fun hcrashed key => ?_,
        hdone⟩
      · intro t' ht' key hkey
        rcases List.mem_cons.mp ht' with rfl | ht'
        · exact hscope key hkey
        · exact hsound.keys t' (by simpa [hagenda] using ht') key hkey
      · simp [hsound.crash hcrashed] at hagenda
      · have hnested := hsound.nested key
        rwa [hagenda] at hnested
      · have hdepth := hsound.depth hcrashed key
        rwa [hagenda] at hdepth
  | reorders name members hperm =>
      refine ⟨hlinked, hroster, ?_, hsound.crash, hsound.nested, hsound.depth, hdone⟩
      exact fun t ht key hkey => (hhas key).mpr (hsound.keys t ht key hkey)

theorem next (hsound : m.Sound) (hnext : m.Next m') : m'.Sound := by
  cases hnext with
  | step => exact hsound.step
  | interrupt hinterrupts => exact hsound.interrupt hinterrupts

end Sound

/-- What a task brings about, or nothing, or what others do. -/
theorem Next.cases {m m' : Machine} (hnext : m.Next m') :
    Interrupts.Same m.world m'.world ∨
      ∃ t rest, m.agenda = t :: rest ∧ m' = m.step := by
  cases hnext with
  | step =>
      cases hagenda : m.agenda with
      | nil =>
          rw [step_nil hagenda]
          exact .inl (.refl m.world)
      | cons t rest => exact .inr ⟨t, rest, rfl, rfl⟩
  | interrupt hinterrupts => exact .inl hinterrupts.same

/-- After a crash there is no way back. -/
theorem Next.uncrashed {m m' : Machine} (hnext : m.Next m') (hsound : m.Sound)
    (hcrashed : m'.world.crashed = false) : m.world.crashed = false := by
  rcases hnext.cases with hsame | ⟨t, rest, hagenda, -⟩
  · rw [← hsame.crashed]
    exact hcrashed
  · exact hsound.uncrashed hagenda

theorem Next.has {m m' : Machine} (hnext : m.Next m') (hsound : m.Sound) {key : Nat}
    (hkey : m.world.Has key) : m'.world.Has key := by
  rcases hnext.cases with hsame | ⟨t, rest, hagenda, hstep⟩
  · exact (hsame.has key).mpr hkey
  · rw [hstep, step_world hagenda]
    exact Task.react_has hsound.linked (hsound.head hagenda) hkey

end Machine

/-! Behaviors. -/

open Machine

/-- An execution of a scenario, whatever others do meanwhile. -/
structure Behavior (σ : Nat → Machine) : Prop where
  starts : ∃ disk remote programs functions network actions,
    σ 0 = .start (.start disk remote programs functions network) actions
  next : ∀ n, (σ n).Next (σ (n + 1))

/-- In one step the machine takes a task off its agenda. -/
structure Executes (σ : Nat → Machine) (n : Nat) (t : Task) (rest : List Task) : Prop where
  agenda : (σ n).agenda = t :: rest
  step : σ (n + 1) = (σ n).step

theorem Executes.unique {σ : Nat → Machine} {n : Nat} {t t' : Task} {rest rest' : List Task}
    (hexec : Executes σ n t rest) (hexec' : Executes σ n t' rest') : t = t' ∧ rest = rest' := by
  simpa using hexec.agenda.symm.trans hexec'.agenda

/-- Going through a scenario without any interrupt. -/
def Machine.trace (m : Machine) (n : Nat) : Machine :=
  run n m

theorem Machine.trace_succ (m : Machine) (n : Nat) : m.trace (n + 1) = (m.trace n).step := by
  induction n generalizing m with
  | zero =>
      cases hagenda : m.agenda with
      | nil => simp [trace, run, step_nil hagenda, hagenda]
      | cons t rest => simp [trace, run, hagenda]
  | succ n ih =>
      cases hagenda : m.agenda with
      | nil =>
          have hstay : ∀ fuel, run fuel m = m := by
            intro fuel
            cases fuel <;> simp [run, hagenda]
          rw [trace, trace, hstay, hstay, step_nil hagenda]
      | cons t rest =>
          have hrun : ∀ fuel, run (fuel + 1) m = run fuel m.step := by
            intro fuel
            simp [run, hagenda]
          rw [trace, trace, hrun, hrun]
          exact ih m.step

theorem Machine.trace_behavior (disk : Disk) (remote : Table String)
    (programs functions : Table (List Action)) (network : Directory) (actions : List Action) :
    Behavior (Machine.start (.start disk remote programs functions network) actions).trace where
  starts := ⟨disk, remote, programs, functions, network, actions, rfl⟩
  next n := by
    rw [trace_succ]
    exact .step

/-- The next machine of a trace, if what the first task does is known. -/
theorem Machine.trace_react {m : Machine} {n : Nat} {t : Task} {rest next : List Task} {w : World}
    {o : Outcome} (hagenda : (m.trace n).agenda = t :: rest)
    (hreact : t.react (m.trace n).world (m.trace n).outcome = ⟨w, o, next⟩)
    (hcrashed : w.crashed = false) : m.trace (n + 1) = ⟨w, o, next ++ rest⟩ := by
  rw [trace_succ, step, hagenda]
  dsimp only
  rw [hreact, hcrashed]
  rfl

/-- What a trace executes can be read off its agenda. -/
theorem Machine.executes_trace_iff {m : Machine} {n : Nat} {p : Task → Bool} :
    (∃ t rest, Executes m.trace n t rest ∧ p t = true) ↔
      (m.trace n).agenda.head?.any p = true := by
  cases hagenda : (m.trace n).agenda with
  | nil =>
      refine ⟨fun ⟨t, rest, hexec, _⟩ => ?_, nofun⟩
      have hheads := hexec.agenda.symm.trans hagenda
      cases hheads
  | cons first below =>
      constructor
      · rintro ⟨t, rest, hexec, htest⟩
        have hheads := hexec.agenda.symm.trans hagenda
        cases hheads
        exact htest
      · exact fun htest => ⟨first, below, ⟨hagenda, trace_succ m n⟩, htest⟩

/-- The task of this step brings a value of some kind. -/
def Brings {α : Type} (σ : Nat → Machine) (kind : World → Task → Option α) (n : Nat) (v : α) :
    Prop :=
  ∃ t rest, Executes σ n t rest ∧ kind (σ n).world t = some v

theorem Brings.unique {α : Type} {σ : Nat → Machine} {kind : World → Task → Option α} {n : Nat}
    {v v' : α} (hbrings : Brings σ kind n v) (hbrings' : Brings σ kind n v') : v = v' := by
  obtain ⟨t, rest, hexec, hkind⟩ := hbrings
  obtain ⟨t', rest', hexec', hkind'⟩ := hbrings'
  rw [(hexec.unique hexec').1] at hkind
  exact Option.some.inj (hkind.symm.trans hkind')

theorem Machine.brings_trace_iff {α : Type} {kind : World → Task → Option α} [DecidableEq α]
    {m : Machine} {n : Nat} {v : α} :
    Brings m.trace kind n v ↔ (m.trace n).agenda.head?.any
      (fun t => kind (m.trace n).world t = some v) = true := by
  rw [← executes_trace_iff]
  simp only [decide_eq_true_eq, Brings]

instance {α : Type} {kind : World → Task → Option α} [DecidableEq α] (m : Machine) (n : Nat)
    (v : α) : Decidable (Brings m.trace kind n v) :=
  decidable_of_iff' _ brings_trace_iff

/-- A host whose program begins a stop-all call is run; the call returns after the run, and the
host is run again. -/
def Machine.rerun : Machine :=
  .start (.start default [] [("body", [.onWorld (.stopAll "" "j"), .inScript none .state])] []
      default)
    [.build ⟨"h", "body", "h.js", none, .standard, "", none, none, false, none, false, 1⟩ [],
      .onHost (some "h") .run, .onWorld (.poll "j"), .onHost (some "h") .run]

theorem Machine.rerun_behavior : Behavior rerun.trace :=
  trace_behavior ..

namespace Behavior

variable {σ : Nat → Machine} (hσ : Behavior σ)

include hσ

theorem sound (n : Nat) : (σ n).Sound := by
  induction n with
  | zero =>
      obtain ⟨disk, remote, programs, functions, network, actions, hstart⟩ := hσ.starts
      rw [hstart]
      exact .start disk remote programs functions network actions
  | succ n ih => exact ih.next (hσ.next n)

theorem has {n : Nat} {key : Nat} (hkey : (σ n).world.Has key) : (σ (n + 1)).world.Has key :=
  (hσ.next n).has (hσ.sound n) hkey

end Behavior

end TickHost
