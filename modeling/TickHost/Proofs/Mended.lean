import TickHost.Proofs.Wires

/-!
Callbacks that fail. To a run in which callbacks of timers, signals and includes return faults there
is one in which they return values instead, any of them and any values, while everything else takes
the same turns. The second run keeps in step with the first: there is the same to do next, and the
worlds differ in nothing but the complaints of the hosts. A host complains once about each fault,
right when the callback has returned, unless it is cut off by then.
-/

namespace TickHost

theorem Thins.errors {said : List Envelope} (herrors : ∀ e ∈ said, e.event.isError = true) :
    Thins said [] := by
  refine ⟨List.nil_sublist said, ?_⟩
  symm
  simpa [List.filter_eq_nil_iff] using herrors

/-- A host complains in the first of two worlds only. -/
theorem World.Alike.complain {w w' : World} (halike : Alike w w' w w') (hwired : w.Wired)
    {key : Nat} (hkey : w.Has key) (fault : ScriptFault) :
    Alike (w.reportFault key fault) w' (w.reportFault key fault) w' where
  hushed := halike.hushed.trans (hwired.publish_hushed hkey _ _).symm
  said _ := ⟨[], (List.append_nil _).symm, (List.append_nil _).symm⟩
  aired bus := by
    have herrors : Thins (if (w.host key).bus = bus then
        (w.host key).remark w.clock (.errorMessage fault.render) .script else []) [] := by
      refine .errors fun e he => ?_
      rw [Host.remark_eq] at he
      split at he
      · split at he
        · cases he
        · rw [List.mem_singleton.mp he]
          rfl
      · cases he
    have hthins := (halike.aired bus).append herrors
    rw [List.append_nil] at hthins
    rwa [World.reportFault, publish_aired]
  buses := List.Subset.refl _
  shared name bus hname := by
    rw [World.reportFault, publish_sharedBuses] at hname
    exact publish_buses _ _ _ _ (hwired.shared name bus hname)

open World

namespace Machine

/-- The host whose callback has just returned a fault to the loop that called it. -/
def failed? (m : Machine) : Option (Nat × ScriptFault) :=
  match m.agenda, m.outcome with
  | .report key :: t :: _, .faulted f => if t.loops then some (key, f) else none
  | _, _ => none

/-- A callback that has just returned a fault returns a value instead. -/
def mend (m : Machine) : Option Value → Machine
  | none => m
  | some v => if m.failed?.isSome then { m with outcome := .returned v } else m

/-- How a run goes on: by a step, or by what others do between two steps. -/
inductive Turn where
  | step
  | choose (actions : List Action)
  | intrude (scope : Scope) (actions : List Action)
  | reorder (name : String) (members : List (Nat × Nat))

def take (m : Machine) : Turn → Machine
  | .step => m.step
  | .choose actions =>
      match m.agenda with
      | .perform scope _ :: rest => { m with agenda := .perform scope actions :: rest }
      | _ => m
  | .intrude scope actions =>
      if m.agenda.head?.any Task.pauses then
        { m with agenda := .perform scope actions :: m.agenda }
      else m
  | .reorder name members =>
      { m with world := m.world.updateRegistry name fun r => { r with members } }

/-- The run that takes the same turns and in which callbacks are mended. -/
def mended (m : Machine) (turns : Nat → Turn) (values : Nat → Option Value) : Nat → Machine
  | 0 => m
  | n + 1 => ((m.mended turns values n).take (turns n)).mend (values n)

/-- What the first run says in a turn and the second does not: the fault of a callback that was
mended in the second run. Nobody hears of it if the host is cut off. -/
def complaint (m m' : Machine) (turn : Turn) (key : Nat) : List Envelope :=
  match turn, m.failed?, m'.failed? with
  | .step, some (host, f), none =>
      if host = key then (m.world.host host).remark m.world.clock (.errorMessage f.render) .script
      else []
  | _, _, _ => []

variable {m m' : Machine}

theorem Next.turn (hnext : m.Next m') : ∃ turn, m' = m.take turn := by
  cases hnext with
  | step => exact ⟨.step, rfl⟩
  | interrupt hinterrupts =>
      cases hinterrupts with
      | chooses scope actions chosen rest hagenda => exact ⟨.choose chosen, by simp [take, hagenda]⟩
      | intrudes scope actions t rest hagenda hpauses _ =>
          exact ⟨.intrude scope actions, by simp [take, hagenda, hpauses]⟩
      | reorders name members _ => exact ⟨.reorder name members, rfl⟩

/-- A callback fails when its report comes up with a fault. -/
theorem failed?_eq_some {key : Nat} {f : ScriptFault} (hfailed : m.failed? = some (key, f)) :
    m.outcome = .faulted f ∧
      ∃ t rest, m.agenda = .report key :: t :: rest ∧ t.loops = true := by
  unfold failed? at hfailed
  split at hfailed
  · rename_i key' t rest f' hagenda houtcome
    split at hfailed
    · cases hfailed
      exact ⟨houtcome, t, rest, hagenda, ‹_›⟩
    · cases hfailed
  · cases hfailed

theorem failed?_returned (w : World) (v : Value) (agenda : List Task) :
    failed? ⟨w, .returned v, agenda⟩ = none := by
  unfold failed?
  split
  · rename_i houtcome
    cases houtcome
  · rfl

theorem step_failed {key : Nat} {f : ScriptFault}
    (hfailed : m.failed? = some (key, f)) : m.step.world = m.world.reportFault key f := by
  obtain ⟨houtcome, t, rest, hagenda, -⟩ := failed?_eq_some hfailed
  simp [step_world hagenda, Task.react, houtcome]

/-- To mend a callback that has thrown is to have it give a value there. -/
theorem step_mend {scope : Scope} {host key : Nat} {message : String} {actions : List Action}
    {t : Task} {rest : List Task} {v : Value} (hhost : scope.host = some host)
    (hagenda : m.agenda = .perform scope (.throw message :: actions) :: .report key :: t :: rest)
    (hloops : t.loops = true) (hcrashed : m.world.crashed = false) :
    m.step.mend (some v) = step { m with
      agenda := .perform scope (.give v :: actions) :: .report key :: t :: rest } := by
  simp [step, hagenda, Task.react, Task.performOne, hhost, hcrashed, mend, failed?, hloops]

/-! ### Turns of others -/

theorem failed?_congr (hagenda : m'.agenda = m.agenda) (houtcome : m'.outcome = m.outcome) :
    m'.failed? = m.failed? := by
  rw [failed?, failed?, hagenda, houtcome]

/-- Others leave the outcome alone, and the agenda too unless they have scripts do something. -/
theorem take_other {turn : Turn} (hother : turn ≠ .step) (m : Machine) :
    (m.take turn).outcome = m.outcome ∧ (∀ key, (m.take turn).world.said key = m.world.said key) ∧
      ((m.take turn).agenda = m.agenda ∨
        ∃ scope actions rest, (m.take turn).agenda = .perform scope actions :: rest) := by
  cases turn with
  | step => exact absurd rfl hother
  | choose actions =>
      simp only [take]
      split
      · exact ⟨rfl, fun _ => rfl, .inr ⟨_, _, _, rfl⟩⟩
      · exact ⟨rfl, fun _ => rfl, .inl rfl⟩
  | intrude scope actions =>
      simp only [take]
      split
      · exact ⟨rfl, fun _ => rfl, .inr ⟨_, _, _, rfl⟩⟩
      · exact ⟨rfl, fun _ => rfl, .inl rfl⟩
  | reorder name members => exact ⟨rfl, fun _ => rfl, .inl rfl⟩

/-- Nobody gets a turn between a callback and its report, except to look at registries. -/
theorem take_failed {turn : Turn} (hother : turn ≠ .step) (hfailed : m.failed?.isSome = true) :
    (m.take turn).failed? = m.failed? := by
  obtain ⟨⟨key, f⟩, hfailed⟩ := Option.isSome_iff_exists.mp hfailed
  obtain ⟨-, t, rest, hagenda, -⟩ := failed?_eq_some hfailed
  refine failed?_congr ?_ (take_other hother m).1
  cases turn with
  | step => exact absurd rfl hother
  | choose actions => simp only [take, hagenda]
  | intrude scope actions => simp [take, hagenda, Task.pauses]
  | reorder name members => rfl

/-! ### Two machines in step -/

/-- Two machines have the same to do, in worlds that are alike. They have found the same outcome,
unless nobody will read it, or it is the fault of a callback that was mended in the second one. -/
structure Paired (m m' : Machine) : Prop where
  agenda : m'.agenda = m.agenda
  alike : Alike m.world m'.world m.world m'.world
  outcome : m'.outcome = m.outcome ∨ Task.Deaf m.agenda ∨
    m.failed?.isSome = true ∧ m'.failed? = none

namespace Paired

variable (hpaired : m.Paired m')

include hpaired

theorem mend (value : Option Value) : m.Paired (m'.mend value) := by
  cases value with
  | none => exact hpaired
  | some v =>
      simp only [Machine.mend]
      split
      · rename_i hfailed'
        refine ⟨hpaired.agenda, hpaired.alike, .inr (.inr ⟨?_, ?_⟩)⟩
        · rcases hpaired.outcome with hsame | hdeaf | ⟨hfailed, -⟩
          · rwa [← failed?_congr hpaired.agenda hsame]
          · obtain ⟨⟨key, f⟩, hfailed'⟩ := Option.isSome_iff_exists.mp hfailed'
            obtain ⟨-, t, rest, hagenda, -⟩ := failed?_eq_some hfailed'
            rw [← hpaired.agenda, hagenda] at hdeaf
            cases hdeaf
          · exact hfailed
        · exact failed?_returned m'.world v m'.agenda
      · exact hpaired

/-- Both machines make a step in the same way, unless the outcome that they have found differs and
the next task reads it. -/
theorem step (hsound : m.Sound) (hheard : m'.outcome = m.outcome ∨ Task.Deaf m.agenda) :
    m.step.Paired m'.step ∧ Alike m.world m'.world m.step.world m'.step.world := by
  cases hagenda : m.agenda with
  | nil =>
      rw [step_nil hagenda, step_nil (hpaired.agenda.trans hagenda)]
      exact ⟨hpaired, hpaired.alike⟩
  | cons t rest =>
      have hagenda' := hpaired.agenda.trans hagenda
      rw [hagenda] at hheard
      obtain ⟨halike, hnext, houtcome⟩ :
          Task.ReactsAlike m.world m'.world rest (t.react m.world m.outcome)
            (t.react m'.world m'.outcome) :=
        Task.react_alike hpaired.alike hsound.linked.keys hheard
      rw [← step_world hagenda, ← step_world hagenda'] at halike
      refine ⟨⟨?_, halike.anew, ?_⟩, halike⟩
      · rw [step_agenda hagenda, step_agenda hagenda', hnext]
        simp only [halike.worlds]
      · rw [step_agenda hagenda]
        split
        · exact .inr (.inl trivial)
        · rcases houtcome with hsame | hdeaf
          · exact .inl (by simpa [Machine.step, hagenda, hagenda'] using hsame)
          · exact .inr (.inl hdeaf)

/-- Others do the same to both machines. -/
theorem other {turn : Turn} (hother : turn ≠ .step) : (m.take turn).Paired (m'.take turn) := by
  obtain ⟨hagenda, halike⟩ : (m'.take turn).agenda = (m.take turn).agenda ∧
      Alike m.world m'.world (m.take turn).world (m'.take turn).world := by
    cases turn with
    | step => exact absurd rfl hother
    | choose actions =>
        simp only [take, hpaired.agenda]
        split
        · exact ⟨rfl, hpaired.alike⟩
        · exact ⟨hpaired.agenda, hpaired.alike⟩
    | intrude scope actions =>
        simp only [take, hpaired.agenda]
        split
        · exact ⟨rfl, hpaired.alike⟩
        · exact ⟨hpaired.agenda, hpaired.alike⟩
    | reorder name members =>
        exact ⟨hpaired.agenda, hpaired.alike.updateRegistry name fun r => { r with members }⟩
  obtain ⟨houtcome, -, hsame | ⟨scope, actions, rest, hperform⟩⟩ := take_other hother m
  · have houtcome' := (take_other hother m').1
    have hsame' := hagenda.trans (hsame.trans hpaired.agenda.symm)
    refine ⟨hagenda, halike.anew, ?_⟩
    rw [houtcome, houtcome', hsame, failed?_congr hsame houtcome, failed?_congr hsame' houtcome']
    exact hpaired.outcome
  · -- a script that performs something makes an outcome of its own
    refine ⟨hagenda, halike.anew, .inr (.inl ?_)⟩
    rw [hperform]
    trivial

/-- A host reports the fault of a callback that was mended in the second machine. -/
theorem report (hsound : m.Sound) (hwired : m.world.Wired) (htidy : Task.Tidy m.agenda)
    {key : Nat} {f : ScriptFault} (hfailed : m.failed? = some (key, f))
    (hmended : m'.failed? = none) :
    m.step.world = m.world.reportFault key f ∧ m'.step.world = m'.world ∧
      m.step.Paired m'.step := by
  obtain ⟨houtcome, t, rest, hagenda, hloops⟩ := failed?_eq_some hfailed
  have hagenda' := hpaired.agenda.trans hagenda
  have hworld := step_failed hfailed
  have hreact' : (Task.report key).react m'.world m'.outcome = ⟨m'.world, m'.outcome, []⟩ := by
    simp only [Task.react]
    split
    · rename_i f' hfault
      simp [failed?, hagenda', hfault, hloops] at hmended
    · rfl
  have hworld' : m'.step.world = m'.world := by rw [step_world hagenda', hreact']
  have halike := hpaired.alike.complain hwired (hsound.head hagenda key rfl) f
  rw [hagenda] at htidy
  refine ⟨hworld, hworld', ⟨?_, by rwa [hworld, hworld'], .inr (.inl ?_)⟩⟩
  · rw [step_agenda hagenda, step_agenda hagenda', hworld, hworld', hreact']
    simp only [Task.react, houtcome, halike.worlds]
  · -- the loop goes on, and nobody reads the outcome before the loop makes another one
    rw [step_agenda hagenda]
    split
    · trivial
    · simp only [Task.react, houtcome]
      exact Task.deaf_of_loops hloops htidy.2.2

/-- Both machines take a turn. What they say is the same up to the complaint of the first one. -/
theorem take (hsound : m.Sound) (hwired : m.world.Wired) (htidy : Task.Tidy m.agenda)
    (turn : Turn) : (m.take turn).Paired (m'.take turn) ∧ ∀ key, ∃ news,
      (m.take turn).world.said key = m.world.said key ++ (news ++ complaint m m' turn key) ∧
      (m'.take turn).world.said key = m'.world.said key ++ news ∧
      (m.failed?.isSome = true → m'.failed? = none → news = []) := by
  by_cases hother : turn ≠ .step
  · have hsilent (key : Nat) : complaint m m' turn key = [] := by
      cases turn with
      | step => exact absurd rfl hother
      | choose _ | intrude _ _ | reorder _ _ => rfl
    refine ⟨hpaired.other hother, fun key => ⟨[], ?_, ?_, fun _ _ => rfl⟩⟩
    · rw [(take_other hother m).2.1, hsilent, List.append_nil, List.append_nil]
    · rw [(take_other hother m').2.1, List.append_nil]
  obtain rfl := not_not.mp hother
  by_cases hmends : m.failed?.isSome = true ∧ m'.failed? = none
  · obtain ⟨hfailed, hmended⟩ := hmends
    obtain ⟨⟨key, f⟩, hfailed⟩ := Option.isSome_iff_exists.mp hfailed
    obtain ⟨hworld, hworld', hstep⟩ := hpaired.report hsound hwired htidy hfailed hmended
    refine ⟨hstep, fun other => ⟨[], ?_, ?_, fun _ _ => rfl⟩⟩
    · simp only [Machine.take, hworld, reportFault, publish_said, complaint, hfailed, hmended,
        List.nil_append]
    · rw [Machine.take, hworld', List.append_nil]
  · have hheard : m'.outcome = m.outcome ∨ Task.Deaf m.agenda := by
      rcases hpaired.outcome with hsame | hdeaf | hmends'
      · exact .inl hsame
      · exact .inr hdeaf
      · exact absurd hmends' hmends
    obtain ⟨hstep, halike⟩ := hpaired.step hsound hheard
    refine ⟨hstep, fun key => ?_⟩
    have hsilent : complaint m m' .step key = [] := by
      unfold complaint
      split
      · rename_i hfailed hmended
        exact absurd ⟨by rw [hfailed]; rfl, hmended⟩ hmends
      · rfl
    obtain ⟨news, hsaid, hsaid'⟩ := halike.said key
    refine ⟨news, ?_, hsaid', fun hfailed hmended => absurd ⟨hfailed, hmended⟩ hmends⟩
    rw [hsilent, List.append_nil]
    exact hsaid

end Paired

/-! ### Whole runs -/

theorem Next.tidy (hnext : m.Next m') (htidy : Task.Tidy m.agenda) : Task.Tidy m'.agenda := by
  cases hnext with
  | step =>
      cases hagenda : m.agenda with
      | nil =>
          rw [step_nil hagenda, hagenda]
          trivial
      | cons t rest =>
          rw [hagenda] at htidy
          rw [step_agenda hagenda]
          split
          · trivial
          · exact Task.react_tidy m.world m.outcome htidy
  | interrupt hinterrupts =>
      cases hinterrupts with
      | chooses scope actions chosen rest hagenda =>
          rw [hagenda] at htidy
          exact .cons rfl rfl htidy.2.2
      | intrudes scope actions t rest hagenda _ _ =>
          rw [hagenda] at htidy
          exact .cons rfl rfl htidy
      | reorders name members _ => exact htidy

end Machine

namespace Behavior

variable {σ : Nat → Machine} (hσ : Behavior σ)

include hσ

theorem tidy (n : Nat) : Task.Tidy (σ n).agenda := by
  induction n with
  | zero =>
      obtain ⟨disk, remote, programs, functions, network, actions, hstart⟩ := hσ.starts
      rw [hstart]
      exact .cons rfl rfl trivial
  | succ n ih => exact (hσ.next n).tidy ih

/-- Every callback returns to a loop, and the host looks at its outcome in between. -/
theorem reports {n key : Nat} {callback : Callback} {args : List Value} {rest : List Task}
    (hagenda : (σ n).agenda = .call key callback args :: rest) : Task.Reports key rest := by
  have htidy := hσ.tidy n
  rw [hagenda] at htidy
  exact htidy.2.1 key rfl

end Behavior

/-! ### Two runs -/

namespace Machine

/-- Two machines that cannot be told apart, except by what was said: the same is to be done next, it
is the same time, the same was done and sent so far, hosts have the same timers, signals, streamers
and flags, and on the buses of the second one some error messages may be missing. -/
structure InStep (m m' : Machine) : Prop where
  agenda : m'.agenda = m.agenda
  clock : m'.world.clock = m.world.clock
  journal : m'.world.journal.map Entry.hushed = m.world.journal.map Entry.hushed
  hosts : ∀ key, (m'.world.host key).hushed = (m.world.host key).hushed
  world : m'.world.hushed = m.world.hushed
  aired : ∀ bus, Thins (m.world.aired bus) (m'.world.aired bus)

/-- The faults of callbacks change nothing in a run but what hosts say. -/
structure OnlyComplains (σ σ' : Nat → Machine) (turns : Nat → Turn) : Prop where
  inStep : ∀ n, (σ n).InStep (σ' n)
  /-- Turn by turn both runs say the same, but for the complaints about callbacks that were mended
  in the second one. Nothing else is said while such a complaint is due. -/
  said : ∃ news : Nat → Nat → List Envelope,
    (∀ n key,
      (σ n).world.said key =
        (List.range n).flatMap (fun i => news i key ++ complaint (σ i) (σ' i) (turns i) key) ∧
      (σ' n).world.said key = (List.range n).flatMap (news · key)) ∧
    ∀ n key, (σ n).failed?.isSome = true → (σ' n).failed? = none → news n key = []
  /-- When a callback has returned a fault, the next step reports it. -/
  prompt : ∀ n key f, (σ n).failed? = some (key, f) →
    turns n = .step ∧ (σ (n + 1)).world = (σ n).world.reportFault key f ∨
    turns n ≠ .step ∧ (σ (n + 1)).failed? = some (key, f) ∧
      ∀ other, (σ (n + 1)).world.said other = (σ n).world.said other

theorem Paired.inStep {m m' : Machine} (hpaired : m.Paired m') : m.InStep m' where
  agenda := hpaired.agenda
  clock := by simp only [hpaired.alike.worlds]
  journal := by simp only [hpaired.alike.worlds]
  hosts key := hpaired.alike.host key
  world := hpaired.alike.hushed
  aired := hpaired.alike.aired

theorem mend_world (m : Machine) (value : Option Value) : (m.mend value).world = m.world := by
  cases value with
  | none => rfl
  | some v =>
      simp only [mend]
      split <;> rfl

end Machine

open Machine

namespace Behavior

variable {σ : Nat → Machine} (hσ : Behavior σ)

include hσ in
theorem exists_turns : ∃ turns : Nat → Turn, ∀ n, σ (n + 1) = (σ n).take (turns n) :=
  Classical.axiomOfChoice fun n => (hσ.next n).turn

variable {turns : Nat → Turn}
  (hturns : ∀ n, σ (n + 1) = (σ n).take (turns n)) (values : Nat → Option Value)

include hσ hturns

theorem paired (n : Nat) : (σ n).Paired ((σ 0).mended turns values n) := by
  induction n with
  | zero => exact ⟨rfl, (hσ.wired 0).alike, .inl rfl⟩
  | succ n ih =>
      rw [hturns, mended]
      exact ((ih.take (hσ.sound n) (hσ.wired n) (hσ.tidy n) (turns n)).1).mend (values n)

theorem faults_only_complain : OnlyComplains σ ((σ 0).mended turns values) turns where
  inStep n := (hσ.paired hturns values n).inStep
  said := by
    have hturn (n key : Nat) := ((hσ.paired hturns values n).take (hσ.sound n) (hσ.wired n)
      (hσ.tidy n) (turns n)).2 key
    choose news hsaid hsaid' hnone using hturn
    refine ⟨news, fun n key => ?_, hnone⟩
    induction n with
    | zero =>
        obtain ⟨disk, remote, programs, functions, network, actions, hstart⟩ := hσ.starts
        rw [mended, hstart]
        exact ⟨rfl, rfl⟩
    | succ n ih =>
        rw [List.range_succ, List.flatMap_append, List.flatMap_append, ← ih.1, ← ih.2,
          List.flatMap_singleton, List.flatMap_singleton, hturns, mended, World.said, mend_world]
        exact ⟨hsaid n key, hsaid' n key⟩
  prompt n key f hfailed := by
    rw [hturns]
    by_cases hother : turns n = .step
    · rw [hother]
      exact .inl ⟨rfl, step_failed hfailed⟩
    · refine .inr ⟨hother, ?_, (take_other hother (σ n)).2.1⟩
      rw [take_failed hother (by rw [hfailed]; rfl), hfailed]

end Behavior

/-- A host whose only callback prints and then throws, at the end of the run. -/
def Machine.spoiled : Machine :=
  .start (.start default [] [("body", [.inScript none (.connect .scriptEnding
      (.native [.inScript none (.print "bye"), .throw "oops"]))])] [] default)
    [.build ⟨"h", "body", "h.js", none, .standard, "", none, none, false, none, false, 1⟩ [],
      .onHost (some "h") .run]

theorem Machine.spoiled_behavior : Behavior spoiled.trace :=
  trace_behavior ..

/-- The host complains right after the callback, and everything else is the same in the run in which
the callback returns a value. -/
theorem spoiled_complains :
    (spoiled.trace 31).failed?.isSome = true ∧ ((spoiled.trace 31).world.said 0).length = 6 ∧
    ((spoiled.trace 32).world.said 0).length = 7 ∧
    OnlyComplains spoiled.trace (spoiled.mended (fun _ => .step) fun _ => some .undefined)
      (fun _ => .step) ∧
    ((spoiled.mended (fun _ => .step) (fun _ => some .undefined) 32).world.said 0).length = 6 := by
  have hturns : ∀ n, spoiled.trace (n + 1) = (spoiled.trace n).take .step := trace_succ spoiled
  exact ⟨by decide +kernel, by decide +kernel, by decide +kernel,
    spoiled_behavior.faults_only_complain hturns _, by decide +kernel⟩

/-- A host that cuts itself off with a stop-all call, and whose last callback throws afterwards. -/
def Machine.stifled : Machine :=
  .start (.start default [] [("body",
      [.inScript none (.connect .update (.native [.onWorld (.poll "j")])),
        .inScript none (.connect .scriptEnding (.native [.throw "oops"])),
        .onWorld (.stopAll "" "j")])] [] default)
    [.build ⟨"h", "body", "h.js", none, .standard, "", none, none, false, none, false, 5⟩ [],
      .onHost (some "h") .run]

/-- Not every fault of a callback is heard of. -/
theorem not_always_complains : ¬ ∀ (σ : Nat → Machine) (turns : Nat → Turn)
    (values : Nat → Option Value), Behavior σ → (∀ n, σ (n + 1) = (σ n).take (turns n)) →
    ∀ n key f, (σ n).failed? = some (key, f) →
      ((σ 0).mended turns values n).failed? = none → turns n = .step →
      ∃ news e, e.event = .errorMessage f.render ∧
        (σ (n + 1)).world.said key = (σ n).world.said key ++ (news ++ [e]) ∧
        ((σ 0).mended turns values (n + 1)).world.said key =
          ((σ 0).mended turns values n).world.said key ++ news := by
  intro hcomplains
  obtain ⟨f, hfailed⟩ : ∃ f, (stifled.trace 37).failed? = some (0, f) := by
    have hhost : (stifled.trace 37).failed?.map Prod.fst = some 0 := by decide +kernel
    obtain ⟨⟨key, f⟩, hfailed, rfl⟩ := Option.map_eq_some_iff.mp hhost
    exact ⟨f, hfailed⟩
  have hmended : (stifled.mended (fun _ => .step) (fun _ => some .undefined) 37).failed? = none :=
    Option.isNone_iff_eq_none.mp (by decide +kernel)
  obtain ⟨news, e, -, hsaid, -⟩ := hcomplains stifled.trace (fun _ => .step)
    (fun _ => some .undefined) (trace_behavior ..) (trace_succ stifled) 37 0 f hfailed hmended rfl
  have hsilent : ((stifled.trace 38).world.said 0).length =
      ((stifled.trace 37).world.said 0).length := by decide +kernel
  rw [hsaid, List.length_append, List.length_append, List.length_singleton] at hsilent
  omega

end TickHost
