import TickHost.Proofs.Evaluations
import TickHost.Proofs.Programs

/-!
How the machine evaluates directives. The lines of a program come up one after the other, up to the
first that faults, whatever others do meanwhile and whatever happens above an include; then the
evaluation leaves the script engine with the outcome of the last of them. If nobody interrupts, what
happens to the world is exactly what the program does.
-/

namespace TickHost

open World Machine

variable {key : Nat} {w w' : World}

/-! ### The machine carries it out -/

/-- A machine that nobody interrupts gets from here to there. -/
def Machine.Reaches (m m' : Machine) : Prop :=
  ∃ n, m.trace n = m'

namespace Machine.Reaches

variable {m m' m'' : Machine}

theorem trans (h : m.Reaches m') (h' : m'.Reaches m'') : m.Reaches m'' := by
  obtain ⟨n, rfl⟩ := h
  obtain ⟨k, rfl⟩ := h'
  refine ⟨n + k, ?_⟩
  induction k with
  | zero => rfl
  | succ k ih => rw [← Nat.add_assoc, trace_succ, ih, trace_succ]

/-- One task after the other. -/
theorem head {o : Outcome} {t : Task} {rest : List Task} {r : Reaction}
    (hreact : t.react w o = r) (hcrashed : r.world.crashed = false)
    (hrest : Reaches ⟨r.world, r.outcome, r.next ++ rest⟩ m') :
    Reaches ⟨w, o, t :: rest⟩ m' := by
  subst hreact
  exact trans ⟨1, trace_react (n := 0) rfl rfl hcrashed⟩ hrest

theorem refl (m : Machine) : m.Reaches m := ⟨0, rfl⟩

end Machine.Reaches

namespace Task

variable {o : Outcome} {origin : String} {text : List Char} {line : Nat}

theorem runDirective_ending (w : World) (key : Nat) (origin : String) (line : Nat)
    (text : List Char) :
    (runDirective w key origin line text).outcome = Directive.ending origin (line, text) := by
  cases hread : Directive.read text with
  | error message => simp [runDirective, Directive.ending, Directive.fault?, hread]
  | ok directive =>
      cases directive with
      | includeAll references =>
          cases hstopping : w.isStopping key <;>
            simp [runDirective, Directive.ending, Directive.fault?, Directive.result, hread,
              hstopping]
      | _ =>
          simp [runDirective, Directive.ending, Directive.fault?, Directive.result, hread]

/-- A directive leaves something to do if it asks for texts and waits for them. -/
theorem runDirective_next (w : World) (key : Nat) (origin : String) (line : Nat)
    (text : List Char) :
    ((runDirective w key origin line text).next = [] ∧
        (w.surroundings key).treatments text = []) ∨
      ∃ urls results, (runDirective w key origin line text).next =
          [batch key urls results, give .undefined] ∧
        (w.surroundings key).treatments text = urls.map results.treatment ∧
        w.isStopping key = false ∧ Directive.fault? text = none ∧
        Directive.result text = .undefined := by
  cases hread : Directive.read text with
  | error message => simp [runDirective, hread, Surroundings.treatments, Surroundings.asks]
  | ok directive =>
      cases directive with
      | includeAll references =>
          cases hstopping : w.isStopping key with
          | true =>
              left
              simp [runDirective, hread, hstopping, Surroundings.treatments, Surroundings.asks,
                surroundings]
          | false =>
              right
              rw [runDirective_include hread hstopping]
              refine ⟨_, _, rfl, ?_, rfl, by simp [Directive.fault?, hread],
                by simp [Directive.result, hread]⟩
              rw [fetchNow_results, resolveAll_surroundings, resolveAll_urls,
                Surroundings.treatments, asks_include w key hread hstopping]
      | _ => simp [runDirective, hread, Surroundings.treatments, Surroundings.asks]

variable {x : Nat × List Char} {lines : List (Nat × List Char)}

theorem runDirectives_fault (w : World) (key : Nat) (o : Outcome) {origin message : String}
    (hfault : Directive.fault? x.2 = some message) :
    runDirectives w o key origin (x :: lines) = runDirective w key origin x.1 x.2 := by
  have hending := runDirective_ending w key origin x.1 x.2
  rw [Directive.ending, hfault] at hending
  simp [runDirectives, hending]

theorem runDirectives_sound (w : World) (key : Nat) (o : Outcome) {origin : String}
    (hsound : Directive.fault? x.2 = none) :
    runDirectives w o key origin (x :: lines) = { runDirective w key origin x.1 x.2 with
      next := (runDirective w key origin x.1 x.2).next ++ [directives key origin lines] } := by
  have hending := runDirective_ending w key origin x.1 x.2
  rw [Directive.ending, hsound] at hending
  simp [runDirectives, hending]

section

variable (w : World) (key : Nat) (o : Outcome) (origin : String) (x : Nat × List Char)
  (lines : List (Nat × List Char))

theorem runDirectives_world : (runDirectives w o key origin (x :: lines)).world =
    (runDirective w key origin x.1 x.2).world := by
  cases hfault : Directive.fault? x.2 with
  | none => rw [runDirectives_sound w key o hfault]
  | some message => rw [runDirectives_fault w key o hfault]

theorem runDirectives_outcome :
    (runDirectives w o key origin (x :: lines)).outcome = Directive.ending origin x := by
  rw [← runDirective_ending w key origin x.1 x.2]
  cases hfault : Directive.fault? x.2 with
  | none => rw [runDirectives_sound w key o hfault]
  | some message => rw [runDirectives_fault w key o hfault]

/-- After a fault nothing is left to do. -/
theorem runDirectives_next_fault {message : String} (hfault : Directive.fault? x.2 = some message) :
    (w.surroundings key).treatments x.2 = [] ∧
      (runDirectives w o key origin (x :: lines)).next = [] := by
  rw [runDirectives_fault w key o hfault]
  rcases runDirective_next w key origin x.1 x.2 with ⟨hnone, hnothing⟩ |
    ⟨_, _, -, -, -, hsound, -⟩
  · exact ⟨hnothing, hnone⟩
  · cases hfault.symm.trans hsound

/-- After a line that is sound the other lines are left, below what the line has asked for. -/
theorem runDirectives_next_sound (hsound : Directive.fault? x.2 = none) :
    (w.surroundings key).treatments x.2 = [] ∧
        (runDirectives w o key origin (x :: lines)).next = [directives key origin lines] ∨
      w.isStopping key = false ∧ Directive.ending origin x = .returned .undefined ∧
        ∃ urls results, (w.surroundings key).treatments x.2 = urls.map results.treatment ∧
          (runDirectives w o key origin (x :: lines)).next =
            [batch key urls results, give .undefined, directives key origin lines] := by
  rw [runDirectives_sound w key o hsound]
  rcases runDirective_next w key origin x.1 x.2 with ⟨hnone, hnothing⟩ |
    ⟨urls, results, hbatch, hcame, hopen, -, hresult⟩
  · exact .inl ⟨hnothing, by rw [hnone]; rfl⟩
  · refine .inr ⟨hopen, ?_, urls, results, hcame, by rw [hbatch]; rfl⟩
    rw [Directive.ending, hsound, hresult]

end

variable {results : FetchResults} {url : Url} {urls : List Url}

theorem runBatch_reported (o : Outcome) (h : results.treatment url = .reported origin) :
    runBatch w o key results (url :: urls) =
      ⟨w.publish key (.errorLoadingScript origin) .loader, o, [batch key urls results]⟩ := by
  unfold FetchResults.treatment at h
  split at h
  · cases h
  · cases h
    simp only [runBatch]

theorem runBatch_evaluated (o : Outcome) {contents : String}
    (h : results.treatment url = .evaluated contents origin line) :
    runBatch w o key results (url :: urls) =
      ⟨w, o, [evaluate key contents origin line, batch key urls results]⟩ := by
  unfold FetchResults.treatment at h
  split at h
  · rename_i hresult
    cases h
    simp [runBatch, hresult]
  · cases h

end Task

/-- The machine does what an errand does: what was to be done is done, and nothing else is. -/
def Errand.Carried (key : Nat) (w w' : World) : Errand → Prop
  | run origin ran => ∀ lines o rest, Directive.ran lines = ran →
      Reaches ⟨w, o, .directives key origin lines :: rest⟩
        ⟨w', Directive.endingAfter o origin ran, rest⟩
  | treat batch => ∀ urls results o rest, w.isStopping key = false →
      batch = urls.map (FetchResults.treatment results) →
      ∃ o', Reaches ⟨w, o, .batch key urls results :: rest⟩ ⟨w', o', rest⟩

namespace World

/-- Directives are carried out for a host. -/
structure Serves (w : World) (key : Nat) : Prop where
  directives : (w.surroundings key).directives = true
  uncrashed : w.crashed = false

theorem Serves.of (hserves : w.Serves key) (hsame : w'.surroundings key = w.surroundings key) :
    w'.Serves key where
  directives := hsame ▸ hserves.directives
  uncrashed := (congrArg Surroundings.crashed hsame).trans hserves.uncrashed

end World

/-- The machine enters an evaluation of a program and comes to its lines. -/
theorem reaches_lines (hserves : w.Serves key) (hopen : w.isStopping key = false)
    (program origin : String) (line : Nat) (o : Outcome) (rest : List Task) {m : Machine}
    (hlines : Reaches ⟨(w.setUp key).enter key, .returned .undefined,
      .directives key origin (Directive.linesOf program line) :: .announce key :: rest⟩ m) :
    Reaches ⟨w, o, .evaluate key program origin line :: rest⟩ m := by
  have hset : Task.react w o (.initialise key) = ⟨w.setUp key, o, []⟩ := by
    have hdirectives : (w.host key).directives = true := hserves.directives
    cases hready : (w.host key).initialized <;>
      simp [Task.react, setUp, updateHost, hready, hdirectives]
  have hdirectives : ((w.setUp key).host key).directives = true :=
    (congrArg Surroundings.directives (setUp_surroundings w key)).trans hserves.directives
  have hsetCrashed : (w.setUp key).crashed = false :=
    (congrArg Surroundings.crashed (setUp_surroundings w key)).trans hserves.uncrashed
  refine .head (r := ⟨w, o, [.initialise key, .engine key program origin line, .announce key]⟩)
    (by simp [Task.react, hopen]) hserves.uncrashed ?_
  refine .head hset hsetCrashed ?_
  refine .head (r := ⟨(w.setUp key).enter key, .returned .undefined,
    [.directives key origin (Directive.linesOf program line)]⟩) ?_ hsetCrashed hlines
  simp [Task.react, Task.enterEngine, hdirectives, enter, updateHost]

/-- The machine announces the outcome of an evaluation. -/
theorem reaches_announce {o : Outcome} {rest : List Task} {m : Machine}
    (hcrashed : (Task.announceOutcome w o key).crashed = false)
    (hrest : Reaches ⟨Task.announceOutcome w o key, o, rest⟩ m) :
    Reaches ⟨w, o, .announce key :: rest⟩ m :=
  .head rfl hcrashed hrest

theorem Does.serves {errand : Errand} (hdoes : Does key errand w w') (hserves : w.Serves key) :
    w'.Serves key :=
  hserves.of hdoes.surroundings

theorem isStopping_of_surroundings (hsame : w'.surroundings key = w.surroundings key) :
    w'.isStopping key = w.isStopping key :=
  congrArg Surroundings.stopping hsame

/-- A line is carried out if what came for it and the lines after it are. -/
theorem Errand.Carried.line {w₁ w₂ : World} {origin : String} {x : Nat × List Char}
    {run : List (Nat × List Char)} (hserves : w.Serves key)
    (htreat : Does key (.treat ((w.surroundings key).treatments x.2))
      (Task.runDirective w key origin x.1 x.2).world w₁)
    (htreated : (Errand.treat ((w.surroundings key).treatments x.2)).Carried key
      (Task.runDirective w key origin x.1 x.2).world w₁)
    (hrest : Does key (.run origin run) w₁ w₂)
    (hcarried : (Errand.run origin run).Carried key w₁ w₂) :
    (Errand.run origin (x :: run)).Carried key w w₂ := by
  intro lines o rest hran
  have hsame := runDirective_surroundings w key origin x.1 x.2
  have hline := hserves.of hsame
  obtain ⟨more, rfl, hmore⟩ := Directive.ran_eq_cons hran
  have hfirst : Reaches ⟨(Task.runDirective w key origin x.1 x.2).world, Directive.ending origin x,
      (Task.runDirectives w o key origin (x :: more)).next ++ rest⟩
      ⟨w₂, Directive.endingAfter (Directive.ending origin x) origin run, rest⟩ := by
    rcases hmore with ⟨⟨message, hfault⟩, rfl⟩ | ⟨hsound, hmore⟩
    · obtain ⟨hnone, hnext⟩ := Task.runDirectives_next_fault w key o origin x more hfault
      rw [hnone] at htreat
      cases htreat
      cases hrest
      rw [hnext]
      exact .refl _
    · rcases Task.runDirectives_next_sound w key o origin x more hsound with ⟨hnone, hnext⟩ |
        ⟨hopen, hvalue, urls, results, hbatch, hnext⟩
      · rw [hnone] at htreat
        cases htreat
        rw [hnext]
        exact hcarried more _ rest hmore
      · obtain ⟨o', hover⟩ := htreated urls results (Directive.ending origin x)
          (.give .undefined :: .directives key origin more :: rest)
          ((isStopping_of_surroundings hsame).trans hopen) hbatch
        rw [hnext]
        refine .trans hover (.head rfl (htreat.serves hline).uncrashed ?_)
        rw [hvalue]
        exact hcarried more _ rest hmore
  rw [Directive.endingAfter_cons]
  refine .head (r := Task.runDirectives w o key origin (x :: more)) rfl ?_ ?_
  · rw [Task.runDirectives_world]
    exact hline.uncrashed
  · rw [Task.runDirectives_world, Task.runDirectives_outcome]
    exact hfirst

/-- An included text is carried out if its lines and the rest of the batch are: it is entered and
announced in between. -/
theorem Errand.Carried.evaluated {w₁ w₂ : World} {text origin : String} {line : Nat}
    {batch : List Treatment} (hserves : w.Serves key)
    (hruns : Does key (.run origin (Directive.ran (Directive.linesOf text line)))
      ((w.setUp key).enter key) w₁)
    (hran : (Errand.run origin (Directive.ran (Directive.linesOf text line))).Carried key
      ((w.setUp key).enter key) w₁)
    (hcarried : (Errand.treat batch).Carried key (Task.announceOutcome w₁
      (Directive.outcome origin (Directive.ran (Directive.linesOf text line))) key) w₂) :
    (Errand.treat (.evaluated text origin line :: batch)).Carried key w w₂ := by
  intro urls results o rest hopen hbatch
  obtain ⟨url, urls, rfl, htreatment, rfl⟩ := List.map_eq_cons_iff.mp hbatch.symm
  have hsame : (Task.announceOutcome w₁ (Directive.outcome origin
      (Directive.ran (Directive.linesOf text line))) key).surroundings key =
        w.surroundings key := by
    rw [announceOutcome_surroundings, hruns.surroundings, enter_surroundings, setUp_surroundings]
  obtain ⟨o', htreated⟩ := hcarried urls results
    (Directive.outcome origin (Directive.ran (Directive.linesOf text line))) rest
    ((isStopping_of_surroundings hsame).trans hopen) rfl
  refine ⟨o', .head (Task.runBatch_evaluated o htreatment) hserves.uncrashed
    (reaches_lines hserves hopen text origin line o _ ?_)⟩
  exact .trans (hran _ _ _ rfl) (reaches_announce (hserves.of hsame).uncrashed htreated)

/-- The machine carries out what an errand does. -/
theorem Does.carried {errand : Errand} (hdoes : Does key errand w w') (hserves : w.Serves key) :
    errand.Carried key w w' := by
  induction hdoes with
  | ended =>
      intro lines o rest hran
      obtain rfl := Directive.ran_eq_nil hran
      exact .head rfl hserves.uncrashed (.refl _)
  | @line w w₁ w₂ origin x run htreat hrest ihtreat ihrest =>
      have hline := hserves.of (runDirective_surroundings w key origin x.1 x.2)
      exact .line hserves htreat (ihtreat hline) hrest (ihrest (htreat.serves hline))
  | treated =>
      intro urls results o rest hopen hbatch
      obtain rfl := List.map_eq_nil_iff.mp hbatch.symm
      exact ⟨o, .head rfl hserves.uncrashed (.refl _)⟩
  | @reported w w₁ origin batch hrest ihrest =>
      intro urls results o rest hopen hbatch
      obtain ⟨url, urls, rfl, htreatment, rfl⟩ := List.map_eq_cons_iff.mp hbatch.symm
      have hsame := publish_surroundings w key (.errorLoadingScript origin) .loader
      obtain ⟨o', htreated⟩ := ihrest (hserves.of hsame) urls results o rest
        ((isStopping_of_surroundings hsame).trans hopen) rfl
      exact ⟨o', .head (Task.runBatch_reported o htreatment) (hserves.of hsame).uncrashed htreated⟩
  | @evaluated w w₁ w₂ text origin line batch hruns hrest ihruns ihrest =>
      have hbegin : ((w.setUp key).enter key).Serves key := hserves.of (by simp)
      have hover := (hruns.serves hbegin).of (announceOutcome_surroundings w₁ key
        (Directive.outcome origin (Directive.ran (Directive.linesOf text line))))
      exact .evaluated hserves hruns (ihruns hbegin) (ihrest hover)

/-! ### Whatever others do -/

/-- In step `i` an evaluation runs a line, and nothing but the directive has an effect. -/
structure RunsLine (σ : Nat → Machine) (key : Nat) (origin : String) (rest : List Task) (i : Nat)
    (x : Nat × List Char) : Prop where
  executes : ∃ left, Executes σ i (.directives key origin (x :: left)) rest
  effect : (σ (i + 1)).world = (Task.runDirective (σ i).world key origin x.1 x.2).world

/-- How far an evaluation is before step `m` whose lines have come up at moment `a`. -/
inductive Advances (σ : Nat → Machine) (key : Nat) (origin : String)
    (lines : List (Nat × List Char)) (rest : List Task) (a m : Nat) : Prop where
  /-- Some lines were run, and the others wait. -/
  | underway (done left : List (Nat × List Char))
      (hlist : Directive.ran lines = done ++ Directive.ran left)
      (hwaits : .directives key origin left :: rest <:+ (σ m).agenda)
      (hlog : Log (RunsLine σ key origin rest) a m done)
  /-- All lines up to the first that faults were run, and the evaluation has left the script engine
  with the outcome of the last of them. -/
  | through (j : Nat) (haj : a ≤ j) (hj : j < m)
      (hends : Exits σ rest j (Directive.outcome origin (Directive.ran lines)))
      (hlog : Log (RunsLine σ key origin rest) a (j + 1) (Directive.ran lines))

/-- The lines of an evaluation are to be run next, after some outcome, or they wait below something
that a line has asked for. -/
def Machine.Lines (m : Machine) (key : Nat) (origin : String) (left : List (Nat × List Char))
    (rest : List Task) (o : Outcome) : Prop :=
  m.agenda = .directives key origin left :: rest ∧ m.outcome = o ∨
    o = .returned .undefined ∧
      .give .undefined :: .directives key origin left :: rest <:+ m.agenda

theorem Machine.Lines.suffix {m : Machine} {origin : String} {left : List (Nat × List Char)}
    {rest : List Task} {o : Outcome} (hlines : m.Lines key origin left rest o) :
    .directives key origin left :: rest <:+ m.agenda := by
  rcases hlines with ⟨hagenda, -⟩ | ⟨-, hwaits⟩
  · exact Task.suffix_of_eq hagenda
  · exact (List.suffix_cons _ _).trans hwaits

section Lines

variable {σ : Nat → Machine} {origin : String} {left : List (Nat × List Char)}
  {rest : List Task} {o : Outcome} {i : Nat} {x y : Nat × List Char}

theorem RunsLine.unique (h : RunsLine σ key origin rest i x)
    (h' : RunsLine σ key origin rest i y) : x = y := by
  obtain ⟨left, hexec⟩ := h.executes
  obtain ⟨left', hexec'⟩ := h'.executes
  cases (hexec.unique hexec').1
  rfl

/-- A line that is run is the first of those that are left. -/
theorem RunsLine.first (h : RunsLine σ key origin rest i x)
    (hlines : (σ i).Lines key origin left rest o) :
    σ (i + 1) = (σ i).step ∧ (σ i).agenda = .directives key origin left :: rest ∧
      left.head? = some x := by
  obtain ⟨more, hexec⟩ := h.executes
  rcases hlines with ⟨hagenda, -⟩ | ⟨-, hwaits⟩
  · cases hagenda.symm.trans hexec.agenda
    exact ⟨hexec.step, hagenda, rfl⟩
  · -- the lines that wait are not on top
    rw [hexec.agenda] at hwaits
    have hlength := hwaits.length_le
    simp only [List.length_cons] at hlength
    omega

/-- The step in which a line is run. -/
theorem RunsLine.of_executes (hexec : Executes σ i (.directives key origin (x :: left)) rest) :
    RunsLine σ key origin rest i x where
  executes := ⟨left, hexec⟩
  effect := (Behavior.world_after hexec).trans
    (Task.runDirectives_world (σ i).world key (σ i).outcome origin x left)

/-- After a line that is sound the other lines are to be run, or they wait for what the line has
asked for; after a fault the evaluation is over. -/
theorem RunsLine.turn (hexec : Executes σ i (.directives key origin (x :: left)) rest)
    (hcrashed : (σ (i + 1)).world.crashed = false) :
    Directive.fault? x.2 = none ∧
        (σ (i + 1)).Lines key origin left rest (Directive.ending origin x) ∨
      (∃ message, Directive.fault? x.2 = some message) ∧
        Exits σ rest i (Directive.ending origin x) := by
  have hagenda := Behavior.after hexec hcrashed
  have houtcome := (Behavior.outcome_after hexec).trans
    (Task.runDirectives_outcome (σ i).world key (σ i).outcome origin x left)
  cases hfault : Directive.fault? x.2 with
  | some message =>
      have hnext := (Task.runDirectives_next_fault (σ i).world key (σ i).outcome origin x left
        hfault).2
      exact .inr ⟨⟨message, rfl⟩, _, hexec, hnext,
        (Behavior.outcome_after hexec).symm.trans houtcome⟩
  | none =>
      refine .inl ⟨rfl, ?_⟩
      rcases Task.runDirectives_next_sound (σ i).world key (σ i).outcome origin x left hfault with
        ⟨-, hnext⟩ | ⟨-, hvalue, urls, results, -, hnext⟩
      · exact .inl ⟨hagenda.trans (congrArg (· ++ rest) hnext), houtcome⟩
      · refine .inr ⟨hvalue, ?_⟩
        rw [hagenda.trans (congrArg (· ++ rest) hnext)]
        exact List.suffix_cons _ _

/-- What one step does for the lines of an evaluation: none is run, the next one is, or the
evaluation is over. -/
theorem lines_step (hnext : (σ i).Next (σ (i + 1)))
    (hcrashed : (σ (i + 1)).world.crashed = false)
    (hlines : (σ i).Lines key origin left rest o) :
    (σ (i + 1)).Lines key origin left rest o ∧ (∀ x, ¬ RunsLine σ key origin rest i x) ∨
      (∃ x more, left = x :: more ∧ RunsLine σ key origin rest i x ∧
        (Directive.fault? x.2 = none ∧
            (σ (i + 1)).Lines key origin more rest (Directive.ending origin x) ∨
          (∃ message, Directive.fault? x.2 = some message) ∧
            Exits σ rest i (Directive.ending origin x))) ∨
      left = [] ∧ Exits σ rest i o ∧ (∀ x, ¬ RunsLine σ key origin rest i x) := by
  by_cases hstep : σ (i + 1) = (σ i).step
  · rcases id hlines with ⟨hagenda, rfl⟩ | ⟨rfl, hwaits⟩
    · have hexec : Executes σ i (.directives key origin left) rest := ⟨hagenda, hstep⟩
      cases left with
      | nil =>
          refine .inr (.inr ⟨rfl, ⟨_, hexec, rfl, rfl⟩, fun x hruns => ?_⟩)
          cases (hruns.first hlines).2.2
      | cons x more => exact .inr (.inl ⟨x, more, rfl, .of_executes hexec,
          RunsLine.turn hexec hcrashed⟩)
    · have hnone : ∀ x, ¬ RunsLine σ key origin rest i x := fun x hruns => by
        rw [(hruns.first hlines).2.1] at hwaits
        exact Task.not_suffix_self hwaits
      refine .inl ⟨?_, hnone⟩
      rcases hnext.suffix rfl hcrashed hwaits with ⟨hagenda, -⟩ | hstays
      · have hexec : Executes σ i (.give .undefined) (.directives key origin left :: rest) :=
          ⟨hagenda, hstep⟩
        exact .inl ⟨Behavior.after hexec hcrashed, Behavior.outcome_after hexec⟩
      · exact .inr ⟨rfl, hstays⟩
  · refine .inl ⟨?_, fun x hruns => hstep (hruns.first hlines).1⟩
    rcases hlines with ⟨hagenda, rfl⟩ | ⟨rfl, hwaits⟩
    · rcases hnext.stuck rfl rfl hagenda with hsame | ⟨hstuck, -⟩
      · exact absurd hsame hstep
      · have hinterrupts : Interrupts (σ i) (σ (i + 1)) := by
          generalize hm : σ (i + 1) = m' at hnext hstep
          cases hnext with
          | step => exact absurd rfl hstep
          | interrupt hinterrupts => exact hinterrupts
        exact .inl ⟨hstuck.trans hagenda, hinterrupts.outcome⟩
    · rcases hnext.suffix rfl hcrashed hwaits with ⟨-, hsame⟩ | hstays
      · exact absurd hsame hstep
      · exact .inr ⟨rfl, hstays⟩

end Lines

namespace Behavior

variable {σ : Nat → Machine} (hσ : Behavior σ) {origin : String}
  {lines : List (Nat × List Char)} {rest : List Task} {a m : Nat}

include hσ

/-- The lines of an evaluation are run in their order, up to the first that faults. -/
theorem advances (ham : a ≤ m) (hagenda : (σ a).agenda = .directives key origin lines :: rest)
    (houtcome : (σ a).outcome = .returned .undefined) (hcrashed : (σ m).world.crashed = false) :
    Advances σ key origin lines rest a m := by
  have hinvariant : (∃ done left, Directive.ran lines = done ++ Directive.ran left ∧
      (σ m).Lines key origin left rest (Directive.outcome origin done) ∧
      Log (RunsLine σ key origin rest) a m done) ∨
      ∃ j, a ≤ j ∧ j < m ∧ Exits σ rest j (Directive.outcome origin (Directive.ran lines)) ∧
        Log (RunsLine σ key origin rest) a (j + 1) (Directive.ran lines) := by
    induction ham with
    | refl => exact .inl ⟨[], lines, rfl, .inl ⟨hagenda, houtcome⟩, .start⟩
    | @step m ham ih =>
        rcases ih (hσ.uncrashed (Nat.le_succ m) hcrashed) with
          ⟨done, left, hlist, hwaits, hlog⟩ | ⟨j, haj, hjm, hends, hlog⟩
        · have hlast : ∀ x, Directive.ending origin x = Directive.outcome origin (done ++ [x]) :=
            fun x => by simp [Directive.outcome, Directive.endingAfter]
          rcases lines_step (hσ.next m) hcrashed hwaits with ⟨hstill, hnone⟩ |
            ⟨x, more, rfl, hruns, hturn⟩ | ⟨rfl, hends, hnone⟩
          · exact .inl ⟨done, left, hlist, hstill, hlog.quiet hnone⟩
          · have hlog' := hlog.event hruns fun y hother => hother.unique hruns
            rw [hlast] at hturn
            rcases hturn with ⟨hsound, hmore⟩ | ⟨⟨message, hfault⟩, hends⟩
            · rw [Directive.ran_cons_sound hsound, List.append_cons] at hlist
              exact .inl ⟨done ++ [x], more, hlist, hmore, hlog'⟩
            · rw [Directive.ran_cons_fault hfault] at hlist
              rw [← hlist] at hends hlog'
              exact .inr ⟨m, ham, Nat.lt_succ_self m, hends, hlog'⟩
          · rw [Directive.ran_nil, List.append_nil] at hlist
            rw [← hlist] at hends hlog
            exact .inr ⟨m, ham, Nat.lt_succ_self m, hends, hlog.quiet hnone⟩
        · exact .inr ⟨j, haj, Nat.lt_succ_of_lt hjm, hends, hlog⟩
  rcases hinvariant with ⟨done, left, hlist, hwaits, hlog⟩ | ⟨j, haj, hjm, hends, hlog⟩
  · exact .underway done left hlist hwaits.suffix hlog
  · exact .through j haj hjm hends hlog

end Behavior

/-- How an evaluation of directives goes that enters the script engine in step `n`. -/
structure RunsInOrder (σ : Nat → Machine) (key : Nat) (program origin : String) (start : Nat)
    (rest : List Task) (n : Nat) : Prop where
  /-- The lines of the program are its rows, whatever they end with. -/
  rows : Text.Rows program.toList (Text.lines program.toList)
  /-- The directives among them are run one after the other, up to the first that faults, and the
  last that is run tells how the evaluation ends. -/
  order : ∀ m, n < m → (σ m).world.crashed = false →
    Advances σ key origin (Directive.spoken program start) rest (n + 1) m
  /-- While a line is next nobody else gets a turn. -/
  prompt : ∀ i left, (σ i).agenda = .directives key origin left :: rest → σ (i + 1) = (σ i).step ∨
    (σ (i + 1)).agenda = (σ i).agenda ∧ Interrupts.Same (σ i).world (σ (i + 1)).world
  /-- If nobody interrupts and the includes nest only finitely, the evaluation comes to its end, and
  the world is as the directives that are run have left it. -/
  completes : ((σ n).world.surroundings key).Nests program →
    ∃ w, Does key (.run origin (Directive.ran (Directive.spoken program start)))
        ((σ n).world.enter key) w ∧
      (∀ w', Does key (.run origin (Directive.ran (Directive.spoken program start)))
        ((σ n).world.enter key) w' → w' = w) ∧
      (σ n).Reaches
        ⟨w, Directive.outcome origin (Directive.ran (Directive.spoken program start)), rest⟩

namespace Task

def entersWith (key : Nat) (program origin : String) (line : Nat) : Task → Bool
  | engine host text label start =>
      host = key ∧ text = program ∧ label = origin ∧ start = line
  | _ => false

def isDirectives : Task → Bool
  | directives _ _ _ => true
  | _ => false

end Task

namespace Machine

theorem engine_trace {m : Machine} {key n line : Nat} {program origin : String}
    (h : (m.trace n).agenda.head?.any (Task.entersWith key program origin line) = true) :
    ∃ rest, Executes m.trace n (.engine key program origin line) rest := by
  obtain ⟨t, rest, hexec, ht⟩ := executes_trace_iff.mpr h
  cases t with
  | engine host text label start =>
      obtain ⟨rfl, rfl, rfl, rfl⟩ := of_decide_eq_true ht
      exact ⟨rest, hexec⟩
  | _ => cases ht

/-- A program with an empty line, a comment, an include and a line that nobody understands. -/
def direction : String :=
  "print a\n\n// note\r\n include http://x/a.js \r\njump\nvalue 1"

/-- A host runs it, and the text that is included faults. -/
def directed : Machine :=
  .start (.start default [("http://x/a.js", "throw broken\nstop")] [] [] default)
    [.build ⟨"h", direction, "h.js", none, .standard, "", none, some ⟨false, true, false, false⟩,
        false, none, true, 9⟩ [],
      .onHost (some "h") .run]

theorem directed_behavior : Behavior directed.trace :=
  trace_behavior ..

theorem direction_ran : Directive.ran (Directive.spoken direction 1) =
    [(1, "print a".toList), (4, "include http://x/a.js".toList), (5, "jump".toList)] := by
  decide +kernel

theorem direction_nests : ((directed.trace 7).world.surroundings 0).Nests direction := by
  have hincluded : ((directed.trace 7).world.surroundings 0).included direction =
      ["throw broken\nstop"] := by decide +kernel
  have hnone : ((directed.trace 7).world.surroundings 0).included "throw broken\nstop" = [] := by
    decide +kernel
  refine Acc.intro _ fun text htext => Acc.intro _ fun other hother => ?_
  rw [hincluded, List.mem_singleton] at htext
  rw [htext, hnone] at hother
  cases hother

end Machine

end TickHost
