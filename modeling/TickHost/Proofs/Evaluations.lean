import TickHost.Proofs.Sequels
import TickHost.Proofs.Spans

/-!
What becomes of an evaluation that has entered the script engine. Its announcement waits below all
that the script does, and it is executed as soon as the engine has returned, with the outcome that
the engine returned: a value or a fault, but never the refusal of a run that the script asked for.
Evaluations nest, so that the ones that a script causes are over before its own is announced.
-/

namespace TickHost

open World Machine

def Outcome.isRefused : Outcome → Bool
  | refused _ => true
  | _ => false

namespace Task

/-- The tasks of an evaluation above its announcement, with the outcome so far. It is over, or a
script or directives are carried out, and whatever is above them is done before. -/
inductive Engaged : List Task → Outcome → Prop where
  | left {o : Outcome} (hplain : o.isRefused = false) : Engaged [] o
  | script (above : List Task) (scope : Scope) (actions : List Action) (o : Outcome) :
      Engaged (above ++ [perform scope actions]) o
  | directives (key : Nat) (origin : String) (lines : List (Nat × List Char)) {o : Outcome}
      (hplain : o.isRefused = false) : Engaged [directives key origin lines] o
  /-- A directive has asked for a batch, and its value is given when the batch is done. -/
  | batch (above : List Task) (v : Value) (key : Nat) (origin : String)
      (lines : List (Nat × List Char)) (o : Outcome) :
      Engaged (above ++ [give v, directives key origin lines]) o

variable {w : World} {o : Outcome} {key : Nat}

/-- An evaluation that is over has a value or a fault. -/
theorem Engaged.plain (h : Engaged [] o) : o.isRefused = false := by
  generalize hnothing : ([] : List Task) = above at h
  cases h with
  | left hplain => exact hplain
  | script above | batch above => simp at hnothing
  | directives => cases hnothing

theorem performOne_engaged (w : World) (o : Outcome) (scope : Scope) (actions : List Action) :
    Engaged (performOne w o scope actions).next (performOne w o scope actions).outcome := by
  cases actions with
  | nil => exact .left rfl
  | cons action rest =>
      simp only [performOne]
      split
      · exact .left rfl
      · exact .left rfl
      · exact .script _ scope rest _

/-- A directive ends with a value or a fault, and only after a value it leaves something to do. -/
theorem runDirective_outcome (w : World) (key : Nat) (origin : String) (line : Nat)
    (text : List Char) : (runDirective w key origin line text).outcome.isRefused = false ∧
      ((runDirective w key origin line text).next = [] ∨
        ∃ above, (runDirective w key origin line text).next = above ++ [give .undefined] ∧
          ∃ v, (runDirective w key origin line text).outcome = .returned v) := by
  constructor
  · unfold runDirective
    dsimp only
    split <;> try rfl
    split <;> rfl
  · rcases runDirective_asks w key origin line text with hnone | ⟨hvalue, urls, results, hsome⟩
    · exact .inl hnone
    · exact .inr ⟨[batch key urls results], hsome, .undefined, hvalue⟩

theorem runDirectives_engaged (hplain : o.isRefused = false) (origin : String)
    (lines : List (Nat × List Char)) :
    Engaged (runDirectives w o key origin lines).next
      (runDirectives w o key origin lines).outcome := by
  cases lines with
  | nil => exact .left hplain
  | cons first rest =>
      obtain ⟨line, text⟩ := first
      obtain ⟨hvalue, hnext⟩ := runDirective_outcome w key origin line text
      simp only [runDirectives]
      split
      · rename_i fault hfault
        rcases hnext with hnone | ⟨above, -, v, hreturned⟩
        · rw [hnone]
          exact .left hvalue
        · cases hfault.symm.trans hreturned
      · rcases hnext with hnone | ⟨above, hsome, -⟩
        · simp only [hnone, List.nil_append]
          exact .directives key origin rest hvalue
        · simp only [hsome, List.append_assoc]
          exact .batch above .undefined key origin rest _

theorem enterEngine_engaged (program origin : String) (line : Nat) :
    Engaged (enterEngine w o key program origin line).next
      (enterEngine w o key program origin line).outcome := by
  simp only [enterEngine]
  split
  · exact .directives _ _ _ rfl
  · split
    · exact .left rfl
    · split
      · exact .left rfl
      · exact .script [] _ _ _

/-- Each task of an evaluation leaves the evaluation over or under way. -/
theorem Engaged.react {t : Task} {above : List Task} (h : Engaged (t :: above) o) (w : World) :
    Engaged ((t.react w o).next ++ above) (t.react w o).outcome := by
  generalize htasks : t :: above = tasks at h
  cases h with
  | left => cases htasks
  | script before scope actions =>
      cases before with
      | nil =>
          cases htasks
          rw [List.append_nil]
          exact performOne_engaged w o scope actions
      | cons first before =>
          rw [List.cons_append] at htasks
          cases htasks
          rw [← List.append_assoc]
          exact .script _ scope actions _
  | directives key origin lines hplain =>
      cases htasks
      rw [List.append_nil]
      exact runDirectives_engaged hplain origin lines
  | batch before v key origin lines =>
      cases before with
      | nil =>
          cases htasks
          exact .directives key origin lines rfl
      | cons first before =>
          rw [List.cons_append] at htasks
          cases htasks
          rw [← List.append_assoc]
          exact .batch _ v key origin lines _

/-- Others can only put scripts on top. -/
theorem Engaged.cons {t : Task} {above : List Task} (h : Engaged (t :: above) o)
    (hpauses : t.pauses = true) (scope : Scope) (actions : List Action) :
    Engaged (perform scope actions :: t :: above) o := by
  generalize htasks : t :: above = tasks at h ⊢
  cases h with
  | left => cases htasks
  | script before scope' actions' => exact .script (_ :: before) scope' actions' o
  | directives key origin lines hplain =>
      cases htasks
      cases hpauses
  | batch before v key origin lines => exact .batch (_ :: before) v key origin lines o

theorem Engaged.choose {scope : Scope} {actions : List Action} {above : List Task}
    (h : Engaged (perform scope actions :: above) o) (chosen : List Action) :
    Engaged (perform scope chosen :: above) o := by
  generalize htasks : perform scope actions :: above = tasks at h
  cases h with
  | left | directives => cases htasks
  | script before scope' actions' =>
      cases before with
      | nil =>
          cases htasks
          exact .script [] scope chosen o
      | cons first before =>
          cases htasks
          exact .script (_ :: before) scope' actions' o
  | batch before v key origin lines =>
      cases before with
      | nil => cases htasks
      | cons first before =>
          cases htasks
          exact .batch (_ :: before) v key origin lines o

/-- Others leave an evaluation over or under way: they get no turn when it is over. -/
theorem Engaged.shifts {x : Task} {above above' : List Task} (h : Engaged above o)
    (hpauses : x.pauses = false) (hshifts : Shifts x above above') :
    (above' = [] → above = []) ∧ Engaged above' o := by
  cases hshifts with
  | chooses scope actions chosen above =>
      exact ⟨fun hnone => absurd hnone (List.cons_ne_nil _ _), h.choose chosen⟩
  | reorders => exact ⟨id, h⟩
  | intrudes scope actions _ hturn =>
      refine ⟨fun hnone => absurd hnone (List.cons_ne_nil _ _), ?_⟩
      cases above with
      | nil =>
          have hx := hturn x [] rfl
          rw [hpauses] at hx
          cases hx
      | cons t above => exact h.cons (hturn t (above ++ [x]) rfl) scope actions

end Task

namespace Machine

variable {m m' : Machine} {above : List Task} {x : Task} {tail : List Task}

/-- What becomes of an evaluation in one step: something is done of it, or others do something
that leaves it over or under way, or it was over and its announcement is executed. -/
theorem Next.engaged (hnext : m.Next m') (hx : x.isPerform = false) (hpauses : x.pauses = false)
    (hagenda : m.agenda = above ++ x :: tail) (hengaged : Task.Engaged above m.outcome)
    (hcrashed : m'.world.crashed = false) :
    (∃ t rest, above = t :: rest ∧ m' = m.step ∧
      m'.agenda = ((t.react m.world m.outcome).next ++ rest) ++ x :: tail ∧
      Task.Engaged ((t.react m.world m.outcome).next ++ rest) m'.outcome) ∨
    (∃ above', (above' = [] → above = []) ∧ m'.outcome = m.outcome ∧
      m'.agenda = above' ++ x :: tail ∧ Task.Engaged above' m'.outcome) ∨
    above = [] ∧ m' = m.step := by
  rcases hnext.shifts hx hcrashed hagenda with ⟨t, rest, rfl, hstep, hagenda', houtcome⟩ |
    ⟨above', hshifts, hagenda', houtcome⟩ | hturn
  · refine .inl ⟨t, rest, rfl, hstep, hagenda', ?_⟩
    rw [houtcome]
    exact hengaged.react m.world
  · obtain ⟨hsome, hengaged'⟩ := hengaged.shifts hpauses hshifts
    exact .inr (.inl ⟨above', hsome, houtcome, hagenda', houtcome ▸ hengaged'⟩)
  · exact .inr (.inr hturn)

end Machine

/-- In this step an evaluation leaves the script engine with an outcome: nothing but the tasks
below it is left to do. -/
def Exits (σ : Nat → Machine) (rest : List Task) (n : Nat) (o : Outcome) : Prop :=
  ∃ t, Executes σ n t rest ∧ (t.react (σ n).world (σ n).outcome).next = [] ∧
    (t.react (σ n).world (σ n).outcome).outcome = o

namespace Behavior

variable {σ : Nat → Machine} (hσ : Behavior σ) {key n m : Nat} {program origin : String}
  {line : Nat} {rest : List Task}

omit hσ in
theorem outcome_after {x : Task} (hexec : Executes σ n x rest) :
    (σ (n + 1)).outcome = (x.react (σ n).world (σ n).outcome).outcome := by
  rw [hexec.step]
  simp [step, hexec.agenda]

include hσ

/-- What is part of the frame of an evaluation was put there when the evaluation was admitted. -/
theorem framed {x : Task} {tail : List Task} (hx : x.isEvaluation = true)
    (hsuffix : x :: tail <:+ (σ n).agenda) : ∃ j key program origin line below, j < n ∧
      Executes σ j (.evaluate key program origin line) below ∧
      (σ j).world.isStopping key = false ∧
      (x = .engine key program origin line ∧ tail = .announce key :: below ∨
        x = .announce key ∧ tail = below) ∧
      ∀ i, j < i → i ≤ n → x :: tail <:+ (σ i).agenda := by
  have hscript : x.isPerform = false := by
    cases x <;> first | rfl | cases hx
  obtain ⟨j, t, below, pre, post, hjn, hpush, hnext, rfl, hstays⟩ := hσ.pushed hscript hsuffix
  have hmem : x ∈ (t.react (σ j).world (σ j).outcome).next := by
    rw [hnext]
    simp
  obtain ⟨key, program, origin, line, rfl, hopen, -⟩ := Task.evaluates_of_isEvaluation hx hmem
  rw [Task.react_evaluate_next (o := (σ j).outcome) program origin line hopen] at hnext
  refine ⟨j, key, program, origin, line, below, hjn, hpush, hopen, ?_, hstays⟩
  rcases pre with _ | ⟨first, _ | ⟨second, _ | ⟨third, pre⟩⟩⟩ <;>
    simp only [List.nil_append, List.cons_append, List.cons.injEq] at hnext
  · obtain ⟨rfl, -⟩ := hnext
    cases hx
  · obtain ⟨-, rfl, rfl⟩ := hnext
    exact .inl ⟨rfl, rfl⟩
  · obtain ⟨-, -, rfl, rfl⟩ := hnext
    exact .inr ⟨rfl, rfl⟩
  · simp at hnext

/-- An evaluation that is to enter the engine was admitted, and its announcement waits below. -/
theorem evaluated (hsuffix : .engine key program origin line :: rest <:+ (σ n).agenda) :
    ∃ j below, j < n ∧ Executes σ j (.evaluate key program origin line) below ∧
      (σ j).world.isStopping key = false ∧ rest = .announce key :: below ∧
      ∀ i, j < i → i ≤ n → .engine key program origin line :: rest <:+ (σ i).agenda := by
  obtain ⟨j, k, text, label, start, below, hjn, hpush, hopen, hplace, hstays⟩ :=
    hσ.framed rfl hsuffix
  rcases hplace with ⟨hsame, rfl⟩ | ⟨hsame, -⟩
  · cases hsame
    exact ⟨j, below, hjn, hpush, hopen, rfl, hstays⟩
  · cases hsame

/-- What is announced has entered the engine before. -/
theorem entered_of_announce {below : List Task} (hexec : Executes σ m (.announce key) below) :
    ∃ n program origin line, n < m ∧
      Executes σ n (.engine key program origin line) (.announce key :: below) ∧
      ∀ i, n < i → i ≤ m → .announce key :: below <:+ (σ i).agenda := by
  obtain ⟨j, k, program, origin, line, rest, hjm, hpush, hopen, hplace, hstays⟩ :=
    hσ.framed rfl (suffix_of_executes hexec)
  rcases hplace with ⟨hsame, -⟩ | ⟨hsame, rfl⟩
  · cases hsame
  · cases hsame
    have hcrashed := (hσ.sound m).uncrashed hexec.agenda
    have hwaits : .engine key program origin line :: .announce key :: below <:+
        (σ (j + 1)).agenda := by
      rw [after hpush (hσ.uncrashed hjm hcrashed),
        Task.react_evaluate_next program origin line hopen]
      exact List.suffix_cons _ _
    have hgone : ¬ .engine key program origin line :: .announce key :: below <:+
        (σ m).agenda := by
      rw [hexec.agenda]
      exact Task.not_suffix_self
    obtain ⟨n, hjn, hnm, henters, -⟩ := hσ.popped rfl hwaits hjm hcrashed hgone
    exact ⟨n, program, origin, line, hnm, henters, fun i hni him => hstays i (by omega) him⟩

/-- Once the script engine is entered, the announcement of the evaluation waits for it to return,
until the announcement is executed. -/
theorem engaged {below : List Task}
    (hexec : Executes σ n (.engine key program origin line) (.announce key :: below))
    (hnm : n < m) (hstays : ∀ i, n < i → i ≤ m → .announce key :: below <:+ (σ i).agenda) :
    ∃ above, (σ m).agenda = above ++ .announce key :: below ∧
      Task.Engaged above (σ m).outcome ∧
      (above = [] → ∃ j, n ≤ j ∧ j < m ∧ Exits σ (.announce key :: below) j (σ m).outcome) := by
  have hexits : ∀ {i t} above, Executes σ i t (above ++ .announce key :: below) →
      (t.react (σ i).world (σ i).outcome).next ++ above = [] →
      Exits σ (.announce key :: below) i (σ (i + 1)).outcome := by
    intro i t above hdone hnothing
    obtain ⟨hnext, rfl⟩ := List.append_eq_nil_iff.mp hnothing
    exact ⟨t, hdone, hnext, (outcome_after hdone).symm⟩
  induction hnm with
  | refl =>
      have hcrashed := hσ.uncrashed_of_suffix (hstays (n + 1) (Nat.lt_succ_self n) (Nat.le_refl _))
      refine ⟨_, after hexec hcrashed, ?_, fun hnothing => ?_⟩
      · rw [outcome_after hexec]
        exact Task.enterEngine_engaged program origin line
      · refine ⟨n, Nat.le_refl n, Nat.lt_succ_self n, hexits [] hexec ?_⟩
        rw [hnothing]
        rfl
  | @step m hnm ih =>
      obtain ⟨above, hagenda, hengaged, hover⟩ :=
        ih fun i hni him => hstays i hni (Nat.le_succ_of_le him)
      have hlast := hstays (m + 1) (Nat.lt_succ_of_lt hnm) (Nat.le_refl _)
      rcases (hσ.next m).engaged rfl rfl hagenda hengaged (hσ.uncrashed_of_suffix hlast) with
        ⟨t, rest, rfl, hstep, hagenda', hengaged'⟩ |
        ⟨above', hempty, houtcome, hagenda', hengaged'⟩ | ⟨rfl, hstep⟩
      · refine ⟨_, hagenda', hengaged', fun hnothing => ?_⟩
        exact ⟨m, Nat.le_of_lt hnm, Nat.lt_succ_self m, hexits _ ⟨hagenda, hstep⟩ hnothing⟩
      · refine ⟨above', hagenda', hengaged', fun hnothing => ?_⟩
        obtain ⟨j, hnj, hjm, hexit⟩ := hover (hempty hnothing)
        exact ⟨j, hnj, Nat.lt_succ_of_lt hjm, houtcome ▸ hexit⟩
      · -- the announcement is executed, and does not stay
        have hannounced : Executes σ m (.announce key) below := ⟨hagenda, hstep⟩
        rw [after hannounced (hσ.uncrashed_of_suffix hlast)] at hlast
        exact absurd hlast Task.not_suffix_self

/-- An announcement is that of one evaluation only. -/
theorem engine_unique {other n' line' : Nat} {program' origin' : String}
    (hexec : Executes σ n (.engine key program origin line) rest)
    (hexec' : Executes σ n' (.engine other program' origin' line') rest) (hnn : n < n')
    (hstays : ∀ i, n < i → i ≤ n' → rest <:+ (σ i).agenda) : False := by
  obtain ⟨j, below, hjn, hevaluate, -, rfl, hwaits⟩ := hσ.evaluated (suffix_of_executes hexec')
  rcases Nat.lt_or_ge n j with hnj | hjn'
  · -- it was put there while the announcement was there already
    have hbelow := hstays j hnj (Nat.le_of_lt hjn)
    rw [hevaluate.agenda] at hbelow
    have hsame := hbelow.eq_of_length (by simp)
    cases hsame
  · have hlater := hwaits (n + 1) (Nat.lt_succ_of_le hjn') hnn
    rw [after hexec (hσ.uncrashed_of_suffix hlater)] at hlater
    have hagain := Task.mem_of_suffix_append hlater
    have hhost := (hσ.sound n).head hexec.agenda key rfl
    have hplain := (Task.engine_follows (o := (σ n).outcome) hhost program origin line).1
    cases List.all_eq_true.mp hplain _ hagain

end Behavior

end TickHost
