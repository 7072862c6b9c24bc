import TickHost.Proofs.Stack

/-!
The runs of a host. The task that a run goes on with leads to the next one, from the confirmation
over the ticks to the end, and whatever is executed above it meanwhile only works on the host. So
the whole course of a run can be told from the moment at which it finishes.
-/

namespace TickHost

open World Machine

namespace Task

/-- From one task of a run to the next. -/
inductive Leads (w : World) (key : Nat) : Task → Task → Prop where
  | begin : Leads w key (.beginRun key) (.confirmRun key)
  | confirm (hopen : w.isStopping key = false) :
      Leads w key (.confirmRun key) (.startTicking key (w.host key).script.origin)
  | start (origin : String) (t : Ticking) (horigin : t.origin = origin) :
      Leads w key (.startTicking key origin) (.awaitTick key t)
  | tick (origin : String) {x y : Task} (hx : Loops key origin x) (hy : Loops key origin y) :
      Leads w key x y
  | exit (origin : String) {x : Task} (hx : Loops key origin x)
      (hfinished : (w.host key).finished = true) : Leads w key x (.close key origin)
  | close (origin : String) : Leads w key (.close key origin) (.finish key origin)

variable {w : World} {o : Outcome} {key : Nat} {origin : String}

@[simp]
theorem part_confirmRun : (confirmRun key).part key = .inside := by
  simp [part]

@[simp]
theorem part_startTicking : (startTicking key origin).part key = .inside := by
  simp [part]

@[simp]
theorem part_close : (close key origin).part key = .inside := by
  simp [part]

@[simp]
theorem part_finish : (finish key origin).part key = .inside := by
  simp [part]

/-- A tick belongs to the run of one origin. -/
theorem Loops.origin_unique {other : String} {x : Task} (hx : Loops key origin x)
    (hother : Loops key other x) : origin = other := by
  cases hx <;> cases hother <;> simp_all

theorem isPerform_of_inside {x : Task} (hx : x.part key = .inside) : x.isPerform = false := by
  cases x <;> first | rfl | cases hx

theorem Leads.inside {t x : Task} (hleads : Leads w key t x) (hbegin : t ≠ .beginRun key) :
    t.part key = .inside := by
  cases hleads with
  | begin => exact absurd rfl hbegin
  | confirm _ => exact part_confirmRun
  | start _ _ _ => exact part_startTicking
  | close _ => exact part_close
  | tick _ hloops _ | exit _ hloops _ => exact hloops.inside

/-- Two tasks on an agenda with the same tasks below are the same. -/
theorem same_place {x y : Task} {rest agenda : List Task} (hx : x :: rest <:+ agenda)
    (hy : y :: rest <:+ agenda) : x = y := by
  have hlist : x :: rest = y :: rest :=
    (List.suffix_of_suffix_length_le hx hy (by simp)).eq_of_length (by simp)
  exact (List.cons.inj hlist).1

theorem suffix_of_eq {tasks agenda : List Task} (h : agenda = tasks) : tasks <:+ agenda :=
  ⟨[], h.symm⟩

theorem not_suffix_self {x : Task} {rest : List Task} : ¬ x :: rest <:+ rest := by
  intro h
  have hlength := h.length_le
  simp only [List.length_cons] at hlength
  omega

theorem mem_of_suffix_append {x : Task} {next tail : List Task} (h : x :: tail <:+ next ++ tail) :
    x ∈ next := by
  obtain ⟨pre, hpre⟩ := h
  have hsplit : (pre ++ [x]) ++ tail = next ++ tail := by simpa using hpre
  rw [← List.append_cancel_right hsplit]
  simp

/-- The only task of a run among some tasks is the last of them. -/
theorem eq_of_last (before : List Task) {pre post : List Task} {x y : Task}
    (hbefore : ∀ t ∈ before, t.part key = .none) (hx : x.part key = .inside)
    (hlist : before ++ [y] = pre ++ x :: post) : x = y ∧ post = [] := by
  rcases List.eq_nil_or_concat post with rfl | ⟨front, z, rfl⟩
  · have hlast := (List.append_inj' hlist rfl).2
    cases hlast
    exact ⟨rfl, rfl⟩
  · have hfront : before ++ [y] = (pre ++ x :: front) ++ [z] := by simpa using hlist
    have hmem : x ∈ before := by
      rw [(List.append_inj' hfront rfl).1]
      simp
    have hnone := hbefore x hmem
    rw [hx] at hnone
    cases hnone

/-- A run that is confirmed evaluates its body, and then it ticks. -/
theorem confirmRun_next (hopen : w.isStopping key = false) :
    (react w o (.confirmRun key)).next =
      [.evaluate key (w.host key).script.contents (w.host key).script.origin 1,
        .startTicking key (w.host key).script.origin] := by
  simp [react, hopen, publish_script]

/-- What a run goes on with follows from what it went on with before, as the last of the tasks
that are added. -/
theorem leads_of_pushes {t x : Task} {pre post : List Task} (hx : x.part key = .inside)
    (hnext : (react w o t).next = pre ++ x :: post) : Leads w key t x ∧ post = [] := by
  have hsequel := react_sequel w o t
  generalize (react w o t).next = next at hsequel hnext
  -- the last of the tasks is the run's, and its host is the host of the run
  have hlast : ∀ {k} before y, next = before ++ [y] → (∀ t ∈ before, t.part key = .none) →
      y.host? = some k → k = key ∧ x = y ∧ post = [] := by
    intro k before y hlist hbefore hhost
    obtain ⟨rfl, hpost⟩ := eq_of_last before hbefore hx (hlist.symm.trans hnext)
    exact ⟨Option.some.inj (hhost.symm.trans (host?_of_inside hx)), rfl, hpost⟩
  have hquiet : (∀ t ∈ next, t.part key ≠ .inside) → False :=
    fun hnone => hnone x (by simp [hnext]) hx
  cases hsequel with
  | beginRun k =>
      obtain ⟨rfl, rfl, hpost⟩ := hlast [] _ rfl (by simp) rfl
      exact ⟨.begin, hpost⟩
  | confirmRun k hopen =>
      obtain ⟨rfl, rfl, hpost⟩ := hlast [_] _ rfl (by simp [part]) rfl
      exact ⟨.confirm hopen, hpost⟩
  | startTicking k origin =>
      obtain ⟨rfl, rfl, hpost⟩ := hlast [] _ rfl (by simp) rfl
      exact ⟨.start origin _ rfl, hpost⟩
  | awaitTick k ticking frame hlive =>
      obtain ⟨rfl, rfl, hpost⟩ := hlast [] _ rfl (by simp) rfl
      exact ⟨.tick ticking.origin (.awaitTick ticking rfl) (.pump _ rfl), hpost⟩
  | pump k ticking hlive =>
      obtain ⟨rfl, rfl, hpost⟩ := hlast [_] _ rfl (by simp [part]) rfl
      exact ⟨.tick ticking.origin (.pump ticking rfl) (.flush ticking rfl), hpost⟩
  | flush k ticking hlive =>
      obtain ⟨rfl, rfl, hpost⟩ := hlast [] _ rfl (by simp) rfl
      exact ⟨.tick ticking.origin (.flush ticking rfl) (.stream ticking rfl), hpost⟩
  | stream k ticking hlive =>
      obtain ⟨rfl, rfl, hpost⟩ := hlast [] _ rfl (by simp) rfl
      exact ⟨.tick ticking.origin (.stream ticking rfl) (.update ticking rfl), hpost⟩
  | update k ticking callbacks args hlive =>
      obtain ⟨rfl, rfl, hpost⟩ := hlast [_] _ rfl (by simp [part]) rfl
      exact ⟨.tick ticking.origin (.update ticking rfl) (.awaitTick _ rfl), hpost⟩
  | skip k ticking hfinished =>
      obtain ⟨rfl, rfl, hpost⟩ := hlast [] _ rfl (by simp) rfl
      exact ⟨.tick ticking.origin (.update ticking rfl) (.awaitTick _ rfl), hpost⟩
  | awaitStop k ticking hfinished =>
      obtain ⟨rfl, rfl, hpost⟩ := hlast [] _ rfl (by simp) rfl
      exact ⟨.exit ticking.origin (.awaitTick ticking rfl) hfinished, hpost⟩
  | pumpStop k ticking hfinished =>
      obtain ⟨rfl, rfl, hpost⟩ := hlast [] _ rfl (by simp) rfl
      exact ⟨.exit ticking.origin (.pump ticking rfl) hfinished, hpost⟩
  | flushStop k ticking hfinished =>
      obtain ⟨rfl, rfl, hpost⟩ := hlast [] _ rfl (by simp) rfl
      exact ⟨.exit ticking.origin (.flush ticking rfl) hfinished, hpost⟩
  | streamStop k ticking hfinished =>
      obtain ⟨rfl, rfl, hpost⟩ := hlast [] _ rfl (by simp) rfl
      exact ⟨.exit ticking.origin (.stream ticking rfl) hfinished, hpost⟩
  | close k origin callbacks =>
      obtain ⟨rfl, rfl, hpost⟩ := hlast [_, _] _ rfl (by simp [part]) rfl
      exact ⟨.close origin, hpost⟩
  | perform scope action actions hbegun =>
      refine (hquiet ?_).elim
      cases hbegun with
      | run name k | spawn name k => by_cases hk : k = key <;> simp [part, hk]
      | _ => simp [part]
  | _ => exact (hquiet (by simp [part])).elim

/-- Only an evaluation that is admitted puts its frame on the agenda. -/
theorem evaluates_of_isEvaluation {t x : Task} (hx : x.isEvaluation = true)
    (hmem : x ∈ (react w o t).next) : ∃ k program origin line,
      t = .evaluate k program origin line ∧ w.isStopping k = false ∧
        (x = .engine k program origin line ∨ x = .announce k) := by
  have hsequel := react_sequel w o t
  generalize (react w o t).next = next at hsequel hmem
  have hquiet : (∀ t ∈ next, t.isEvaluation = false) → False :=
    fun hnone => absurd (hx.symm.trans (hnone x hmem)) (by simp)
  cases hsequel with
  | evaluate k program origin line hopen =>
      rcases List.mem_cons.mp hmem with rfl | hmem
      · cases hx
      · exact ⟨k, program, origin, line, rfl, hopen, by simpa using hmem⟩
  | perform scope action actions hbegun =>
      refine (hquiet ?_).elim
      cases hbegun <;> simp [isEvaluation]
  | _ => exact (hquiet (by simp [isEvaluation])).elim

end Task

namespace Behavior

variable {σ : Nat → Machine} (hσ : Behavior σ) {key : Nat} {x : Task} {rest : List Task}

include hσ

/-- What a run goes on with was led to by what was executed last of it, and waits since. -/
theorem led {n : Nat} (hx : x.part key = .inside) (hsuffix : x :: rest <:+ (σ n).agenda) :
    ∃ a t, a < n ∧ Executes σ a t rest ∧ Task.Leads (σ a).world key t x ∧
      ∀ i, a < i → i ≤ n → x :: rest <:+ (σ i).agenda := by
  obtain ⟨a, t, below, pre, post, han, hexec, hnext, htail, hstays⟩ :=
    hσ.pushed (Task.isPerform_of_inside hx) hsuffix
  obtain ⟨hleads, rfl⟩ := Task.leads_of_pushes hx hnext
  rw [List.nil_append] at htail
  subst htail
  exact ⟨a, t, han, hexec, hleads, hstays⟩

/-- A run that goes on has begun, and since then there was always something it went on with. -/
theorem begun {n : Nat} (hx : x.part key = .inside) (hsuffix : x :: rest <:+ (σ n).agenda) :
    ∃ b, b < n ∧ Executes σ b (.beginRun key) rest ∧
      ∀ i, b < i → i ≤ n → ∃ y, y.part key = .inside ∧ y :: rest <:+ (σ i).agenda := by
  induction n using Nat.strongRecOn generalizing x with
  | ind n ih =>
      obtain ⟨a, t, han, hexec, hleads, hstays⟩ := hσ.led hx hsuffix
      by_cases hbegin : t = .beginRun key
      · subst hbegin
        exact ⟨a, han, hexec, fun i hai hin => ⟨x, hx, hstays i hai hin⟩⟩
      · have ht := hleads.inside hbegin
        obtain ⟨b, hba, hbegun, hgoes⟩ := ih a han ht (Task.suffix_of_eq hexec.agenda)
        refine ⟨b, Nat.lt_trans hba han, hbegun, fun i hbi hin => ?_⟩
        rcases Nat.lt_or_ge a i with hai | hia
        · exact ⟨x, hx, hstays i hai hin⟩
        · exact hgoes i hbi hia

/-- The host of a task on the agenda was built. -/
theorem has_of_inside {n : Nat} (hx : x.part key = .inside)
    (hsuffix : x :: rest <:+ (σ n).agenda) : (σ n).world.Has key :=
  (hσ.sound n).keys x (hsuffix.subset List.mem_cons_self) key (Task.host?_of_inside hx)

/-- While a run goes on its host runs. -/
theorem running_of_inside {n : Nat} (hx : x.part key = .inside)
    (hsuffix : x :: rest <:+ (σ n).agenda) : ((σ n).world.host key).running = true := by
  obtain ⟨pre, hpre⟩ := hsuffix
  have hnested := (hσ.sound n).nested key
  rw [← hpre] at hnested
  exact hnested.is_running hx

/-- Nothing that is executed above what a run goes on with is part of a run of the same host. -/
theorem part_above {n : Nat} {t : Task} {below : List Task} (hx : x.part key = .inside)
    (hagenda : (σ n).agenda = t :: below) (hsuffix : x :: rest <:+ below) :
    t.part key = .none := by
  obtain ⟨pre, hpre⟩ := hsuffix
  have hnested := (hσ.sound n).nested key
  rw [hagenda, ← hpre, ← List.cons_append] at hnested
  exact hnested.none_above hx t List.mem_cons_self

/-- While a run goes on, nothing happens to its host but work, unless the run itself announces
something or ends. -/
theorem works_at {n : Nat} (hx : x.part key = .inside) (hsuffix : x :: rest <:+ (σ n).agenda)
    (hquiet : Executes σ n x rest → x.runs? ≠ some key) :
    ((σ n).world.host key).Works ((σ n).world.isStopping key)
      ((σ (n + 1)).world.host key) := by
  have hsound := hσ.sound n
  have hkey := hσ.has_of_inside hx hsuffix
  rcases (hσ.next n).cases with hsame | ⟨t, below, hagenda, hstep⟩
  · rw [hsame.host]
  · have hruns : t.runs? ≠ some key := by
      rw [hagenda] at hsuffix
      rcases List.suffix_cons_iff.mp hsuffix with heq | hbelow
      · cases heq
        exact hquiet ⟨hagenda, hstep⟩
      · exact Task.runs?_of_part (hσ.part_above hx hagenda hbelow)
    rw [hstep, step_world hagenda]
    exact Task.react_works hsound.linked (hsound.head hagenda) hruns hkey

/-- A run keeps its host from beginning another one. -/
theorem not_begin {n : Nat} (hx : x.part key = .inside) (hsuffix : x :: rest <:+ (σ n).agenda)
    {below : List Task} (hbegin : (σ n).agenda = .beginRun key :: below) : False := by
  rw [hbegin] at hsuffix
  rcases List.suffix_cons_iff.mp hsuffix with heq | hbelow
  · cases heq
    simp [Task.part] at hx
  · have hpart := hσ.part_above hx hbegin hbelow
    simp [Task.part] at hpart

omit hσ in
/-- An executed task leaves on the agenda what it adds. -/
theorem after {n : Nat} (hexec : Executes σ n x rest)
    (hcrashed : (σ (n + 1)).world.crashed = false) :
    (σ (n + 1)).agenda = (x.react (σ n).world (σ n).outcome).next ++ rest := by
  rw [hexec.step] at hcrashed ⊢
  rw [step_agenda hexec.agenda, hcrashed]
  rfl

omit hσ in
theorem world_after {n : Nat} (hexec : Executes σ n x rest) :
    (σ (n + 1)).world = (x.react (σ n).world (σ n).outcome).world := by
  rw [hexec.step, step_world hexec.agenda]

omit hσ in
theorem suffix_of_executes {n : Nat} (hexec : Executes σ n x rest) :
    x :: rest <:+ (σ n).agenda :=
  Task.suffix_of_eq hexec.agenda

/-- Before a run finishes it was closed. -/
theorem closed {n : Nat} {origin : String}
    (hsuffix : .finish key origin :: rest <:+ (σ n).agenda) :
    ∃ c, c < n ∧ Executes σ c (.close key origin) rest ∧
      ∀ i, c < i → i ≤ n → .finish key origin :: rest <:+ (σ i).agenda := by
  obtain ⟨c, t, hcn, hexec, hleads, hstays⟩ := hσ.led Task.part_finish hsuffix
  cases hleads with
  | close _ => exact ⟨c, hcn, hexec, hstays⟩
  | tick _ _ hloops => cases hloops

/-- Before a run is closed its host was asked to stop, and its loop saw that. -/
theorem left {n : Nat} {origin : String} (hsuffix : .close key origin :: rest <:+ (σ n).agenda) :
    ∃ a x, a < n ∧ Task.Loops key origin x ∧ Executes σ a x rest ∧
      ((σ a).world.host key).finished = true ∧
      ∀ i, a < i → i ≤ n → .close key origin :: rest <:+ (σ i).agenda := by
  obtain ⟨a, t, han, hexec, hleads, hstays⟩ := hσ.led Task.part_close hsuffix
  cases hleads with
  | exit _ hloops hfinished => exact ⟨a, t, han, hloops, hexec, hfinished, hstays⟩
  | tick _ _ hloops => cases hloops

/-- Before a run ticks it has started to, under the same origin. -/
theorem started {n : Nat} {origin : String} (hx : Task.Loops key origin x)
    (hsuffix : x :: rest <:+ (σ n).agenda) :
    ∃ s, s < n ∧ Executes σ s (.startTicking key origin) rest ∧
      ∀ i, s < i → i ≤ n → ∃ y, Task.Loops key origin y ∧ y :: rest <:+ (σ i).agenda := by
  induction n using Nat.strongRecOn generalizing x with
  | ind n ih =>
      obtain ⟨a, t, han, hexec, hleads, hstays⟩ := hσ.led hx.inside hsuffix
      cases hleads with
      | start other ticking horigin =>
          obtain rfl := hx.origin_unique (.awaitTick ticking horigin)
          exact ⟨a, han, hexec, fun i hai hin => ⟨_, hx, hstays i hai hin⟩⟩
      | tick other hloops hx' =>
          obtain rfl := hx.origin_unique hx'
          obtain ⟨s, hsa, hstart, hgoes⟩ := ih a han hloops (suffix_of_executes hexec)
          refine ⟨s, Nat.lt_trans hsa han, hstart, fun i hsi hin => ?_⟩
          rcases Nat.lt_or_ge a i with hai | hia
          · exact ⟨_, hx, hstays i hai hin⟩
          · exact hgoes i hsi hia
      | begin | confirm _ | exit _ _ _ | close _ => cases hx

/-- Before a run starts to tick it was confirmed, and its origin is that of the host then. -/
theorem confirmed {n : Nat} {origin : String}
    (hsuffix : .startTicking key origin :: rest <:+ (σ n).agenda) :
    ∃ m, m < n ∧ Executes σ m (.confirmRun key) rest ∧
      (σ m).world.isStopping key = false ∧
      origin = ((σ m).world.host key).script.origin ∧
      ∀ i, m < i → i ≤ n → .startTicking key origin :: rest <:+ (σ i).agenda := by
  obtain ⟨m, t, hmn, hexec, hleads, hstays⟩ := hσ.led Task.part_startTicking hsuffix
  cases hleads with
  | confirm hopen => exact ⟨m, hmn, hexec, hopen, rfl, hstays⟩
  | tick _ _ hloops => cases hloops

/-- Nothing comes between the beginning of a run and its confirmation. -/
theorem entered {n : Nat} (hsuffix : .confirmRun key :: rest <:+ (σ n).agenda) :
    ∃ b, b < n ∧ Executes σ b (.beginRun key) rest ∧
      ∀ i, b < i → i ≤ n → (σ i).agenda = .confirmRun key :: rest ∧
        Interrupts.Same (σ (b + 1)).world (σ i).world := by
  obtain ⟨b, t, hbn, hexec, hleads, hstays⟩ := hσ.led Task.part_confirmRun hsuffix
  have hbegin : t = .beginRun key := by
    cases hleads with
    | begin => rfl
    | tick _ _ hloops => cases hloops
  subst hbegin
  refine ⟨b, hbn, hexec, fun i hbi hin => ?_⟩
  have hcrashed := hσ.uncrashed_of_suffix (hstays (b + 1) (Nat.lt_succ_self b) hbn)
  rcases hσ.stuck_until rfl rfl (after hexec hcrashed) hbi with hstuck | ⟨j, hbj, hji, hdone, -⟩
  · exact hstuck
  · exfalso
    -- a run that was confirmed goes on with something else
    have hlater := hstays (j + 1) (Nat.lt_succ_of_lt hbj) (Nat.le_trans hji hin)
    rw [after hdone (hσ.uncrashed_of_suffix hlater)] at hlater
    have hkey := (hσ.sound j).head hdone.agenda key rfl
    cases hstopping : (σ j).world.isStopping key with
    | true =>
        rw [Task.react_refused_next hstopping] at hlater
        exact Task.not_suffix_self hlater
    | false =>
        rw [Task.confirmRun_next hstopping] at hlater
        cases Task.same_place (List.suffix_append [_] _) hlater

end Behavior

end TickHost
