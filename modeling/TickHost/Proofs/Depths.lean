import Mathlib.Data.Set.Card
import TickHost.Proofs.Announcements

/-!
The count of evaluations as the depth of a stack. A call of the script engine is on the stack from
the step that enters the engine to the one that ends the evaluation, however many others begin and
end meanwhile. Each step puts at most one call of a host on the stack or takes one off, and the
count goes with it, so that it is the number of calls on the stack at every moment and is above
zero whenever it is taken back. What a host offers to its script is registered once, before the
first call.
-/

namespace TickHost

open World Machine

/-- A call of the script engine that a host made at `i` has not ended by `n`. -/
structure OnStack (σ : Nat → Machine) (key n i : Nat) : Prop where
  earlier : i < n
  enters : ∃ below, EntersEngine σ key below i
  lasts : ∀ below j a o, Evaluates σ key below i j a o → n ≤ a

/-- The calls of the script engine of a host that are on the stack, by the steps in which they were
made. -/
def callStack (σ : Nat → Machine) (key n : Nat) : Set Nat :=
  { i | OnStack σ key n i }

/-- The script engine of a host is set up in this step: what the host offers is registered. -/
def Registers (σ : Nat → Machine) (key n : Nat) : Prop :=
  (∃ rest, Executes σ n (.initialise key) rest) ∧ ((σ n).world.host key).initialized = false

/-- Only setting up the engine of a host makes it known as set up. -/
theorem Task.react_initialized {w : World} {o : Outcome} {t : Task} {key : Nat}
    (hlinked : w.Linked) (hkeys : ∀ key, t.host? = some key → w.Has key)
    (hother : t ≠ .initialise key) :
    ((react w o t).world.host key).initialized = (w.host key).initialized := by
  by_cases hsets : t.sets? = some key
  · by_cases hbegin : t = .beginRun key
    · subst hbegin
      rw [beginRun_sets.host_self]
      rfl
    · cases t with
      | initialise _ =>
          cases hsets
          exact absurd rfl hother
      | engine _ program origin line =>
          cases hsets
          rw [(engine_sets program origin line).host_self]
      | announce _ =>
          cases hsets
          rw [(announce_sets (hkeys key rfl)).host_self]
          cases o <;> rfl
      | beginRun _ =>
          cases hsets
          exact absurd rfl hbegin
      | confirmRun _ | update _ _ | close _ _ | finish _ _ =>
          cases hsets
          have hstride := react_stride (w := w) (o := o) hkeys rfl hbegin
          generalize ((react w o _).world.host key) = h at hstride ⊢
          cases hstride with
          | finish time origin =>
              obtain ⟨outlet, hfinish⟩ := (w.host key).finishRun_eq time origin
              rw [hfinish]
          | refuse _ | confirm _ _ | skip _ | update _ _ _ | close _ => rfl
      | _ => cases hsets
  · exact (react_still hlinked hkeys hsets).2.2.2

section Stack

variable (σ : Nat → Machine) (key n : Nat)

theorem callStack_finite : (callStack σ key n).Finite :=
  (Set.finite_lt_nat n).subset fun _ h => h.earlier

theorem callStack_zero : callStack σ key 0 = ∅ :=
  Set.eq_empty_of_forall_notMem fun i h => absurd h.earlier (Nat.not_lt_zero i)

end Stack

namespace Behavior

variable {σ : Nat → Machine} (hσ : Behavior σ) {key n i : Nat} {program origin : String}
  {line : Nat} {rest : List Task}

include hσ

/-- A call ends once. -/
theorem ends_once {below below' : List Task} {j j' a a' : Nat} {o o' : Outcome}
    (h : Evaluates σ key below i j a o) (h' : Evaluates σ key below' i j' a' o') : a ≤ a' := by
  obtain ⟨program, origin, line, hexec⟩ := h.enters
  obtain ⟨program', origin', line', hexec'⟩ := h'.enters
  obtain ⟨-, hbelow⟩ := hexec.unique hexec'
  cases hbelow
  by_contra hlate
  have hthere := h.waits (a' + 1) (by have := h'.order; omega) (by omega)
  -- the announcement is gone by then
  have hcrashed := hσ.uncrashed_of_suffix hthere
  rw [after h'.announces hcrashed] at hthere
  exact Task.not_suffix_self hthere

/-- Entering the engine puts one call on the stack. -/
theorem callStack_entered (hexec : Executes σ n (.engine key program origin line) rest) :
    callStack σ key (n + 1) = insert n (callStack σ key n) := by
  ext i
  constructor
  · intro h
    rcases Nat.lt_succ_iff_lt_or_eq.mp h.earlier with hin | rfl
    · exact .inr ⟨hin, h.enters, fun below j a o hends => Nat.le_of_succ_le (h.lasts _ _ _ _ hends)⟩
    · exact .inl rfl
  · rintro (rfl | h)
    · obtain ⟨j, below, -, -, -, rfl, -⟩ := hσ.evaluated (suffix_of_executes hexec)
      refine ⟨Nat.lt_succ_self i, ⟨below, _, _, _, hexec⟩, fun below j a o hends => ?_⟩
      exact Nat.lt_of_le_of_lt hends.order.1 hends.order.2
    · refine ⟨Nat.lt_succ_of_lt h.earlier, h.enters, fun below j a o hends => ?_⟩
      refine Nat.lt_of_le_of_ne (h.lasts _ _ _ _ hends) ?_
      rintro rfl
      cases (hexec.unique hends.announces).1

/-- The end of an evaluation takes one call off the stack. -/
theorem callStack_ended (hexec : Executes σ n (.announce key) rest) :
    ∃ i ∈ callStack σ key n, callStack σ key (n + 1) = callStack σ key n \ {i} := by
  obtain ⟨i, j, hends⟩ := hσ.evaluates_of_announce hexec
  have hin : i < n := Nat.lt_of_le_of_lt hends.order.1 hends.order.2
  refine ⟨i, ⟨hin, ⟨rest, hends.enters⟩, fun _ _ _ _ hends' => hσ.ends_once hends hends'⟩, ?_⟩
  ext i'
  constructor
  · intro h
    have hne : i' ≠ n := by
      rintro rfl
      obtain ⟨below, program, origin, line, henters⟩ := h.enters
      cases (hexec.unique henters).1
    refine ⟨⟨?_, h.enters, fun below j a o hends' => ?_⟩, ?_⟩
    · exact Nat.lt_of_le_of_ne (Nat.le_of_lt_succ h.earlier) hne
    · exact Nat.le_of_succ_le (h.lasts _ _ _ _ hends')
    · rintro rfl
      exact absurd (h.lasts _ _ _ _ hends) (Nat.not_succ_le_self n)
  · rintro ⟨h, hne⟩
    refine ⟨Nat.lt_succ_of_lt h.earlier, h.enters, fun below j a o hends' => ?_⟩
    refine Nat.lt_of_le_of_ne (h.lasts _ _ _ _ hends') ?_
    rintro rfl
    exact hne (hσ.evaluates_unique hends' hends)

omit hσ in
/-- Other steps leave the stack alone. -/
theorem callStack_kept
    (henters : ∀ program origin line rest, ¬ Executes σ n (.engine key program origin line) rest)
    (hends : ∀ rest, ¬ Executes σ n (.announce key) rest) :
    callStack σ key (n + 1) = callStack σ key n := by
  ext i
  constructor
  · intro h
    refine ⟨Nat.lt_of_le_of_ne (Nat.le_of_lt_succ h.earlier) ?_, h.enters,
      fun below j a o hends' => Nat.le_of_succ_le (h.lasts _ _ _ _ hends')⟩
    rintro rfl
    obtain ⟨below, program, origin, line, hexec⟩ := h.enters
    exact henters program origin line _ hexec
  · intro h
    refine ⟨Nat.lt_succ_of_lt h.earlier, h.enters, fun below j a o hends' => ?_⟩
    refine Nat.lt_of_le_of_ne (h.lasts _ _ _ _ hends') ?_
    rintro rfl
    exact hends below hends'.announces

omit hσ in
theorem pending_entered (hexec : Executes σ n (.engine key program origin line) rest) :
    ((σ (n + 1)).world.host key).pending = ((σ n).world.host key).pending + 1 := by
  rw [world_after hexec, (Task.engine_sets program origin line).host_self]

theorem pending_ended (hexec : Executes σ n (.announce key) rest) :
    ((σ (n + 1)).world.host key).pending = ((σ n).world.host key).pending - 1 := by
  rw [world_after hexec,
    (Task.announce_sets ((hσ.sound n).head hexec.agenda key rfl)).host_self]
  cases (σ n).outcome <;> rfl

theorem pending_kept
    (henters : ∀ program origin line rest, ¬ Executes σ n (.engine key program origin line) rest)
    (hends : ∀ rest, ¬ Executes σ n (.announce key) rest) :
    ((σ (n + 1)).world.host key).pending = ((σ n).world.host key).pending := by
  rcases hσ.host_step key n with hsame | ⟨t, rest, hexec, hworld⟩
  · rw [hsame]
  · have hsound := hσ.sound n
    rw [hworld]
    by_cases hsets : t.sets? = some key
    · refine Task.react_pending hsound.linked (hsound.head hexec.agenda) ?_
      cases t with
      | engine _ program origin line =>
          cases hsets
          exact absurd hexec (henters program origin line rest)
      | announce _ =>
          cases hsets
          exact absurd hexec (hends rest)
      | _ => rfl
    · exact (Task.react_still hsound.linked (hsound.head hexec.agenda) hsets).2.2.1

/-- At every moment a host counts the calls that are on the stack. -/
theorem pending_eq_depth (key n : Nat) :
    ((σ n).world.host key).pending = (callStack σ key n).ncard := by
  induction n with
  | zero =>
      obtain ⟨disk, remote, programs, functions, network, actions, hstart⟩ := hσ.starts
      rw [callStack_zero, Set.ncard_empty, hstart]
      rfl
  | succ n ih =>
      by_cases henters : ∃ program origin line rest,
          Executes σ n (.engine key program origin line) rest
      · obtain ⟨program, origin, line, rest, hexec⟩ := henters
        have hnew : n ∉ callStack σ key n := fun h => absurd h.earlier (Nat.lt_irrefl n)
        rw [pending_entered hexec, hσ.callStack_entered hexec, ih,
          Set.ncard_insert_of_notMem hnew (callStack_finite σ key n)]
      · by_cases hends : ∃ rest, Executes σ n (.announce key) rest
        · obtain ⟨rest, hexec⟩ := hends
          obtain ⟨i, hmem, hstack⟩ := hσ.callStack_ended hexec
          rw [hσ.pending_ended hexec, hstack, ih, Set.ncard_sdiff_singleton_of_mem hmem]
        · push Not at henters hends
          rw [hσ.pending_kept henters hends, callStack_kept henters hends, ih]

/-- The count is above zero whenever it is taken back. -/
theorem pending_pos (hexec : Executes σ n (.announce key) rest) :
    0 < ((σ n).world.host key).pending := by
  obtain ⟨i, hmem, -⟩ := hσ.callStack_ended hexec
  rw [hσ.pending_eq_depth]
  exact (Set.ncard_pos (callStack_finite σ key n)).mpr ⟨i, hmem⟩

/-- A call on the stack has something to do, or it has just returned and is ended next. -/
theorem onStack_progress (hcrashed : (σ n).world.crashed = false) (h : OnStack σ key n i) :
    ∃ below, EntersEngine σ key below i ∧
      ((∃ t above, (σ n).agenda = t :: above ++ .announce key :: below) ∨
        ∃ j, i ≤ j ∧ j < n ∧ Exits σ (.announce key :: below) j (σ n).outcome ∧
          (σ n).agenda = .announce key :: below ∧
          Interrupts.Same (σ (j + 1)).world (σ n).world) := by
  obtain ⟨below, henters⟩ := h.enters
  refine ⟨below, henters, ?_⟩
  cases hσ.progress henters h.earlier hcrashed with
  | engaged t above hagenda => exact .inl ⟨t, above, hagenda⟩
  | returned j hij hjn hexits hagenda hsame => exact .inr ⟨j, hij, hjn, hexits, hagenda, hsame⟩
  | announced j a o han hends => exact absurd (h.lasts _ _ _ _ hends) (Nat.not_le_of_lt han)

/-- In one step a host stays set up or not, or its engine is set up. -/
theorem initialized_cases (key n : Nat) :
    ((σ (n + 1)).world.host key).initialized = ((σ n).world.host key).initialized ∨
      (∃ rest, Executes σ n (.initialise key) rest) ∧
        ((σ (n + 1)).world.host key).initialized = true := by
  rcases hσ.host_step key n with hsame | ⟨t, rest, hexec, hworld⟩
  · exact .inl (by rw [hsame])
  · have hsound := hσ.sound n
    have hkeys := hsound.head hexec.agenda
    rw [hworld]
    by_cases hsetup : t = .initialise key
    · subst hsetup
      rw [(Task.initialise_sets (hkeys key rfl)).host_self]
      exact .inr ⟨⟨rest, hexec⟩, rfl⟩
    · exact .inl (Task.react_initialized hsound.linked hkeys hsetup)

/-- A host that was set up stays so. -/
theorem initialized_later {m : Nat} (hnm : n ≤ m)
    (hdone : ((σ n).world.host key).initialized = true) :
    ((σ m).world.host key).initialized = true := by
  induction hnm with
  | refl => exact hdone
  | @step m hnm ih =>
      rcases hσ.initialized_cases key m with hsame | ⟨-, hdone⟩
      · rw [hsame, ih]
      · exact hdone

theorem initialized_after (hexec : Executes σ n (.initialise key) rest) :
    ((σ (n + 1)).world.host key).initialized = true := by
  rw [world_after hexec,
    (Task.initialise_sets ((hσ.sound n).head hexec.agenda key rfl)).host_self]

/-- The engine of a host is set up once. -/
theorem registers_unique {m : Nat} (h : Registers σ key n) (h' : Registers σ key m) : n = m := by
  have hearlier : ∀ {n m}, Registers σ key n → Registers σ key m → ¬ n < m := by
    rintro n m ⟨⟨rest, hexec⟩, -⟩ ⟨-, hfresh⟩ hnm
    rw [hσ.initialized_later hnm (hσ.initialized_after hexec)] at hfresh
    cases hfresh
  exact Nat.le_antisymm (Nat.le_of_not_lt (hearlier h' h)) (Nat.le_of_not_lt (hearlier h h'))

/-- A host that is set up was so in some step. -/
theorem registers_of_initialized (hdone : ((σ n).world.host key).initialized = true) :
    ∃ i, i < n ∧ Registers σ key i := by
  have hzero : ((σ 0).world.host key).initialized = false := by
    obtain ⟨disk, remote, programs, functions, network, actions, hstart⟩ := hσ.starts
    rw [hstart]
    rfl
  obtain ⟨i, -, hin, hfresh, hrise⟩ := exists_rise
    (fun i => ((σ i).world.host key).initialized) (Nat.zero_le n) hzero hdone
  refine ⟨i, hin, ?_, hfresh i (Nat.zero_le i) (Nat.le_refl i)⟩
  rcases hσ.initialized_cases key i with hsame | ⟨hexec, -⟩
  · rw [hsame, hfresh i (Nat.zero_le i) (Nat.le_refl i)] at hrise
    cases hrise
  · exact hexec

/-- A host whose engine is entered was set up before. -/
theorem initialized_of_enters (hexec : Executes σ n (.engine key program origin line) rest) :
    ((σ n).world.host key).initialized = true := by
  obtain ⟨j, below, hjn, hpush, hopen, rfl, -⟩ := hσ.evaluated (suffix_of_executes hexec)
  have hcrashed := (hσ.sound n).uncrashed hexec.agenda
  have hwaits : .initialise key :: .engine key program origin line :: .announce key :: below <:+
      (σ (j + 1)).agenda := by
    rw [after hpush (hσ.uncrashed hjn hcrashed),
      Task.react_evaluate_next program origin line hopen]
    exact List.suffix_refl _
  have hgone : ¬ .initialise key :: .engine key program origin line :: .announce key :: below <:+
      (σ n).agenda := by
    rw [hexec.agenda]
    exact Task.not_suffix_self
  obtain ⟨i, -, hin, hsetup, -⟩ := hσ.popped rfl hwaits hjn hcrashed hgone
  exact hσ.initialized_later hin (hσ.initialized_after hsetup)

end Behavior

/-- The count of evaluations is the depth of the stack, and the engine is set up before. -/
structure Depths (σ : Nat → Machine) : Prop where
  /-- At every moment a host counts the calls of its engine that have not ended. -/
  depth : ∀ key n, ((σ n).world.host key).pending = (callStack σ key n).ncard
  /-- Such a call has something to do, or it has just returned and is ended next. -/
  working : ∀ {key n i}, (σ n).world.crashed = false → OnStack σ key n i →
    ∃ below, EntersEngine σ key below i ∧
      ((∃ t above, (σ n).agenda = t :: above ++ .announce key :: below) ∨
        ∃ j, i ≤ j ∧ j < n ∧ Exits σ (.announce key :: below) j (σ n).outcome ∧
          (σ n).agenda = .announce key :: below ∧
          Interrupts.Same (σ (j + 1)).world (σ n).world)
  /-- Every call counts one more. -/
  enters : ∀ {key n program origin line rest},
    Executes σ n (.engine key program origin line) rest →
    ((σ (n + 1)).world.host key).pending = ((σ n).world.host key).pending + 1
  /-- Whether a call returned or faulted, its end takes one back, and there is one to take. -/
  ends : ∀ {key n rest}, Executes σ n (.announce key) rest →
    0 < ((σ n).world.host key).pending ∧
    ((σ (n + 1)).world.host key).pending + 1 = ((σ n).world.host key).pending
  /-- Registering carries out the api of the host, if its engine has any, and reports a fault. -/
  registers : ∀ {key n rest}, Executes σ n (.initialise key) rest →
    (σ (n + 1)).agenda = if ((σ n).world.host key).initialized ∨ ((σ n).world.host key).directives
      then rest
      else .perform ⟨some key, ((σ n).world.host key).name, .host⟩ ((σ n).world.host key).api ::
        .report key :: rest
  /-- It is done exactly once, before the first call. -/
  once : ∀ {key n below}, EntersEngine σ key below n →
    ∃ i, i < n ∧ Registers σ key i ∧ ∀ j, Registers σ key j → j = i

/-- However evaluations nest and end, a host counts how many of them are on the stack. -/
theorem pending_is_depth {σ : Nat → Machine} (hσ : Behavior σ) : Depths σ where
  depth := hσ.pending_eq_depth
  working hcrashed h := hσ.onStack_progress hcrashed h
  enters hexec := Behavior.pending_entered hexec
  ends hexec := by
    have hpos := hσ.pending_pos hexec
    have hended := hσ.pending_ended hexec
    exact ⟨hpos, by omega⟩
  registers {key n rest} hexec := by
    have hcrashed := (hσ.sound n).uncrashed hexec.agenda
    rw [hexec.step, step_agenda hexec.agenda, step_world hexec.agenda]
    simp only [Task.react]
    split
    · rename_i hdone
      simp [hcrashed, hdone]
    · rename_i hfresh
      split
      · rename_i hdirectives
        simp [World.setHost, hcrashed, hdirectives]
      · rename_i hscript
        simp [World.setHost, World.note, hcrashed, hfresh, hscript]
  once {key n below} henters := by
    obtain ⟨program, origin, line, hexec⟩ := henters
    obtain ⟨i, hin, hregisters⟩ :=
      hσ.registers_of_initialized (hσ.initialized_of_enters hexec)
    exact ⟨i, hin, hregisters, fun j h => hσ.registers_unique h hregisters⟩

/-- A host whose api evaluates a fault, and whose program evaluates another one. -/
def Machine.offering : Machine :=
  .start (.start default [] [("body", [.inScript none (.evaluate "throw x" "n.js" 1)])] [] default)
    [.build ⟨"h", "", "h.js", none, .standard, "", none, none, false, none, false, 1⟩
        [.inScript none (.evaluate "throw a" "api.js" 1)],
      .inScript (some "h") (.evaluate "body" "b.js" 1)]

theorem Machine.offering_behavior : Behavior offering.trace :=
  trace_behavior ..

/-- While the second fault is announced two calls are on the stack. The first call of all was made
by the api itself, and even then the host had been set up. -/
theorem offering_depth :
    (callStack offering.trace 0 18).ncard = 2 ∧ (callStack offering.trace 0 19).ncard = 1 ∧
    (∃ rest, Executes offering.trace 18 (.announce 0) rest ∧
      ((offering.trace 19).world.host 0).pending + 1 =
        ((offering.trace 18).world.host 0).pending) ∧
    ∃ below n i, EntersEngine offering.trace 0 below n ∧ n < 8 ∧ i < n ∧
      Registers offering.trace 0 i ∧ ∀ j, Registers offering.trace 0 j → j = i := by
  have hdepths : Depths offering.trace := pending_is_depth offering_behavior
  refine ⟨?_, ?_, ?_, ?_⟩
  · rw [← hdepths.depth]
    decide +kernel
  · rw [← hdepths.depth]
    decide +kernel
  · obtain ⟨below, n, j, hends⟩ := evaluates_trace offering_behavior 0 18 (by decide +kernel)
    exact ⟨below, hends.announces, (hdepths.ends hends.announces).2⟩
  · obtain ⟨below, n, j, hends⟩ := evaluates_trace offering_behavior 0 8 (by decide +kernel)
    obtain ⟨i, hin, hregisters, hunique⟩ := hdepths.once hends.enters
    exact ⟨below, n, i, hends.enters, Nat.lt_of_le_of_lt hends.order.1 hends.order.2, hin,
      hregisters, hunique⟩

end TickHost
