import Mathlib.Algebra.GroupWithZero.Nat
import TickHost.Proofs.Batches
import TickHost.Proofs.Pumps
import TickHost.Proofs.Requests

/-!
The iterations of a loop. The state of a tick is handed from one task of a loop to the next. It
tells when the loop has started, how many ticks it has started since, as far as the counter goes,
and when it has sent its last update. Every turn of the loop keeps this account, and so the whole
loop does, whatever is executed above it meanwhile and however long that takes.
-/

namespace TickHost

open World Machine

/-! The settings of a host. -/

namespace Host

variable {stopping : Bool} {h h' : Host}

theorem Works.settings (hworks : Works stopping h h') : h'.settings = h.settings := by
  induction hworks with
  | refl => rfl
  | tail _ hwork ih =>
      rw [← ih]
      cases hwork with
      | act hact => cases hact <;> rfl
      | enter | leave | conclude _ _ _ | initialise => rfl

theorem Stride.settings (hstride : h.Stride stopping h') : h'.settings = h.settings := by
  cases hstride with
  | refuse _ | confirm _ _ | skip _ | update _ _ _ | close _ => rfl
  | finish time origin =>
      obtain ⟨outlet, hfinish⟩ := h.finishRun_eq time origin
      rw [hfinish]

end Host

/-- In one step a run of a host begins, or goes on, or there is only work on the host. -/
theorem Behavior.host_cases {σ : Nat → Machine} (hσ : Behavior σ) {key n : Nat}
    (hkey : (σ n).world.Has key) :
    Begins σ key n ∧ (σ (n + 1)).world.host key = ((σ n).world.host key).beginRun ∨
      ((σ n).world.host key).Stride ((σ n).world.isStopping key) ((σ (n + 1)).world.host key) ∨
      ((σ n).world.host key).Works ((σ n).world.isStopping key) ((σ (n + 1)).world.host key) := by
  rcases hσ.host_step key n with hsame | ⟨t, rest, hexec, hworld⟩
  · rw [hsame]
    exact .inr (.inr .refl)
  · have hsound := hσ.sound n
    rw [hworld]
    rcases Task.react_cases (o := (σ n).outcome) hsound.linked (hsound.head hexec.agenda) hkey with
      rfl | hcase
    · exact .inl ⟨⟨rest, hexec⟩, Task.beginRun_sets.host_self⟩
    · exact .inr hcase

theorem Behavior.settings {σ : Nat → Machine} (hσ : Behavior σ) {key n m : Nat} (hnm : n ≤ m)
    (hkey : (σ n).world.Has key) :
    ((σ m).world.host key).settings = ((σ n).world.host key).settings := by
  induction hnm with
  | refl => rfl
  | @step m hnm ih =>
      rw [← ih]
      rcases hσ.host_cases (hσ.has_later hnm hkey) with ⟨-, hbegin⟩ | hstride | hworks
      · rw [hbegin]
        rfl
      · exact hstride.settings
      · exact hworks.settings

/-! The turns of a loop. -/

/-- The greatest value of the counter of ticks. -/
def Ticking.most : Nat :=
  Nat.pow 2 32 - 1

/-- A tick is counted, as far as the counter goes. -/
def Ticking.counted (t : Ticking) : Ticking :=
  { t with frame := if t.frame.toNat + 1 < Nat.pow 2 32 then t.frame + 1 else t.frame }

theorem Ticking.counted_frame (t : Ticking) :
    t.counted.frame.toNat = min (t.frame.toNat + 1) most := by
  have hbound := t.frame.toNat_lt
  simp only [counted, most, Nat.pow_eq]
  split
  · simp only [UInt32.toNat_add, UInt32.toNat_one]
    omega
  · omega

namespace Task

/-- The state of the tick that a task of a loop is about. -/
def ticking? (key : Nat) : Task → Option Ticking
  | awaitTick k t | pump k t | flush k t | stream k t | update k t =>
      if k = key then some t else none
  | _ => none

/-- How a loop goes on while its host has not stopped. At its head it counts the tick, and after an
update it remembers the time of it. -/
inductive Turns (w : World) (key : Nat) : Task → Task → Prop where
  | head (t : Ticking) (hlive : (w.host key).finished = false) :
      Turns w key (.awaitTick key t) (.pump key t.counted)
  | pump (t : Ticking) : Turns w key (.pump key t) (.flush key t)
  | flush (t : Ticking) : Turns w key (.flush key t) (.stream key t)
  | stream (t : Ticking) : Turns w key (.stream key t) (.update key t)
  | update (t : Ticking) : Turns w key (.update key t) (.awaitTick key { t with last := w.clock })

variable {w : World} {o : Outcome} {key : Nat} {origin : String}

/-- A loop takes its turn, or it is left because its host has stopped. -/
theorem Loops.turns {x : Task} (hx : Loops key origin x) :
    (react w o x).next = [.close key origin] ∨
      ∃ before y, (react w o x).next = before ++ [y] ∧ Turns w key x y := by
  cases hx with
  | awaitTick t horigin =>
      cases hlive : (w.host key).finished with
      | true => exact .inl (by simp [react, awaitNext, hlive, horigin])
      | false =>
          refine .inr ⟨[], _, ?_, .head t hlive⟩
          simp [react, awaitNext, hlive, Ticking.counted]
  | pump t horigin =>
      simp only [react]
      split
      · exact .inl (by rw [horigin])
      · exact .inr ⟨[.drain key], _, rfl, .pump t⟩
  | flush t horigin =>
      simp only [react]
      split
      · exact .inl (by rw [horigin])
      · exact .inr ⟨[], _, rfl, .flush t⟩
  | stream t horigin =>
      simp only [react]
      split
      · exact .inl (by rw [horigin])
      · exact .inr ⟨[], _, rfl, .stream t⟩
  | update t horigin =>
      simp only [react, sendUpdate]
      split
      · exact .inr ⟨[], _, rfl, .update t⟩
      · exact .inr ⟨[.notify key _ _], _, rfl, .update t⟩

end Task

/-! The account that a loop keeps. -/

/-- The loop of a run that started in step `s` is under way. -/
def Looping (σ : Nat → Machine) (key s n : Nat) : Prop :=
  s < n ∧ ∃ origin rest, Executes σ s (.startTicking key origin) rest ∧
    ∀ i, s < i → i ≤ n → ∃ x, Task.Loops key origin x ∧ x :: rest <:+ (σ i).agenda

/-- The loop of a run starts a tick at moment `k`. -/
def TickAt (σ : Nat → Machine) (key n k : Nat) : Prop :=
  k = n ∧ Ticks σ key n

/-- A run sends an update, with the time that has passed since the last one or since its loop has
started. -/
def SendsUpdate (σ : Nat → Machine) (key n elapsed : Nat) : Prop :=
  ∃ t rest, Executes σ n (.update key t) rest ∧ ((σ n).world.host key).finished = false ∧
    t.last + elapsed = (σ n).world.clock

/-- The interval at which a host ticks. -/
def tickInterval (σ : Nat → Machine) (key n : Nat) : Nat :=
  ((σ n).world.host key).settings.tickInterval

/-- What the state of the tick tells about a loop that started in step `s`, has started the ticks
and has sent updates with the deltas. -/
structure Account (σ : Nat → Machine) (key s n : Nat) (ticks deltas : List Nat) (t : Ticking) :
    Prop where
  start : t.start = (σ s).world.clock
  frame : t.frame.toNat = min ticks.length Ticking.most
  last : ((σ n).world.host key).finished = true ∨ t.last = (σ s).world.clock + deltas.sum
  past : t.last ≤ (σ n).world.clock
  /-- The latest tick was due. -/
  due : ticks ≠ [] → (σ s).world.clock +
    tickInterval σ key s * min (ticks.length - 1) Ticking.most ≤ (σ n).world.clock

section Loop

variable {σ : Nat → Machine} {key s n : Nat} {x y : Task} {rest : List Task} {origin : String}

theorem SendsUpdate.unique {elapsed elapsed' : Nat} (h : SendsUpdate σ key n elapsed)
    (h' : SendsUpdate σ key n elapsed') : elapsed' = elapsed := by
  obtain ⟨t, rest, hexec, -, hsum⟩ := h
  obtain ⟨t', rest', hexec', -, hsum'⟩ := h'
  cases (hexec.unique hexec').1
  omega

theorem Looping.has (h : Looping σ key s n) (hσ : Behavior σ) : (σ s).world.Has key := by
  obtain ⟨-, origin, rest, hstart, -⟩ := h
  exact (hσ.sound s).head hstart.agenda key rfl

namespace Behavior

variable (hσ : Behavior σ)

include hσ

/-- In one step the loop waits at its task, or it takes its turn. -/
theorem turns (hx : Task.Loops key origin x) (hy : Task.Loops key origin y)
    (hxs : x :: rest <:+ (σ n).agenda) (hys : y :: rest <:+ (σ (n + 1)).agenda) :
    y = x ∧ ¬ Executes σ n x rest ∨ Executes σ n x rest ∧ Task.Turns (σ n).world key x y := by
  have hcrashed := hσ.uncrashed_of_suffix hys
  by_cases hexec : Executes σ n x rest
  · right
    refine ⟨hexec, ?_⟩
    rw [after hexec hcrashed] at hys
    rcases hx.turns (w := (σ n).world) (o := (σ n).outcome) with hclose | ⟨before, z, hnext, hturns⟩
    · rw [hclose] at hys
      cases Task.same_place hys (List.suffix_append [] _)
      cases hy
    · rw [hnext, List.append_assoc] at hys
      cases Task.same_place hys (List.suffix_append before _)
      exact hturns
  · left
    refine ⟨?_, hexec⟩
    rcases (hσ.next n).suffix (Task.isPerform_of_inside hx.inside) hcrashed hxs with
      ⟨hagenda, hstep⟩ | hstays
    · exact absurd ⟨hagenda, hstep⟩ hexec
    · exact Task.same_place hys hstays

/-- What is executed of a run is what its loop stands at. -/
theorem executes_inside (hx : x.part key = .inside) (hxs : x :: rest <:+ (σ n).agenda)
    {below : List Task} (hy : y.part key = .inside) (hexec : Executes σ n y below) :
    y = x ∧ Executes σ n x rest := by
  have hplace := hσ.inside_unique hx hy hxs (suffix_of_executes hexec)
  cases hplace
  exact ⟨rfl, hexec⟩

/-- A loop that is under way does not begin a run of its host. -/
theorem kept_finished (hx : Task.Loops key origin x) (hxs : x :: rest <:+ (σ n).agenda)
    (hfinished : ((σ n).world.host key).finished = true) :
    ((σ (n + 1)).world.host key).finished = true := by
  apply hσ.finished_step (hσ.has_of_inside hx.inside hxs) ?_ hfinished
  rintro ⟨below, hbegin⟩
  exact hσ.not_begin hx.inside hxs hbegin.agenda

/-- Only the head of a loop starts a tick. -/
theorem head_of_tick (hx : Task.Loops key origin x) (hxs : x :: rest <:+ (σ n).agenda)
    (hticks : Ticks σ key n) : ∃ t, x = .awaitTick key t ∧ Executes σ n x rest := by
  obtain ⟨t, u, below, hexec, -⟩ := hticks
  obtain ⟨heq, hexec'⟩ := hσ.executes_inside hx.inside hxs (y := .awaitTick key t)
    (by simp [Task.part]) hexec
  exact ⟨t, heq.symm, hexec'⟩

/-- Only the update of a loop sends one. -/
theorem update_of_sends {elapsed : Nat} (hx : Task.Loops key origin x)
    (hxs : x :: rest <:+ (σ n).agenda) (hsends : SendsUpdate σ key n elapsed) :
    ∃ t, x = .update key t ∧ Executes σ n x rest ∧ ((σ n).world.host key).finished = false ∧
      t.last + elapsed = (σ n).world.clock := by
  obtain ⟨t, below, hexec, hlive, hsum⟩ := hsends
  obtain ⟨heq, hexec'⟩ := hσ.executes_inside hx.inside hxs (y := .update key t)
    (by simp [Task.part]) hexec
  exact ⟨t, heq.symm, hexec', hlive, hsum⟩

end Behavior

variable {ticks deltas : List Nat} {t : Ticking}

/-- While the loop stands still its account is right. -/
theorem Account.later (haccount : Account σ key s n ticks deltas t) (hσ : Behavior σ)
    (hfinished : ((σ n).world.host key).finished = true →
      ((σ (n + 1)).world.host key).finished = true) :
    Account σ key s (n + 1) ticks deltas t := by
  have hmono := hσ.clock_mono (Nat.le_succ n)
  exact ⟨haccount.start, haccount.frame, haccount.last.imp hfinished id,
    Nat.le_trans haccount.past hmono, fun hsome => Nat.le_trans (haccount.due hsome) hmono⟩

/-- How long the head of a loop waits. -/
theorem Behavior.clock_of_head (hexec : Executes σ n (.awaitTick key t) rest)
    (hlive : ((σ n).world.host key).finished = false) : (σ (n + 1)).world.clock =
      max (σ n).world.clock (t.start + tickInterval σ key n * t.frame.toNat) := by
  rw [world_after hexec]
  simp [Task.react, Task.awaitNext, hlive, tickInterval]

/-- The head of a loop enters a tick in the account. -/
theorem Account.counted (haccount : Account σ key s n ticks deltas t) (hσ : Behavior σ)
    (hhas : (σ s).world.Has key) (hsn : s < n) (hexec : Executes σ n (.awaitTick key t) rest)
    (hlive : ((σ n).world.host key).finished = false) :
    Account σ key s (n + 1) (ticks ++ [n]) deltas t.counted where
  start := haccount.start
  frame := by
    rw [Ticking.counted_frame, haccount.frame, List.length_append, List.length_singleton]
    omega
  last := by
    rcases haccount.last with hfinished | hsum
    · rw [hlive] at hfinished
      cases hfinished
    · exact .inr hsum
  past := Nat.le_trans haccount.past (hσ.clock_mono (Nat.le_succ n))
  due _ := by
    have hclock := Behavior.clock_of_head hexec hlive
    rw [haccount.start, haccount.frame, tickInterval, hσ.settings (Nat.le_of_lt hsn) hhas] at hclock
    rw [hclock, List.length_append, List.length_singleton, Nat.add_sub_cancel]
    exact Nat.le_max_right _ _

/-- The update of a loop enters the time since the last one in the account. -/
theorem Account.updated (haccount : Account σ key s n ticks deltas t) (hσ : Behavior σ)
    (hlive : ((σ n).world.host key).finished = false) :
    Account σ key s (n + 1) ticks (deltas ++ [(σ n).world.clock - t.last])
      { t with last := (σ n).world.clock } where
  start := haccount.start
  frame := haccount.frame
  last := by
    have hsum : t.last = (σ s).world.clock + deltas.sum := by
      rcases haccount.last with hfinished | hsum
      · rw [hlive] at hfinished
        cases hfinished
      · exact hsum
    have hpast := haccount.past
    refine .inr ?_
    rw [List.sum_append, List.sum_singleton]
    dsimp only
    omega
  past := hσ.clock_mono (Nat.le_succ n)
  due hsome := Nat.le_trans (haccount.due hsome) (hσ.clock_mono (Nat.le_succ n))

/-- A turn of the loop is entered in its account. -/
theorem Account.turn (haccount : Account σ key s n ticks deltas t) (hσ : Behavior σ)
    (hhas : (σ s).world.Has key) (hsn : s < n) (hticks : Log (TickAt σ key) s n ticks)
    (hdeltas : Log (SendsUpdate σ key) s n deltas) (hx : Task.Loops key origin x)
    (hticking : x.ticking? key = some t) (hexec : Executes σ n x rest)
    (hturns : Task.Turns (σ n).world key x y) :
    ∃ t' ticks' deltas', y.ticking? key = some t' ∧ Log (TickAt σ key) s (n + 1) ticks' ∧
      Log (SendsUpdate σ key) s (n + 1) deltas' ∧ Account σ key s (n + 1) ticks' deltas' t' := by
  have hplace := Behavior.suffix_of_executes hexec
  have hlater := haccount.later hσ (hσ.kept_finished hx hplace)
  have huntold : (∀ t, x ≠ .awaitTick key t) → Log (TickAt σ key) s (n + 1) ticks := by
    intro hother
    refine hticks.quiet fun k hk => ?_
    obtain ⟨u, heq, -⟩ := hσ.head_of_tick hx hplace hk.2
    exact hother u heq
  have hunsent : (∀ t, x ≠ .update key t) → Log (SendsUpdate σ key) s (n + 1) deltas := by
    intro hother
    refine hdeltas.quiet fun elapsed hsends => ?_
    obtain ⟨u, heq, -⟩ := hσ.update_of_sends hx hplace hsends
    exact hother u heq
  cases hturns with
  | pump u | flush u | stream u =>
      exact ⟨t, ticks, deltas, hticking, huntold nofun, hunsent nofun, hlater⟩
  | head u hlive =>
      obtain rfl : u = t := by simpa [Task.ticking?] using hticking
      have htick : Ticks σ key n := hσ.ticks_of_live hexec hlive
      exact ⟨u.counted, ticks ++ [n], deltas, if_pos rfl,
        hticks.event ⟨rfl, htick⟩ (fun k hk => hk.1), hunsent nofun,
        haccount.counted hσ hhas hsn hexec hlive⟩
  | update u =>
      obtain rfl : u = t := by simpa [Task.ticking?] using hticking
      cases hlive : ((σ n).world.host key).finished with
      | true =>
          refine ⟨_, ticks, deltas, if_pos rfl, huntold nofun, ?_, haccount.start, haccount.frame,
            .inl (hσ.kept_finished hx hplace hlive), hσ.clock_mono (Nat.le_succ n), hlater.due⟩
          refine hdeltas.quiet fun elapsed hsends => ?_
          obtain ⟨-, -, -, hopen, -⟩ := hσ.update_of_sends hx hplace hsends
          rw [hlive] at hopen
          cases hopen
      | false =>
          have hsends : SendsUpdate σ key n ((σ n).world.clock - u.last) := by
            refine ⟨u, rest, hexec, hlive, ?_⟩
            have hpast := haccount.past
            omega
          exact ⟨_, ticks, deltas ++ [(σ n).world.clock - u.last], if_pos rfl, huntold nofun,
            hdeltas.event hsends fun other => hsends.unique, haccount.updated hσ hlive⟩

/-- A loop that is under way stands at one of its tasks, and the state of the tick accounts for all
ticks and updates since it started. -/
theorem Looping.account (h : Looping σ key s n) (hσ : Behavior σ) :
    ∃ origin rest x t ticks deltas, Task.Loops key origin x ∧ x :: rest <:+ (σ n).agenda ∧
      x.ticking? key = some t ∧ Log (TickAt σ key) s n ticks ∧
      Log (SendsUpdate σ key) s n deltas ∧ Account σ key s n ticks deltas t := by
  have hhas := h.has hσ
  obtain ⟨hsn, origin, rest, hstart, hgoes⟩ := h
  suffices hstands : ∃ x t ticks deltas, Task.Loops key origin x ∧ x :: rest <:+ (σ n).agenda ∧
      x.ticking? key = some t ∧ Log (TickAt σ key) s n ticks ∧
      Log (SendsUpdate σ key) s n deltas ∧ Account σ key s n ticks deltas t by
    obtain ⟨x, t, ticks, deltas, hstands⟩ := hstands
    exact ⟨origin, rest, x, t, ticks, deltas, hstands⟩
  induction hsn with
  | refl =>
      obtain ⟨y, hy, hys⟩ := hgoes (s + 1) (Nat.lt_succ_self s) (Nat.le_refl _)
      have hagenda := Behavior.after hstart (hσ.uncrashed_of_suffix hys)
      have hfirst : .awaitTick key ⟨origin, (σ s).world.clock, (σ s).world.clock, 0⟩ :: rest <:+
          (σ (s + 1)).agenda := Task.suffix_of_eq hagenda
      refine ⟨_, _, [], [], .awaitTick _ rfl, hfirst, if_pos rfl, ?_, ?_, rfl, rfl, .inr rfl,
        hσ.clock_mono (Nat.le_succ s), fun hnone => absurd rfl hnone⟩
      · refine Log.start.quiet fun k hk => ?_
        obtain ⟨-, t, u, below, hexec, -⟩ := hk
        cases (hexec.unique hstart).1
      · refine Log.start.quiet fun elapsed hsends => ?_
        obtain ⟨t, below, hexec, -⟩ := hsends
        cases (hexec.unique hstart).1
  | @step n hsn ih =>
      obtain ⟨x, t, ticks, deltas, hx, hxs, hticking, hticks, hdeltas, haccount⟩ :=
        ih fun i hsi hin => hgoes i hsi (Nat.le_succ_of_le hin)
      obtain ⟨y, hy, hys⟩ := hgoes (n + 1) (Nat.lt_succ_of_lt hsn) (Nat.le_refl _)
      rcases hσ.turns hx hy hxs hys with ⟨rfl, hwaits⟩ | ⟨hexec, hturns⟩
      · refine ⟨y, t, ticks, deltas, hy, hys, hticking, hticks.quiet fun k hk => ?_,
          hdeltas.quiet fun elapsed hsends => ?_, haccount.later hσ (hσ.kept_finished hx hxs)⟩
        · obtain ⟨-, -, hexec⟩ := hσ.head_of_tick hx hxs hk.2
          exact hwaits hexec
        · obtain ⟨-, -, hexec, -⟩ := hσ.update_of_sends hx hxs hsends
          exact hwaits hexec
      · obtain ⟨t', ticks', deltas', hafter⟩ := haccount.turn hσ hhas hsn hticks hdeltas hx
          hticking hexec hturns
        exact ⟨y, t', ticks', deltas', hy, hys, hafter⟩

/-- What is executed of a loop goes by its account. -/
theorem Looping.account_of_executes (h : Looping σ key s n) (hσ : Behavior σ)
    (hx : x.part key = .inside) (hexec : Executes σ n x rest) (hticking : x.ticking? key = some t)
    (hticks : Log (TickAt σ key) s n ticks) (hdeltas : Log (SendsUpdate σ key) s n deltas) :
    Account σ key s n ticks deltas t := by
  obtain ⟨origin, below, y, t', ticks', deltas', hy, hys, hticking', hticks', hdeltas', haccount⟩ :=
    h.account hσ
  obtain ⟨rfl, -⟩ := hσ.executes_inside hy.inside hys hx hexec
  obtain rfl := hticks.unique hticks'
  obtain rfl := hdeltas.unique hdeltas'
  cases hticking.symm.trans hticking'
  exact haccount

end Loop

end TickHost
