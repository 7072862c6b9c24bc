import TickHost.Proofs.Holders

/-!
The commands that wait for a host. They are carried out one after the other, in the order in which
they were posted, and each once. A command is known by its turn: as many were taken before it as
had been posted before it.
-/

namespace TickHost

open World Machine

/-- The commands that wait for a host at a moment. -/
def waiting (σ : Nat → Machine) (key n : Nat) : List Command :=
  ((σ n).world.host key).commands

/-- How many commands a host has taken before step `n`. -/
def takenSoFar (σ : Nat → Machine) (key : Nat) : Nat → Nat
  | 0 => 0
  | n + 1 =>
      if (waiting σ key (n + 1)).length < (waiting σ key n).length then takenSoFar σ key n + 1
      else takenSoFar σ key n

/-- How many commands were posted to a host before step `n`. -/
def postedSoFar (σ : Nat → Machine) (key n : Nat) : Nat :=
  takenSoFar σ key n + (waiting σ key n).length

/-- What is to be done to carry out a command. -/
def Command.work (key : Nat) : Command → List Task
  | .nodeKilled _ | .avatarData _ | .sound _ => []
  | .includeReady urls callback results =>
      [.batch key urls results, .call key callback [], .report key]
  | .task handle actions => [.perform ⟨some key, handle, .host⟩ actions]

/-- In this step a command is posted to a host. -/
def Posts (σ : Nat → Machine) (key c : Nat) (command : Command) : Prop :=
  waiting σ key (c + 1) = waiting σ key c ++ [command]

/-- In step `d` a host takes the command that was posted to it in step `c`. -/
structure Takes (σ : Nat → Machine) (key c d : Nat) : Prop where
  drains : ∃ rest, Executes σ d (.drain key) rest
  some : waiting σ key d ≠ []
  turn : takenSoFar σ key d = postedSoFar σ key c

/-- At moment `n` a pump is at work on the commands of its host. -/
def Pumping (σ : Nat → Machine) (key : Nat) (rest : List Task) (n : Nat) : Prop :=
  .drain key :: rest <:+ (σ n).agenda

/-- A pump has carried out all the commands of its host. -/
def Drained (σ : Nat → Machine) (key p : Nat) : Prop :=
  (∃ rest, Executes σ p (.drain key) rest) ∧ waiting σ key p = []

/-- Pumps can be read off the agendas. -/
theorem Machine.drains_trace {m : Machine} {key n : Nat}
    (hdrains : (m.trace n).agenda.head?.any (fun
      | .drain other => other = key
      | _ => false) = true) : ∃ rest, Executes m.trace n (.drain key) rest := by
  obtain ⟨t, rest, hexec, htest⟩ := executes_trace_iff.mpr hdrains
  split at htest
  · exact ⟨rest, of_decide_eq_true htest ▸ hexec⟩
  · cases htest

namespace Task

variable {w : World} {o : Outcome} {key : Nat}

/-- A command that is taken is carried out, and then draining goes on. -/
theorem drain_works {command : Command} {rest : List Command}
    (hcommands : (w.host key).commands = command :: rest) :
    (react w o (.drain key)).next = command.work key ++ [drain key] := by
  simp only [react, drainOne, hcommands]
  cases command <;> rfl

/-- Draining takes the first command, if there is one. -/
theorem drain_commands (w : World) (o : Outcome) (key : Nat) :
    ((react w o (.drain key)).world.host key).commands = (w.host key).commands.tail := by
  cases hcommands : (w.host key).commands with
  | nil => simp [react, drainOne, hcommands]
  | cons command rest =>
      simp only [react, drainOne, hcommands]
      cases command <;> simp [updateStreamer, World.note, World.host, World.updateHost,
        World.setHost, Store.get_put]

/-- Only a pump takes commands from those that wait. -/
theorem drain_of_touches {t : Task} (hlinked : w.Linked) (hkey : w.Has key)
    (h : t.touches w (.queue key) = true) : t = .drain key := by
  rcases touches_others h nofun nofun nofun nofun with ⟨_, _, _, _, rfl⟩ | ⟨_, deed, _, -, hdeed⟩ |
    hplain
  · obtain rfl : key = w.hosts.fresh := of_decide_eq_true h
    exact absurd hkey hlinked.fresh
  · cases deed <;> cases hdeed
  · cases t with
    | drain host => exact congrArg drain (of_decide_eq_true (p := key = host) h).symm
    | _ => first | cases hplain; done | cases h

end Task

theorem takenSoFar_mono (σ : Nat → Machine) (key : Nat) {n m : Nat} (hnm : n ≤ m) :
    takenSoFar σ key n ≤ takenSoFar σ key m := by
  induction hnm with
  | refl => exact Nat.le_refl _
  | @step m _ ih =>
      rw [takenSoFar]
      split <;> omega

/-- A host takes one command at a time. -/
theorem Takes.next {σ : Nat → Machine} {key c d : Nat} (htakes : Takes σ key c d) :
    takenSoFar σ key (d + 1) = takenSoFar σ key d + 1 := by
  obtain ⟨⟨rest, hexec⟩, hsome, -⟩ := htakes
  rw [takenSoFar, if_pos]
  have hafter : waiting σ key (d + 1) = (waiting σ key d).tail := by
    rw [waiting, Behavior.world_after hexec]
    exact Task.drain_commands _ _ _
  rw [hafter, List.length_tail]
  have hpositive := List.length_pos_iff.mpr hsome
  omega

/-- A command is taken once. -/
theorem Takes.unique {σ : Nat → Machine} {key c d d' : Nat} (htakes : Takes σ key c d)
    (htakes' : Takes σ key c d') : d = d' := by
  have hnot : ∀ {i j}, Takes σ key c i → Takes σ key c j → ¬ i < j := by
    intro i j hi hj hij
    have hmono := takenSoFar_mono σ key (Nat.succ_le_of_lt hij)
    rw [Nat.succ_eq_add_one, hi.next, hi.turn, hj.turn] at hmono
    omega
  exact Nat.le_antisymm (Nat.le_of_not_lt (hnot htakes' htakes))
    (Nat.le_of_not_lt (hnot htakes htakes'))

/-- Nothing is taken in the step in which something is posted. -/
theorem Posts.taken {σ : Nat → Machine} {key c : Nat} {command : Command}
    (hposts : Posts σ key c command) : takenSoFar σ key (c + 1) = takenSoFar σ key c := by
  have hgrown : waiting σ key c <+: waiting σ key (c + 1) := hposts ▸ List.prefix_append _ _
  rw [takenSoFar, if_neg (Nat.not_lt.mpr hgrown.length_le)]

theorem Posts.posted {σ : Nat → Machine} {key c : Nat} {command : Command}
    (hposts : Posts σ key c command) : postedSoFar σ key (c + 1) = postedSoFar σ key c + 1 := by
  rw [postedSoFar, hposts.taken, show waiting σ key (c + 1) = _ from hposts, postedSoFar,
    List.length_append]
  rfl

namespace Behavior

variable {σ : Nat → Machine} (hσ : Behavior σ) {key c d n m : Nat} {command : Command}

include hσ

/-- A host that drains is alive. -/
theorem alive_of_drain {rest : List Task} (hexec : Executes σ n (.drain key) rest) :
    ((σ n).world.host key).alive = true := by
  obtain ⟨p, ticking, below, -, -, rfl, -⟩ := hσ.pump_begun rfl (suffix_of_executes hexec)
  have hflush : (Task.flush key ticking).part key = .inside := by simp [Task.part]
  apply hσ.alive_of_inside hflush
  rw [hexec.agenda]
  exact List.suffix_cons _ _

/-- While a host is alive commands are added to those that wait, or the first is taken. -/
theorem waiting_step (hkey : (σ n).world.Has key)
    (halive : ((σ (n + 1)).world.host key).alive = true) :
    waiting σ key n <+: waiting σ key (n + 1) ∧ takenSoFar σ key (n + 1) = takenSoFar σ key n ∨
      ∃ command rest, Executes σ n (.drain key) rest ∧
        waiting σ key n = command :: waiting σ key (n + 1) ∧
        takenSoFar σ key (n + 1) = takenSoFar σ key n + 1 := by
  have hsame : waiting σ key n <+: waiting σ key (n + 1) →
      takenSoFar σ key (n + 1) = takenSoFar σ key n := by
    intro hgrown
    rw [takenSoFar, if_neg (Nat.not_lt.mpr hgrown.length_le)]
  rcases hσ.keeps (.queue key) n with hkept | ⟨t, rest, hexec, htouches⟩
  · have hgrown := (hkept halive).2
    exact .inl ⟨hgrown, hsame hgrown⟩
  · obtain rfl := Task.drain_of_touches (hσ.sound n).linked hkey htouches
    have hafter : waiting σ key (n + 1) = (waiting σ key n).tail := by
      rw [waiting, world_after hexec]
      exact Task.drain_commands _ _ _
    cases hwaiting : waiting σ key n with
    | nil =>
        left
        rw [hwaiting] at hafter hsame
        rw [hafter] at hsame ⊢
        exact ⟨List.prefix_rfl, hsame List.prefix_rfl⟩
    | cons first others =>
        rw [hwaiting, List.tail_cons] at hafter
        refine .inr ⟨first, rest, hexec, by rw [hafter], ?_⟩
        rw [takenSoFar, hafter, hwaiting, if_pos (by simp)]

theorem posted_mono (hnm : n ≤ m) (hkey : (σ n).world.Has key)
    (halive : ((σ m).world.host key).alive = true) : postedSoFar σ key n ≤ postedSoFar σ key m := by
  induction hnm with
  | refl => exact Nat.le_refl _
  | @step m hnm ih =>
      have hhas := hσ.has_later hnm hkey
      refine Nat.le_trans (ih (hσ.alive_before (Nat.le_succ m) hhas halive)) ?_
      rcases hσ.waiting_step hhas halive with ⟨hgrown, htaken⟩ |
        ⟨command, rest, -, hwaiting, htaken⟩
      · have hlength := hgrown.length_le
        simp only [postedSoFar, Nat.succ_eq_add_one, htaken]
        omega
      · simp only [postedSoFar, Nat.succ_eq_add_one, htaken, hwaiting, List.length_cons]
        omega

/-- A command that was posted waits in its place, or it was taken when its turn came. -/
theorem waits_or_taken (hposts : Posts σ key c command) (hkey : (σ c).world.Has key) (hcn : c < n)
    (halive : ((σ n).world.host key).alive = true) :
    (takenSoFar σ key n ≤ postedSoFar σ key c ∧
        (waiting σ key n)[postedSoFar σ key c - takenSoFar σ key n]? = some command) ∨
      ∃ d, c < d ∧ d < n ∧ Takes σ key c d ∧ (waiting σ key d).head? = some command := by
  induction hcn with
  | refl =>
      left
      simp only [Nat.succ_eq_add_one, hposts.taken, postedSoFar, Nat.le_add_right,
        Nat.add_sub_cancel_left, true_and]
      rw [hposts]
      exact List.getElem?_concat_length
  | @step n hcn ih =>
      have hhas := hσ.has_later (Nat.le_of_succ_le hcn) hkey
      rcases ih (hσ.alive_before (Nat.le_succ n) hhas halive) with ⟨hturn, hplace⟩ |
        ⟨d, hcd, hdn, htaken⟩
      · rcases hσ.waiting_step hhas halive with ⟨⟨added, hadded⟩, hsame⟩ |
          ⟨first, rest, hexec, hwaiting, hnext⟩
        · left
          have hplace' := (List.getElem?_eq_some_iff.mp hplace).1
          rw [hsame, ← hadded, List.getElem?_append_left hplace']
          exact ⟨hturn, hplace⟩
        · rcases Nat.lt_or_eq_of_le hturn with hlater | hnow
          · left
            have hindex : postedSoFar σ key c - takenSoFar σ key n =
                postedSoFar σ key c - (takenSoFar σ key n + 1) + 1 := by omega
            rw [hwaiting, hindex, List.getElem?_cons_succ] at hplace
            rw [hnext]
            exact ⟨hlater, hplace⟩
          · right
            refine ⟨n, hcn, Nat.lt_succ_self n, ⟨⟨rest, hexec⟩, by simp [hwaiting], hnow⟩, ?_⟩
            rw [hnow, Nat.sub_self] at hplace
            rw [← hplace, List.head?_eq_getElem?]
      · exact .inr ⟨d, hcd, Nat.lt_succ_of_lt hdn, htaken⟩

/-- What is taken is what was posted. -/
theorem command_of_takes (hposts : Posts σ key c command) (hkey : (σ c).world.Has key)
    (hcd : c < d) (htakes : Takes σ key c d) : (waiting σ key d).head? = some command := by
  obtain ⟨rest, hexec⟩ := htakes.drains
  rcases hσ.waits_or_taken hposts hkey hcd (hσ.alive_of_drain hexec) with ⟨-, hplace⟩ |
    ⟨earlier, -, hbefore, hother, -⟩
  · rw [htakes.turn, Nat.sub_self] at hplace
    rw [← hplace, List.head?_eq_getElem?]
  · exact absurd (htakes.unique hother) (Nat.ne_of_gt hbefore)

/-- Every command is carried out by the next pump that is through with the commands. -/
theorem taken_before (hposts : Posts σ key c command) (hkey : (σ c).world.Has key) (hcn : c < n)
    (hdrained : Drained σ key n) : ∃ d, c < d ∧ d < n ∧ Takes σ key c d := by
  obtain ⟨⟨rest, hexec⟩, hnothing⟩ := hdrained
  rcases hσ.waits_or_taken hposts hkey hcn (hσ.alive_of_drain hexec) with ⟨-, hplace⟩ |
    ⟨d, hcd, hdn, htakes, -⟩
  · rw [hnothing] at hplace
    cases hplace
  · exact ⟨d, hcd, hdn, htakes⟩

/-- A pump goes on until no commands wait. -/
theorem drained_of_through {a : Nat} {rest : List Task} (hpumping : Pumping σ key rest a)
    (ham : a ≤ m) (hthrough : ¬ Pumping σ key rest m) (hcrashed : (σ m).world.crashed = false) :
    ∃ p, a ≤ p ∧ p < m ∧ Drained σ key p := by
  induction ham with
  | refl => exact absurd hpumping hthrough
  | @step m ham ih =>
      have hbefore := hσ.uncrashed (Nat.le_succ m) hcrashed
      by_cases hstill : Pumping σ key rest m
      · obtain ⟨p, hmp, hpm, hexec, -⟩ :=
          hσ.popped rfl hstill (Nat.le_succ m) hcrashed hthrough
        obtain rfl := Nat.le_antisymm hmp (Nat.le_of_lt_succ hpm)
        refine ⟨m, ham, hpm, ⟨rest, hexec⟩, ?_⟩
        rcases hwaiting : waiting σ key m with _ | ⟨command, others⟩
        · rfl
        · refine absurd ⟨command.work key, ?_⟩ hthrough
          rw [after hexec hcrashed, Task.drain_works hwaiting, List.append_assoc]
          rfl
      · obtain ⟨p, hap, hpm, hdrained⟩ := ih hstill hbefore
        exact ⟨p, hap, Nat.lt_succ_of_lt hpm, hdrained⟩

/-- Commands are taken in the order in which they were posted. -/
theorem taken_in_order {c' d' : Nat} (hposts : Posts σ key c command) (hkey : (σ c).world.Has key)
    (hcc : c < c') (htakes : Takes σ key c d) (htakes' : Takes σ key c' d') (hcd : c' ≤ d') :
    d < d' := by
  obtain ⟨rest, hexec⟩ := htakes'.drains
  have hhas := hσ.has_later (Nat.le_of_lt hcc) hkey
  have halive := hσ.alive_before hcd hhas (hσ.alive_of_drain hexec)
  have hmono := hσ.posted_mono hcc (hσ.has hkey) halive
  rw [Nat.succ_eq_add_one, hposts.posted] at hmono
  rcases Nat.lt_or_ge d d' with hdd | hdd
  · exact hdd
  · have hback := takenSoFar_mono σ key hdd
    rw [htakes.turn, htakes'.turn] at hback
    omega

end Behavior

end TickHost
