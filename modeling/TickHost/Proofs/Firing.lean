import TickHost.Proofs.Alarms
import TickHost.Proofs.Drains

/-!
The round of a pump over the timers that are due. The list is made when the pump is through with
the commands, and then the table changes under it: every callback may cancel timers, start others
in the slots that became free, sleep, or stop the host. The round goes through the list in order
all the same. A timer that was listed keeps its handle until it is cancelled, and a new one never
gets a handle that is on the list, so each turn meets the timer that was listed or none.
-/

namespace TickHost

open World Machine

/-- A list is that of the live timers whose deadline has come: each stands in it once, by deadline
and among equal deadlines by slot. -/
structure Timers.Lists {α : Type} (t : Timers α) (now : Nat) (ids : List TimerId) : Prop where
  mem : ∀ id, id ∈ ids ↔ ∃ timer, t.find? id = some timer ∧ timer.deadline ≤ now
  nodup : ids.Nodup
  sorted : ids.Pairwise fun a b => ∀ x y, t.find? a = some x → t.find? b = some y →
    Timers.Precedes (a, x) (b, y)

theorem Timers.due_lists {α : Type} (t : Timers α) (now : Nat) : t.Lists now (t.due now) where
  mem _ := mem_due
  nodup := t.due_nodup now
  sorted := by
    rw [due_eq, List.pairwise_map]
    apply (t.queue_pairwise now).imp_of_mem
    intro a b ha hb hprecedes x y hx hy
    have hfoundA := (mem_queue.mp ha).1
    have hfoundB := (mem_queue.mp hb).1
    rw [hx] at hfoundA
    rw [hy] at hfoundB
    cases hfoundA
    cases hfoundB
    exact hprecedes

/-- Code that starts timers takes none away. -/
theorem World.Started.retains {w w' : World} {actor : Option Nat} {key : Nat} {id : TimerId}
    (h : w.Started actor w') (htidy : (w.host key).timers.Tidy)
    (hlive : (w.host key).timers.contains id = true) :
    (w'.host key).timers.contains id = true := by
  cases h with
  | calm hcalm => rwa [hcalm.timers key]
  | starts k callback milliseconds once other _ hid hcalm =>
      obtain ⟨-, -, -, hset⟩ := setTimer_some hid
      rw [hcalm.timers key, hset, host_updateHost]
      split
      · rename_i heq
        subst heq
        exact Timers.contains_schedule _ _ _ _ _ htidy hlive
      · exact hlive

/-- Firing loses the timer that is fired, if any. -/
theorem Timers.lost_by_fire {α : Type} {t : Timers α} {id other : TimerId} {now : Nat}
    (hlive : t.contains id = true) (hlost : (t.fire other now).2.contains id = false) :
    id = other := by
  apply Decidable.byContradiction
  intro hne
  rw [contains_eq_false] at hlost
  rw [contains, Option.isSome_iff_ne_none] at hlive
  apply hlive
  rcases fire_cases t other now with ⟨-, h⟩ | ⟨timer, htimer, -, h⟩ | ⟨timer, htimer, -, h⟩
  · rwa [h] at hlost
  · rwa [h, find?_release_of_contains (contains_iff.mpr ⟨timer, htimer⟩), if_neg hne] at hlost
  · rwa [h, find?_rearmed htimer, if_neg hne] at hlost

namespace Task

variable {w : World} {key now : Nat} {id : TimerId} {due : List TimerId}

/-- A pump that finds no command lists the timers that are due. -/
theorem react_through (o : Outcome) (hempty : (w.host key).commands = []) :
    react w o (.drain key) =
      ⟨w, o, [.fire key w.clock ((w.host key).timers.due w.clock)]⟩ := by
  simp [react, drainOne, hempty]

/-- Once the host has stopped no timer is fired any more. -/
theorem react_stopped (o : Outcome) (hfinished : (w.host key).finished = true) :
    react w o (.fire key now due) = ⟨w, o, []⟩ := by
  cases due <;> simp [react, fireOne, hfinished]

/-- A timer that is gone is passed over. -/
theorem react_passed (o : Outcome) (hlive : (w.host key).finished = false)
    (hgone : (w.host key).timers.contains id = false) :
    react w o (.fire key now (id :: due)) = ⟨w, o, [.fire key now due]⟩ := by
  simp [react, fireOne, hlive, Timers.fire_stale hgone]

end Task

namespace Behavior

variable {σ : Nat → Machine} (hσ : Behavior σ) {key n : Nat} {id : TimerId}

include hσ

omit hσ in
/-- Whatever takes a timer away does more to the timers than nothing. -/
theorem not_calm_of_lost (hlive : (timersOf σ key n).contains id = true)
    (hlost : (timersOf σ key (n + 1)).contains id = false) {w : World}
    (hsame : (w.host key).timers = timersOf σ key n) : ¬ w.Calm (σ (n + 1)).world := by
  intro hcalm
  rw [timersOf, hcalm.timers key, hsame, hlive] at hlost
  cases hlost

/-- A script that takes a timer away has cleared it. -/
theorem clears_of_lost {scope : Scope} {named : Option String} {timer : String}
    {actions : List Action} {rest : List Task}
    (hexec : Executes σ n (.perform scope (.inScript named (.clear timer) :: actions)) rest)
    (hlive : (timersOf σ key n).contains id = true)
    (hlost : (timersOf σ key (n + 1)).contains id = false) : Clears σ key id n := by
  have hkept : ∀ w : World, (w.host key).timers = timersOf σ key n →
      ¬ w.Calm (σ (n + 1)).world := fun w => not_calm_of_lost hlive hlost
  have hworld := world_after hexec
  rcases Task.perform_calm (o := (σ n).outcome) (hσ.sound n).linked scope
    (.inScript named (.clear timer) :: actions) with hcalm | ⟨_, _, _, k, heq, hactor, hstarts⟩
  · exact absurd (hworld ▸ hcalm) (hkept _ rfl)
  cases heq
  have hdeed : ((σ n).world.doScriptDeed k (named.getD scope.name) (.clear timer)).1.Calm
      (σ (n + 1)).world := by
    rcases Task.startScriptDeed_calm (σ n).world k (named.getD scope.name) (.clear timer) with
      hcalm | ⟨-, hnot⟩
    · rw [hworld]
      exact hstarts ▸ hcalm
    · exact absurd rfl (hnot timer)
  rcases doScriptDeed_clear_cases (σ n).world k (named.getD scope.name) timer with
    hsame | ⟨other, hother⟩
  · exact absurd (hsame ▸ hdeed) (hkept _ rfl)
  rw [doScriptDeed_clear hother] at hdeed
  by_cases hk : k = key
  · subst hk
    have hid : id = other := by
      apply Decidable.byContradiction
      intro hne
      rw [timersOf, hdeed.timers k, host_updateHost, if_pos rfl, Timers.contains,
        Timers.find?_cancel, if_neg hne] at hlost
      rw [timersOf, Timers.contains, hlost] at hlive
      cases hlive
    subst hid
    refine ⟨scope, named, timer, actions, rest, hexec, hactor, hother, ?_⟩
    rw [doScriptDeed_clear hother, ← timersOf, hlive]
  · exact absurd hdeed (hkept _ (by rw [host_updateHost, if_neg hk, timersOf]))

/-- A timer goes because a script clears it, because it rings, or because the run is closed. -/
theorem lost_by (hlive : (timersOf σ key n).contains id = true)
    (hlost : (timersOf σ key (n + 1)).contains id = false) :
    Clears σ key id n ∨ (∃ timer now, Rings σ key id timer now n) ∨
      ∃ origin rest, Executes σ n (.close key origin) rest := by
  have hkept : ∀ w : World, (w.host key).timers = timersOf σ key n →
      ¬ w.Calm (σ (n + 1)).world := fun w => not_calm_of_lost hlive hlost
  have hother : ∀ {k : Nat} {f : Host → Host},
      ((σ n).world.updateHost k f).Calm (σ (n + 1)).world → k = key := by
    intro k f hcalm
    apply Decidable.byContradiction
    intro hk
    exact hkept _ (by rw [host_updateHost, if_neg hk, timersOf]) hcalm
  rcases hσ.cases n with hkeeps | ⟨t, rest, hexec⟩
  · exact absurd (.of_keeps hkeeps) (hkept _ rfl)
  have hsound := hσ.sound n
  have hworld := world_after hexec
  have htends := Task.react_tends (o := (σ n).outcome) hsound.linked t
  rw [← hworld] at htends
  by_cases hscript : ∃ scope named timer actions,
      t = .perform scope (.inScript named (.clear timer) :: actions)
  · obtain ⟨scope, named, timer, actions, rfl⟩ := hscript
    exact .inl (hσ.clears_of_lost hexec hlive hlost)
  cases htends with
  | fires k now other due callback ht hfinished hfire hcalm =>
      obtain rfl := hother hcalm
      subst ht
      rw [timersOf, hcalm.timers k, host_updateHost, if_pos rfl] at hlost
      obtain rfl := Timers.lost_by_fire hlive hlost
      obtain ⟨timer, htimer⟩ := Timers.contains_iff.mp hlive
      exact .inr (.inl ⟨timer, now, ⟨due, rest, hexec⟩, hfinished, htimer⟩)
  | closes k origin ht hcalm =>
      obtain rfl := hother hcalm
      subst ht
      exact .inr (.inr ⟨origin, rest, hexec⟩)
  | tended htended =>
      cases hactor : t.actor? (σ n).world with
      | none =>
          rw [hactor] at htended
          cases htended with
          | calm hcalm => exact absurd hcalm (hkept _ rfl)
          | starts _ _ _ _ _ hnot _ _ | clears _ _ hnot _ => cases hnot
      | some k =>
          have hstarted : (σ n).world.Started (t.actor? (σ n).world) (σ (n + 1)).world := by
            rw [hworld]
            refine Task.react_started hsound.linked ?_ ?_ ?_
            · rintro scope named timer actions rfl
              exact hscript ⟨scope, named, timer, actions, rfl⟩
            · rintro _ _ _ rfl
              cases hactor
            · rintro _ _ rfl
              cases hactor
          have hretained := hstarted.retains ((hσ.history key).tidy n) hlive
          rw [← timersOf, hlost] at hretained
          cases hretained

/-- A timer that is cleared does not ring any more. -/
theorem silent_of_clears {d c : Nat} {timer : Timer Callback} {now : Nat}
    (hlive : (timersOf σ key d).contains id = true) (hdc : d < c) (hclears : Clears σ key id c)
    (hcn : c < n) (hbound : Timers.releases (timersOf σ key) id.slot n <
      Timers.releases (timersOf σ key) id.slot d + UInt32.size) :
    ¬ Rings σ key id timer now n := by
  intro hrings
  have hgone := (hσ.history key).gone_since hlive (Nat.le_succ_of_le (Nat.le_of_lt hdc))
    hclears.cancel.2 hcn hbound
  rw [hrings.contains] at hgone
  cases hgone

end Behavior

/-! ### A round -/

namespace Round

/-- The timers that a pump lists when it is through with the commands in step `d`. -/
def listed (σ : Nat → Machine) (key d : Nat) : List TimerId :=
  (timersOf σ key d).due (σ d).world.clock

/-- What is left of the round when its first `i` timers have had their turns. -/
def left (σ : Nat → Machine) (key d i : Nat) : Task :=
  .fire key (σ d).world.clock ((listed σ key d).drop i)

/-- The round that was begun in step `d`, above the rest of the tick, has not ended since, and turn
`i` is its next one. -/
structure Waits (σ : Nat → Machine) (key d : Nat) (below : List Task) (i n : Nat) : Prop where
  begun : d < n
  short : i ≤ (listed σ key d).length
  stands : left σ key d i :: below <:+ (σ n).agenda
  lasts : ∀ k, d < k → k ≤ n → ∃ due, .fire key (σ d).world.clock due :: below <:+ (σ k).agenda

/-- In step `n` the round takes turn `i`. -/
structure Turn (σ : Nat → Machine) (key d : Nat) (below : List Task) (i n : Nat) : Prop
    extends Waits σ key d below i n where
  executes : Executes σ n (left σ key d i) below

/-- The round ends in step `e`: it goes on with the rest of the tick. -/
structure Over (σ : Nat → Machine) (key d : Nat) (below : List Task) (e : Nat) : Prop where
  turn : ∃ i, Turn σ key d below i e
  rest : (σ (e + 1)).agenda = below

variable {σ : Nat → Machine} {key p d n m i j : Nat} {below : List Task} {id : TimerId}

theorem left_of_lt (hi : i < (listed σ key d).length) :
    left σ key d i = .fire key (σ d).world.clock
      ((listed σ key d)[i] :: (listed σ key d).drop (i + 1)) := by
  rw [left, List.drop_eq_getElem_cons hi]

/-- Only one turn is the next one. -/
theorem Waits.unique (hσ : Behavior σ) (hi : Waits σ key d below i n)
    (hj : Waits σ key d below j n) : i = j := by
  have hsame := (hσ.pump_unique (x := left σ key d i) rfl rfl hi.stands hj.stands).1
  have hlists : (listed σ key d).drop i = (listed σ key d).drop j := (Task.fire.inj hsame).2.2
  have hlengths := congrArg List.length hlists
  rw [List.length_drop, List.length_drop] at hlengths
  have hishort := hi.short
  have hjshort := hj.short
  omega

/-- A turn ends the round, or passes over a timer that is gone, or rings the timer. -/
theorem Turn.takes (hσ : Behavior σ) (h : Turn σ key d below i n) :
    (((σ n).world.host key).finished = true ∨ i = (listed σ key d).length) ∧
        (σ (n + 1)).agenda = below ∨
      ((σ n).world.host key).finished = false ∧
        (∃ id, (listed σ key d)[i]? = some id ∧ (timersOf σ key n).contains id = false) ∧
        (σ (n + 1)).agenda = left σ key d (i + 1) :: below ∨
      ∃ id timer, (listed σ key d)[i]? = some id ∧ Rings σ key id timer (σ d).world.clock n ∧
        (σ (n + 1)).agenda =
          .call key timer.callback [] :: .report key :: left σ key d (i + 1) :: below := by
  have hafter : ∀ {t : Task} {w : World} {next : List Task}, Executes σ n t below →
      t.react (σ n).world (σ n).outcome = ⟨w, (σ n).outcome, next⟩ →
      w.crashed = (σ n).world.crashed → (σ (n + 1)).agenda = next ++ below := by
    intro t w next hexec hreact hcrashed
    rw [Behavior.after hexec, hreact]
    rw [Behavior.world_after hexec, hreact, hcrashed]
    exact (hσ.sound n).uncrashed hexec.agenda
  have hexec := h.executes
  cases hfinished : ((σ n).world.host key).finished with
  | true => exact .inl ⟨.inl rfl, hafter hexec (Task.react_stopped _ hfinished) rfl⟩
  | false =>
      rcases Nat.lt_or_eq_of_le h.short with hi | hi
      · have hid : (listed σ key d)[i]? = some (listed σ key d)[i] := List.getElem?_eq_getElem hi
        rw [left_of_lt hi] at hexec
        cases hlive : (timersOf σ key n).contains (listed σ key d)[i] with
        | false =>
            have hagenda := hafter hexec (Task.react_passed _ hfinished hlive) rfl
            exact .inr (.inl ⟨rfl, ⟨_, hid, hlive⟩, hagenda⟩)
        | true =>
            obtain ⟨timer, htimer⟩ := Timers.contains_iff.mp hlive
            have hagenda := hafter hexec (Task.react_rings hfinished htimer) rfl
            exact .inr (.inr ⟨_, timer, hid, ⟨⟨_, below, hexec⟩, hfinished, htimer⟩, hagenda⟩)
      · rw [left, hi, List.drop_length] at hexec
        exact .inl ⟨.inr hi, hafter hexec rfl rfl⟩

/-- A round that goes on after a turn has the next one before it. -/
theorem Turn.goes_on (hσ : Behavior σ) (h : Turn σ key d below i n)
    (hlasts : ∃ due, .fire key (σ d).world.clock due :: below <:+ (σ (n + 1)).agenda) :
    ((σ n).world.host key).finished = false ∧ Waits σ key d below (i + 1) (n + 1) := by
  have hnext : ∀ before, i < (listed σ key d).length →
      (σ (n + 1)).agenda = before ++ left σ key d (i + 1) :: below →
      Waits σ key d below (i + 1) (n + 1) := by
    intro before hi hagenda
    refine ⟨Nat.lt_succ_of_lt h.begun, hi, ⟨before, hagenda.symm⟩, fun k hdk hkn => ?_⟩
    rcases Nat.lt_or_eq_of_le hkn with hlt | rfl
    · exact h.lasts k hdk (Nat.le_of_lt_succ hlt)
    · exact hlasts
  rcases h.takes hσ with ⟨-, hover⟩ | ⟨hlive, ⟨id, hid, -⟩, hagenda⟩ |
    ⟨id, timer, hid, hrings, hagenda⟩
  · obtain ⟨due, hdue⟩ := hlasts
    rw [hover] at hdue
    exact absurd hdue Task.not_suffix_self
  · exact ⟨hlive, hnext [] (List.getElem?_eq_some_iff.mp hid).1 hagenda⟩
  · exact ⟨hrings.live, hnext [_, _] (List.getElem?_eq_some_iff.mp hid).1 hagenda⟩

/-- As long as a round goes on it takes its turns one after the other. -/
theorem Waits.later (hσ : Behavior σ) (h : Waits σ key d below i n) (hnm : n ≤ m)
    (hlasts : ∀ k, d < k → k ≤ m →
      ∃ due, .fire key (σ d).world.clock due :: below <:+ (σ k).agenda) :
    ∃ j, i ≤ j ∧ Waits σ key d below j m ∧ ∀ k, i ≤ k → k < j →
      ∃ t, n ≤ t ∧ t < m ∧ Turn σ key d below k t ∧ ((σ t).world.host key).finished = false := by
  induction hnm with
  | refl => exact ⟨i, Nat.le_refl i, h, fun k hik hki => absurd hki (Nat.not_lt_of_le hik)⟩
  | @step m hnm ih =>
      have hdm : d < m := Nat.lt_of_lt_of_le h.begun hnm
      obtain ⟨j, hij, hwaits, hturns⟩ := ih fun k hdk hkm => hlasts k hdk (Nat.le_succ_of_le hkm)
      have hlast := hlasts (m + 1) (Nat.lt_succ_of_lt hdm) (Nat.le_refl _)
      have hearlier : ∀ k, i ≤ k → k < j → ∃ t, n ≤ t ∧ t < m + 1 ∧ Turn σ key d below k t ∧
          ((σ t).world.host key).finished = false := by
        intro k hik hkj
        obtain ⟨t, hnt, htm, hturn⟩ := hturns k hik hkj
        exact ⟨t, hnt, Nat.lt_succ_of_lt htm, hturn⟩
      obtain ⟨due, hdue⟩ := hlast
      rcases (hσ.next m).suffix rfl (hσ.uncrashed_of_suffix hdue) hwaits.stands with hexec | hstays
      · have hturn : Turn σ key d below j m := ⟨hwaits, ⟨hexec.1, hexec.2⟩⟩
        obtain ⟨hlive, hnext⟩ := hturn.goes_on hσ ⟨due, hdue⟩
        refine ⟨j + 1, Nat.le_succ_of_le hij, hnext, fun k hik hkj => ?_⟩
        rcases Nat.lt_or_eq_of_le (Nat.le_of_lt_succ hkj) with hlt | rfl
        · exact hearlier k hik hlt
        · exact ⟨m, hnm, Nat.lt_succ_self m, hturn, hlive⟩
      · exact ⟨j, hij, ⟨Nat.lt_succ_of_lt hdm, hwaits.short, hstays, hlasts⟩, hearlier⟩

/-- A round begins with its first turn. -/
theorem opens (hσ : Behavior σ) (h : Through σ key p below d) : Waits σ key d below 0 (d + 1) := by
  have hagenda : left σ key d 0 :: below <:+ (σ (d + 1)).agenda :=
    Task.suffix_of_eq (hσ.goes_on h)
  refine ⟨Nat.lt_succ_self d, Nat.zero_le _, hagenda, fun k hdk hkd => ?_⟩
  obtain rfl : k = d + 1 := by omega
  exact ⟨_, hagenda⟩

/-- Before a turn waits all others before it have been taken. -/
theorem Waits.turned (hσ : Behavior σ) (h : Through σ key p below d)
    (hj : Waits σ key d below j m) (hij : i < j) : ∃ n, d < n ∧ n < m ∧
      Turn σ key d below i n ∧ ((σ n).world.host key).finished = false := by
  obtain ⟨k, -, hk, hturns⟩ := (opens hσ h).later hσ hj.begun hj.lasts
  obtain rfl := hk.unique hσ hj
  exact hturns i (Nat.zero_le i) hij

/-- While a round goes on one of its turns waits. -/
theorem Waits.earlier (hσ : Behavior σ) (h : Through σ key p below d)
    (hj : Waits σ key d below j m) {k : Nat} (hdk : d < k) (hkm : k ≤ m) :
    ∃ i, Waits σ key d below i k := by
  obtain ⟨i, -, hi, -⟩ := (opens hσ h).later hσ hdk
    fun l hdl hlk => hj.lasts l hdl (Nat.le_trans hlk hkm)
  exact ⟨i, hi⟩

/-- After a turn only later ones wait. -/
theorem Turn.before (hσ : Behavior σ) (hi : Turn σ key d below i n)
    (hj : Waits σ key d below j m) (hnm : n < m) : i < j := by
  have hnext := (hi.goes_on hσ (hj.lasts (n + 1) (Nat.lt_succ_of_lt hi.begun) hnm)).2
  obtain ⟨k, hik, hk, -⟩ := hnext.later hσ hnm hj.lasts
  exact hk.unique hσ hj ▸ hik

theorem Turn.order (hσ : Behavior σ) (hi : Turn σ key d below i n)
    (hj : Turn σ key d below j m) : n < m ↔ i < j := by
  constructor
  · exact hi.before hσ hj.toWaits
  · intro hij
    rcases Nat.lt_trichotomy n m with hlt | rfl | hgt
    · exact hlt
    · rw [hi.unique hσ hj.toWaits] at hij
      exact absurd hij (Nat.lt_irrefl j)
    · exact absurd (hj.before hσ hi.toWaits hgt) (Nat.lt_asymm hij)

theorem Turn.once (hσ : Behavior σ) (hn : Turn σ key d below i n)
    (hm : Turn σ key d below i m) : n = m := by
  have hnm := hn.order hσ hm
  have hmn := hm.order hσ hn
  omega

variable {timer : Timer Callback} {now : Nat}

/-- What rings while a round goes on is the timer whose turn it is. -/
theorem Waits.rings (hσ : Behavior σ) (h : Waits σ key d below i n)
    (hrings : Rings σ key id timer now n) :
    Turn σ key d below i n ∧ (listed σ key d)[i]? = some id ∧ now = (σ d).world.clock := by
  obtain ⟨due, rest, hexec⟩ := hrings.executes
  obtain ⟨hsame, rfl⟩ := hσ.pump_unique (x := .fire key now (id :: due)) rfl rfl
    (Behavior.suffix_of_executes hexec) h.stands
  refine ⟨⟨h, hsame ▸ hexec⟩, ?_, (Task.fire.inj hsame).2.1⟩
  have hdue : id :: due = (listed σ key d).drop i := (Task.fire.inj hsame).2.2
  rw [← List.head?_drop, ← hdue, List.head?_cons]

theorem listed_once (hi : (listed σ key d)[i]? = some id) (hj : (listed σ key d)[j]? = some id) :
    i = j :=
  (List.getElem?_inj (List.getElem?_eq_some_iff.mp hi).1 (Timers.due_nodup _ _)).mp
    (hi.trans hj.symm)

theorem find_listed (hid : (listed σ key d)[i]? = some id) :
    ∃ timer, (timersOf σ key d).find? id = some timer := by
  obtain ⟨timer, htimer, -⟩ := Timers.mem_due.mp (List.mem_of_getElem? hid)
  exact ⟨timer, htimer⟩

/-- The run is not closed while a round goes on. -/
theorem Waits.not_close (hσ : Behavior σ) (h : Through σ key p below d)
    (hj : Waits σ key d below j n) {origin : String} {rest : List Task} :
    ¬ Executes σ n (.close key origin) rest := by
  intro hclose
  obtain ⟨t, under, -, rfl⟩ := h.draining.begun
  have hstands := hj.stands
  rw [hclose.agenda] at hstands
  rcases List.suffix_cons_iff.mp hstands with heq | hbelow
  · cases heq
  · have hinside : (Task.flush key t).part key = .inside := by simp [Task.part]
    have hpart := hσ.part_above hinside hclose.agenda ((List.suffix_cons _ _).trans hbelow)
    simp at hpart

/-- Until its turn has come a timer that was listed stays as it was, unless a script clears it. -/
theorem Waits.kept (hσ : Behavior σ) (h : Through σ key p below d)
    (hj : Waits σ key d below j n) (hid : (listed σ key d)[i]? = some id) (hji : j ≤ i)
    (htimer : (timersOf σ key d).find? id = some timer) :
    (timersOf σ key n).find? id = some timer ∨ ∃ c, d < c ∧ c < n ∧ Clears σ key id c := by
  have hdrain : ∀ {t rest}, Executes σ d t rest → t = .drain key := by
    intro t rest hexec
    exact (List.cons.inj (hexec.agenda.symm.trans h.executes.agenda)).1
  have hsilent : ∀ k, d ≤ k → k < n → ∀ timer now, ¬ Rings σ key id timer now k := by
    intro k hdk hkn timer now hrings
    rcases Nat.lt_or_eq_of_le hdk with hlt | rfl
    · obtain ⟨i', hi'⟩ := hj.earlier hσ h hlt (Nat.le_of_lt hkn)
      obtain ⟨hturn, hid', -⟩ := hi'.rings hσ hrings
      obtain rfl := listed_once hid hid'
      exact absurd (hturn.before hσ hj hkn) (Nat.not_lt_of_le hji)
    · obtain ⟨due, rest, hexec⟩ := hrings.executes
      cases hdrain hexec
  have hopen : ∀ k, d ≤ k → k < n → ∀ origin rest, ¬ Executes σ k (.close key origin) rest := by
    intro k hdk hkn origin rest hclose
    rcases Nat.lt_or_eq_of_le hdk with hlt | rfl
    · obtain ⟨i', hi'⟩ := hj.earlier hσ h hlt (Nat.le_of_lt hkn)
      exact hi'.not_close hσ h hclose
    · cases hdrain hclose
  have hall : ∀ k, d ≤ k → k ≤ n → (timersOf σ key k).find? id = some timer ∨
      ∃ c, d < c ∧ c < k ∧ Clears σ key id c := by
    intro k hdk
    induction hdk with
    | refl => exact fun _ => .inl htimer
    | @step k hdk ih =>
        intro hkn
        rcases ih (Nat.le_of_lt hkn) with hfound | ⟨c, hdc, hck, hclears⟩
        · have hlive := Timers.contains_iff.mpr ⟨timer, hfound⟩
          cases hnext : (timersOf σ key (k + 1)).contains id with
          | true => exact .inl ((hσ.timer_kept hlive hnext (hsilent k hdk hkn)).trans hfound)
          | false =>
              rcases hσ.lost_by hlive hnext with hclears | ⟨_, _, hrings⟩ | ⟨_, _, hclose⟩
              · refine .inr ⟨k, ?_, Nat.lt_succ_self k, hclears⟩
                rcases Nat.lt_or_eq_of_le hdk with hlt | rfl
                · exact hlt
                · obtain ⟨_, _, _, _, _, hexec, -⟩ := hclears
                  cases hdrain hexec
              · exact absurd hrings (hsilent k hdk hkn _ _)
              · exact absurd hclose (hopen k hdk hkn _ _)
        · exact .inr ⟨c, hdc, Nat.lt_succ_of_lt hck, hclears⟩
  exact hall n (Nat.le_of_lt hj.begun) (Nat.le_refl n)

/-- A listed timer rings when its turn comes, as it was listed, unless the host has stopped or a
script has cleared it meanwhile. -/
theorem Turn.rings_iff (hσ : Behavior σ) (h : Through σ key p below d)
    (hturn : Turn σ key d below i n) (hid : (listed σ key d)[i]? = some id)
    (htimer : (timersOf σ key d).find? id = some timer)
    (hbound : Timers.releases (timersOf σ key) id.slot n <
      Timers.releases (timersOf σ key) id.slot d + UInt32.size) :
    Rings σ key id timer (σ d).world.clock n ↔
      ((σ n).world.host key).finished = false ∧
        ∀ c, d < c → c < n → ¬ Clears σ key id c := by
  constructor
  · intro hrings
    refine ⟨hrings.live, fun c hdc hcn hclears => ?_⟩
    have hlive := Timers.contains_iff.mpr ⟨timer, htimer⟩
    exact hσ.silent_of_clears hlive hdc hclears hcn hbound hrings
  · rintro ⟨hlive, hnone⟩
    obtain ⟨hi, hget⟩ := List.getElem?_eq_some_iff.mp hid
    have hexec := hturn.executes
    rw [left_of_lt hi, hget] at hexec
    refine ⟨⟨_, below, hexec⟩, hlive, ?_⟩
    rcases hturn.kept hσ h hid (Nat.le_refl i) htimer with hfound | ⟨c, hdc, hcn, hclears⟩
    · exact hfound
    · exact absurd hclears (hnone c hdc hcn)

/-- The callback of a timer that rings is called next, above what is left of the round. -/
theorem Turn.calls (hσ : Behavior σ) (hturn : Turn σ key d below i n)
    (hrings : Rings σ key id timer now n) : (σ (n + 1)).agenda =
      .call key timer.callback [] :: .report key :: left σ key d (i + 1) :: below := by
  have hid := (hturn.rings hσ hrings).2.1
  rcases hturn.takes hσ with ⟨hfinished | hlast, -⟩ | ⟨-, ⟨other, hother, hgone⟩, -⟩ |
    ⟨other, seen, hother, hseen, hagenda⟩
  · rw [hrings.live] at hfinished
    cases hfinished
  · have hi := (List.getElem?_eq_some_iff.mp hid).1
    omega
  · cases hid.symm.trans hother
    rw [hrings.contains] at hgone
    cases hgone
  · cases hid.symm.trans hother
    cases hrings.timer.symm.trans hseen.timer
    exact hagenda

/-- A timer that rings in a round was there, as it is, when the list was made, and none was started
under its handle since. -/
theorem Turn.rings_listed (hσ : Behavior σ) (h : Through σ key p below d)
    (hturn : Turn σ key d below i n) (hrings : Rings σ key id timer now n)
    (hbound : Timers.releases (timersOf σ key) id.slot n <
      Timers.releases (timersOf σ key) id.slot d + UInt32.size) :
    (timersOf σ key d).find? id = some timer ∧
      ∀ s first, d ≤ s → s < n → ¬ Starts σ key id first s := by
  have hid := (hturn.rings hσ hrings).2.1
  obtain ⟨seen, hseen⟩ := find_listed hid
  have hlive := Timers.contains_iff.mpr ⟨seen, hseen⟩
  constructor
  · rcases hturn.kept hσ h hid (Nat.le_refl i) hseen with hfound | ⟨c, hdc, hcn, hclears⟩
    · cases hfound.symm.trans hrings.timer
      exact hseen
    · exact absurd hrings (hσ.silent_of_clears hlive hdc hclears hcn hbound)
  · intro s first hds hsn hstarts
    have hstill := (hσ.history key).live_since hlive hds (Nat.le_of_lt hsn) hrings.contains hbound
    rw [hstarts.new] at hstill
    cases hstill

/-- If its turns come up, a round ends. -/
theorem Waits.ends (hσ : Behavior σ) (h : Waits σ key d below i n)
    (hback : ∀ i n, Waits σ key d below i n → ∃ k, n ≤ k ∧ Executes σ k (left σ key d i) below) :
    ∃ e, Over σ key d below e := by
  -- every turn leaves less of the list
  generalize hmore : (listed σ key d).length - i = more
  induction more using Nat.strongRecOn generalizing i n with
  | ind more ih =>
      obtain ⟨m, hnm, hm⟩ := hback i n h
      obtain ⟨k, hnk, -, hexec, -, hstays⟩ := hσ.first_popped rfl h.stands hnm hm
      have hlasts : ∀ l, d < l → l ≤ k →
          ∃ due, .fire key (σ d).world.clock due :: below <:+ (σ l).agenda := by
        intro l hdl hlk
        rcases Nat.lt_or_ge l n with hln | hnl
        · exact h.lasts l hdl (Nat.le_of_lt hln)
        · exact ⟨_, hstays l hnl hlk⟩
      have hturn : Turn σ key d below i k :=
        ⟨⟨Nat.lt_of_lt_of_le h.begun hnk, h.short, hstays k hnk (Nat.le_refl k), hlasts⟩, hexec⟩
      have hon : left σ key d (i + 1) :: below <:+ (σ (k + 1)).agenda →
          ∃ e, Over σ key d below e := by
        intro hstands
        have hnext := (hturn.goes_on hσ ⟨_, hstands⟩).2
        have hshort := hnext.short
        exact ih _ (by omega) hnext rfl
      rcases hturn.takes hσ with ⟨-, hover⟩ | ⟨-, -, hagenda⟩ | ⟨_, timer, -, -, hagenda⟩
      · exact ⟨k, ⟨i, hturn⟩, hover⟩
      · exact hon (Task.suffix_of_eq hagenda)
      · exact hon ⟨[.call key timer.callback [], .report key], hagenda.symm⟩

/-- Whatever rings has its turn in a round. -/
theorem of_rings (hσ : Behavior σ) (hrings : Rings σ key id timer now n) :
    ∃ p d below i, Through σ key p below d ∧ Turn σ key d below i n ∧
      (listed σ key d)[i]? = some id := by
  obtain ⟨due, rest, hexec⟩ := hrings.executes
  obtain ⟨d, hdn, hdrain, rfl, -, hleft⟩ := hσ.looked (Behavior.suffix_of_executes hexec)
  obtain ⟨p, hdraining⟩ := hσ.draining_of_drain hdrain
  have hlasts : ∀ k, d < k → k ≤ n →
      ∃ due, .fire key (σ d).world.clock due :: rest <:+ (σ k).agenda := by
    intro k hdk hkn
    obtain ⟨due, hdue, -⟩ := hleft k hdk hkn
    exact ⟨due, hdue⟩
  have hthrough : Through σ key p rest d := by
    refine ⟨hdraining, hdrain, Decidable.byContradiction fun hsome => ?_⟩
    -- it would be at the commands still
    obtain ⟨command, -, hagenda, -⟩ := hσ.drains_on hdraining hdrain hsome
    obtain ⟨due', hdue⟩ := hlasts (d + 1) (Nat.lt_succ_self d) hdn
    have hsame := hσ.pump_unique (x := .fire key (σ d).world.clock due') rfl rfl hdue
      ⟨command.work key, hagenda.symm⟩
    cases hsame.1
  obtain ⟨i, -, hwaits, -⟩ := (opens hσ hthrough).later hσ hdn hlasts
  obtain ⟨hturn, hid, -⟩ := hwaits.rings hσ hrings
  exact ⟨p, d, rest, i, hthrough, hturn, hid⟩

end Round

/-- How a pump that is through with the commands in step `d` goes on with the timers, up to a
moment: whatever the callbacks do meanwhile, its round is fair, and it ends if they return. -/
structure FairRound (σ : Nat → Machine) (key d : Nat) (below : List Task) (m : Nat) : Prop where
  /-- The round begins with the first of the timers that are due at the moment on the clock. -/
  opens : Round.Waits σ key d below 0 (d + 1)
  /-- The turns are taken in the order of the list, each once. -/
  order : ∀ {i j n k}, Round.Turn σ key d below i n → Round.Turn σ key d below j k →
    (n < k ↔ i < j)
  /-- None is left out. -/
  all : ∀ {i j n}, Round.Waits σ key d below j n → i < j → ∃ k, d < k ∧ k < n ∧
    Round.Turn σ key d below i k ∧ ((σ k).world.host key).finished = false
  /-- A listed timer whose turn it is rings, as it was when it was listed, exactly if the host goes
  on and no script has cleared it since the list was made. -/
  rings : ∀ {i n id timer}, n ≤ m → Round.Turn σ key d below i n →
    (Round.listed σ key d)[i]? = some id → (timersOf σ key d).find? id = some timer →
    (Rings σ key id timer (σ d).world.clock n ↔
      ((σ n).world.host key).finished = false ∧ ∀ c, d < c → c < n → ¬ Clears σ key id c)
  /-- Then its callback is called next, and the round goes on below. -/
  calls : ∀ {i n id timer}, Round.Turn σ key d below i n →
    Rings σ key id timer (σ d).world.clock n →
    (σ (n + 1)).agenda = .call key timer.callback [] :: .report key ::
      Round.left σ key d (i + 1) :: below
  /-- Nothing else rings: no timer that was not on the list when its turn came, and none that was
  started since then, whatever its slot and its interval are. -/
  only : ∀ {i n id timer now}, n ≤ m → Round.Waits σ key d below i n →
    Rings σ key id timer now n → now = (σ d).world.clock ∧ Round.Turn σ key d below i n ∧
      (Round.listed σ key d)[i]? = some id ∧ (timersOf σ key d).find? id = some timer ∧
      ∀ s first, d ≤ s → s < n → ¬ Starts σ key id first s
  /-- When the round is over, every listed timer has rung exactly once, or it has not rung, because
  it was cleared before its turn or the host had stopped by then. -/
  accounts : ∀ {e i id timer}, e ≤ m → Round.Over σ key d below e →
    (Round.listed σ key d)[i]? = some id → (timersOf σ key d).find? id = some timer →
    (∃ n, d < n ∧ n < e ∧ Rings σ key id timer (σ d).world.clock n ∧
      ∀ k other now, d < k → k ≤ e → Rings σ key id other now k → k = n) ∨
    (∀ k other now, d < k → k ≤ e → ¬ Rings σ key id other now k) ∧
      ((∃ n c, Round.Turn σ key d below i n ∧ n < e ∧ d < c ∧ c < n ∧ Clears σ key id c) ∨
        ((σ e).world.host key).finished = true ∧ ∃ j, j ≤ i ∧ Round.Turn σ key d below j e)
  /-- If every turn that waits comes up, which is to say if the callbacks return, the round ends. -/
  ends : (∀ i n, Round.Waits σ key d below i n →
    ∃ k, n ≤ k ∧ Executes σ k (Round.left σ key d i) below) → ∃ e, Round.Over σ key d below e

namespace Round

variable {σ : Nat → Machine} {key p d n m i e : Nat} {below : List Task} {id : TimerId}
  {timer other : Timer Callback} {now : Nat}

/-- Until it is over a round goes on. -/
theorem Over.waits (hσ : Behavior σ) (h : Through σ key p below d) (hover : Over σ key d below e)
    (hdn : d < n) (hne : n ≤ e) : ∃ i, Waits σ key d below i n := by
  obtain ⟨j, hturn⟩ := hover.turn
  exact hturn.toWaits.earlier hσ h hdn hne

/-- The last turn finds the host stopped, or comes after all timers. -/
theorem Over.last (hσ : Behavior σ) (hover : Over σ key d below e)
    (hturn : Turn σ key d below i e) :
    ((σ e).world.host key).finished = true ∨ i = (listed σ key d).length := by
  rcases hturn.takes hσ with ⟨hlast, -⟩ | ⟨-, -, hagenda⟩ | ⟨_, timer, -, -, hagenda⟩
  · exact hlast
  · rw [hover.rest] at hagenda
    exact absurd (Task.suffix_of_eq hagenda) Task.not_suffix_self
  · rw [hover.rest] at hagenda
    exact absurd ⟨[.call key timer.callback [], .report key], hagenda.symm⟩ Task.not_suffix_self

/-- A timer that was listed is dealt with in its round. -/
theorem Over.accounts (hσ : Behavior σ) (h : Through σ key p below d)
    (hover : Over σ key d below e) (hid : (listed σ key d)[i]? = some id)
    (htimer : (timersOf σ key d).find? id = some timer)
    (hbound : Timers.releases (timersOf σ key) id.slot e <
      Timers.releases (timersOf σ key) id.slot d + UInt32.size) :
    (∃ n, d < n ∧ n < e ∧ Rings σ key id timer (σ d).world.clock n ∧
      ∀ k other now, d < k → k ≤ e → Rings σ key id other now k → k = n) ∨
    (∀ k other now, d < k → k ≤ e → ¬ Rings σ key id other now k) ∧
      ((∃ n c, Turn σ key d below i n ∧ n < e ∧ d < c ∧ c < n ∧ Clears σ key id c) ∨
        ((σ e).world.host key).finished = true ∧ ∃ j, j ≤ i ∧ Turn σ key d below j e) := by
  obtain ⟨j, hlast⟩ := hover.turn
  have hturn : ∀ k other now, d < k → k ≤ e → Rings σ key id other now k →
      Turn σ key d below i k := by
    intro k other now hdk hke hrings
    obtain ⟨i', hwaits⟩ := hover.waits hσ h hdk hke
    obtain ⟨hturn, hid', -⟩ := hwaits.rings hσ hrings
    exact listed_once hid hid' ▸ hturn
  rcases Nat.lt_or_ge i j with hij | hji
  · obtain ⟨n, hdn, hne, hn, hlive⟩ := hlast.toWaits.turned hσ h hij
    have hless : Timers.releases (timersOf σ key) id.slot n <
        Timers.releases (timersOf σ key) id.slot d + UInt32.size :=
      Nat.lt_of_le_of_lt (Timers.releases_mono _ id.slot (Nat.le_of_lt hne)) hbound
    have honly : ∀ k other now, d < k → k ≤ e → Rings σ key id other now k → k = n :=
      fun k other now hdk hke hrings => (hturn k other now hdk hke hrings).once hσ hn
    by_cases hclears : ∃ c, d < c ∧ c < n ∧ Clears σ key id c
    · obtain ⟨c, hdc, hcn, hclears⟩ := hclears
      refine .inr ⟨fun k other now hdk hke hrings => ?_, .inl ⟨n, c, hn, hne, hdc, hcn, hclears⟩⟩
      obtain rfl := honly k other now hdk hke hrings
      have hlisted := Timers.contains_iff.mpr ⟨timer, htimer⟩
      exact hσ.silent_of_clears hlisted hdc hclears hcn hless hrings
    · refine .inl ⟨n, hdn, hne, (hn.rings_iff hσ h hid htimer hless).mpr ⟨hlive, ?_⟩, honly⟩
      exact fun c hdc hcn hc => hclears ⟨c, hdc, hcn, hc⟩
  · have hfinished : ((σ e).world.host key).finished = true := by
      rcases hover.last hσ hlast with hfinished | hlength
      · exact hfinished
      · have hi := (List.getElem?_eq_some_iff.mp hid).1
        omega
    refine .inr ⟨fun k other now hdk hke hrings => ?_, .inr ⟨hfinished, j, hji, hlast⟩⟩
    have hk := hturn k other now hdk hke hrings
    rcases Nat.lt_or_eq_of_le hke with hlt | rfl
    · exact absurd (hk.before hσ hlast.toWaits hlt) (Nat.not_lt_of_le hji)
    · rw [hrings.live] at hfinished
      cases hfinished

end Round

/-- The timers that are due are listed by deadline and slot, everything that rings has its turn in
a round over such a list, and as long as no slot is given up so often in a round that the
generations come round, the round is fair. -/
theorem rounds_are_fair {σ : Nat → Machine} (hσ : Behavior σ) (key : Nat) :
    (∀ (t : Timers Callback) (now : Nat), t.Lists now (t.due now)) ∧
    (∀ n id timer now, Rings σ key id timer now n → ∃ p d below i, Through σ key p below d ∧
      Round.Turn σ key d below i n ∧ (Round.listed σ key d)[i]? = some id) ∧
    ∀ p d below m, Through σ key p below d →
      (∀ slot, Timers.releases (timersOf σ key) slot m <
        Timers.releases (timersOf σ key) slot d + UInt32.size) → FairRound σ key d below m := by
  refine ⟨fun t now => t.due_lists now, fun n id timer now => Round.of_rings hσ, ?_⟩
  intro p d below m h hbound
  have hless : ∀ (id : TimerId) {n}, n ≤ m → Timers.releases (timersOf σ key) id.slot n <
      Timers.releases (timersOf σ key) id.slot d + UInt32.size :=
    fun id _ hnm => Nat.lt_of_le_of_lt (Timers.releases_mono _ id.slot hnm) (hbound id.slot)
  refine ⟨?opens, ?order, ?all, ?rings, ?calls, ?only, ?accounts, ?ends⟩
  case opens => exact Round.opens hσ h
  case order => exact fun hi hj => hi.order hσ hj
  case all => exact fun hj hij => hj.turned hσ h hij
  case rings => exact fun hnm hturn hid htimer => hturn.rings_iff hσ h hid htimer (hless _ hnm)
  case calls => exact fun hturn hrings => hturn.calls hσ hrings
  case only =>
    intro i n id timer now hnm hwaits hrings
    obtain ⟨hturn, hid, hnow⟩ := hwaits.rings hσ hrings
    obtain ⟨htimer, hnone⟩ := hturn.rings_listed hσ h hrings (hless id hnm)
    exact ⟨hnow, hturn, hid, htimer, hnone⟩
  case accounts => exact fun hem hover hid htimer => hover.accounts hσ h hid htimer (hless _ hem)
  case ends => exact (Round.opens hσ h).ends hσ

/-- A host with three timers that are due at once. The first one clears the second and starts
another in its slot that is due at once too, and the third one stops the host. -/
def Machine.crowded : Machine :=
  .start (.start default [] [("body",
      [.inScript none (.timeout "a" (.native [.inScript none (.clear "b"),
          .inScript none (.timeout "d" (.native []) 0)]) 0),
        .inScript none (.timeout "b" (.native []) 0),
        .inScript none (.timeout "c" (.native [.inScript none .stop]) 0)])] [] default)
    [.build ⟨"h", "body", "h.js", none, .standard, "", none, none, false, none, false, 2⟩ [],
      .onHost (some "h") .run]

/-- The same host when its first pump has listed the timers. -/
def Machine.crowdedRound : Machine :=
  ⟨(crowded.trace 18).world, (crowded.trace 18).outcome,
    .fire 0 0 [⟨0, 0⟩, ⟨1, 0⟩, ⟨2, 0⟩] :: (crowded.trace 18).agenda.tail⟩

theorem crowded_listed : Round.listed crowded.trace 0 18 = [⟨0, 0⟩, ⟨1, 0⟩, ⟨2, 0⟩] := by
  have hsorted : ((timersOf crowded.trace 0 18).ready 0).Pairwise fun a b =>
      decide (a.2.deadline ≤ b.2.deadline) = true := by decide +kernel
  have hclock : (crowded.trace 18).world.clock = 0 := by decide +kernel
  rw [Round.listed, hclock, Timers.due_eq, Timers.queue, List.mergeSort_of_pairwise hsorted]
  decide +kernel

theorem crowded_trace (k : Nat) : crowded.trace (19 + k) = crowdedRound.trace k := by
  induction k with
  | zero =>
      have hcommands : (waiting crowded.trace 0 18).isEmpty = true := by decide +kernel
      have hclock : (crowded.trace 18).world.clock = 0 := by decide +kernel
      obtain ⟨below, hexec⟩ : ∃ below, Executes crowded.trace 18 (.drain 0) below :=
        drains_trace (by decide +kernel)
      have hreact := Task.react_through (crowded.trace 18).outcome (List.isEmpty_iff.mp hcommands)
      rw [trace_react hexec.agenda hreact (by decide +kernel), crowdedRound, hexec.agenda,
        ← crowded_listed, Round.listed, hclock]
      rfl
  | succ k ih => rw [← Nat.add_assoc, trace_succ, trace_succ, ih]

/-- The first timer rings, the second is passed over, and so is the new one in its slot, though it
is due at once; the third one rings. -/
theorem crowded_round_is_fair : ∃ below, Through crowded.trace 0 17 below 18 ∧
    (∀ slot, Timers.releases (timersOf crowded.trace 0) slot 32 <
      Timers.releases (timersOf crowded.trace 0) slot 18 + UInt32.size) ∧
    FairRound crowded.trace 0 18 below 32 ∧
    Round.listed crowded.trace 0 18 = [⟨0, 0⟩, ⟨1, 0⟩, ⟨2, 0⟩] ∧
    (∃ timer now, Rings crowded.trace 0 ⟨0, 0⟩ timer now 19) ∧
    Clears crowded.trace 0 ⟨1, 0⟩ 21 ∧
    (∃ timer, Starts crowded.trace 0 ⟨1, 1⟩ timer 22) ∧
    (∃ timer now, Rings crowded.trace 0 ⟨2, 0⟩ timer now 26) := by
  have hm : Behavior crowded.trace := trace_behavior ..
  obtain ⟨below, hthrough⟩ : ∃ below, Through crowded.trace 0 17 below 18 :=
    through_trace hm (by decide +kernel) (by decide +kernel) (by decide +kernel)
  have hbound : ∀ slot, Timers.releases (timersOf crowded.trace 0) slot 32 <
      Timers.releases (timersOf crowded.trace 0) slot 18 + UInt32.size := by
    intro slot
    exact Nat.lt_add_left _ (Nat.lt_of_le_of_lt (Timers.releases_le _ slot 32) (by decide))
  have hlive : ∀ (k : Nat) (id : TimerId) (live : Bool),
      ((crowdedRound.trace k).world.host 0).timers.contains id = live →
      (timersOf crowded.trace 0 (19 + k)).contains id = live := by
    intro k id live h
    rwa [timersOf, crowded_trace k]
  have hrings : ∀ (k : Nat) (id : TimerId),
      (crowdedRound.trace k).agenda.head?.any (Task.firing 0 id) = true →
      ((crowdedRound.trace k).world.host 0).finished = false →
      ((crowdedRound.trace k).world.host 0).timers.contains id = true →
      ∃ timer now, Rings crowded.trace 0 id timer now (19 + k) := by
    intro k id hhead hfinished htimer
    rw [← crowded_trace k] at hhead hfinished htimer
    exact rings_trace hhead hfinished htimer
  refine ⟨below, hthrough, hbound, (rounds_are_fair hm 0).2.2 17 18 below 32 hthrough hbound,
    crowded_listed, ?first, ?clears, ?starts, ?last⟩
  case first => exact hrings 0 _ (by decide +kernel) (by decide +kernel) (by decide +kernel)
  case clears =>
    have hscript : (crowdedRound.trace 2).agenda.head?.any Task.isPerform = true := by
      decide +kernel
    rw [← crowded_trace 2] at hscript
    rcases hm.lost_by (hlive 2 ⟨1, 0⟩ true (by decide +kernel))
      (hlive 3 ⟨1, 0⟩ false (by decide +kernel)) with
      hclears | ⟨_, _, ⟨_, _, hexec⟩, -⟩ | ⟨_, _, hexec⟩
    · exact hclears
    · simp [hexec.agenda, Task.isPerform] at hscript
    · simp [hexec.agenda, Task.isPerform] at hscript
  case starts =>
    obtain ⟨timer, htimer⟩ :=
      Timers.contains_iff.mp (hlive 4 ⟨1, 1⟩ true (by decide +kernel))
    exact ⟨timer, hlive 3 _ _ (by decide +kernel), htimer⟩
  case last => exact hrings 7 _ (by decide +kernel) (by decide +kernel) (by decide +kernel)

end TickHost
