import TickHost.Proofs.Announcements
import TickHost.Proofs.Departures

/-!
Executions in which no stop-all call begins. A registry only begins to stop its hosts when such a
call begins, and only while it stops them they are cut off. So a host of a registry that was never
stopped can evaluate, and what it says is heard.

An execution may be taken up at any machine that one could have come to.
-/

namespace TickHost

open World Machine

/-- From moment `a` on these are the machines of an execution. -/
structure Onward (τ : Nat → Machine) (a : Nat) : Prop where
  sound : (τ a).Sound
  orderly : (τ a).world.Orderly (τ a).entering
  next : ∀ i, a ≤ i → (τ i).Next (τ (i + 1))

/-- The registry on which a task begins a stop-all call. -/
def Task.stopsAll? : Task → Option String
  | perform _ (.onWorld (.stopAll registry _) :: _) => some registry
  | _ => none

/-- A stop-all call on a registry begins in this step. -/
def StopsAll (σ : Nat → Machine) (registry : String) (n : Nat) : Prop :=
  Brings σ (fun _ t => t.stopsAll?) n registry

instance (m : Machine) (registry : String) (n : Nat) : Decidable (StopsAll m.trace registry n) :=
  inferInstanceAs (Decidable (Brings ..))

/-- Only a stop-all call that begins makes anything stop. -/
theorem Task.stopsAll_of_touches {w : World} {t : Task} {name : String}
    (h : t.touches w (.stopping name) = true) : t.stopsAll? = some name := by
  rcases touches_others h nofun nofun nofun nofun with ⟨_, _, _, _, rfl⟩ |
    ⟨scope, deed, rest, rfl, hdeed⟩ | hplain
  · cases h
  · cases deed with
    | stopAll own job =>
        obtain rfl : name = own := of_decide_eq_true hdeed
        rfl
    | _ => cases hdeed
  · cases t <;> first | cases hplain; done | cases h

namespace Machine

variable {m m' : Machine} (hnext : m.Next m') (hsound : m.Sound) {key : Nat}

include hnext hsound

/-- Nothing begins to stop unless a stop-all call begins. -/
theorem Next.stopping_le {name : String}
    (hquiet : ∀ t rest, m.agenda = t :: rest → m' = m.step → t.stopsAll? ≠ some name) :
    (m'.world.registry name).stopping ≤ (m.world.registry name).stopping := by
  rcases hnext.keeps hsound (.stopping name) with hkept | ⟨t, rest, hagenda, hstep, htouches⟩
  · exact hkept
  · exact absurd (Task.stopsAll_of_touches htouches) (hquiet t rest hagenda hstep)

theorem Next.registry_eq (hkey : m.world.Has key) :
    (m'.world.host key).registry = (m.world.host key).registry := by
  rcases hnext.cases with hsame | ⟨t, rest, hagenda, hstep⟩
  · rw [hsame.host]
  · rw [hstep, step_world hagenda]
    exact (Task.react_identity hsound.linked (hsound.head hagenda) hkey).2.1

variable (hkey : m.world.Has key) (hopen : m.world.isStopping key = false)
  (hquiet : ∀ t rest, m.agenda = t :: rest → m' = m.step →
    t.stopsAll? ≠ some (m.world.host key).registry)

include hkey hopen hquiet

theorem Next.stays_open : m'.world.isStopping key = false := by
  have hless := hnext.stopping_le hsound hquiet
  simp only [isStopping, Registry.isStopping, decide_eq_false_iff_not, Nat.not_lt,
    Nat.le_zero] at hopen ⊢
  rw [hnext.registry_eq hsound hkey]
  exact Nat.le_zero.mp (hopen ▸ hless)

omit hkey in
/-- While nothing is stopping no host is cut off. -/
theorem Next.stays_attached (horderly : m.world.Orderly m.entering)
    (hattached : (m.world.host key).outlet.detached = false) :
    (m'.world.host key).outlet.detached = false := by
  rcases hnext.keeps hsound (.cut key) with hkept | ⟨t, rest, hagenda, hstep, htouches⟩
  · exact Eq.trans hkept hattached
  · rcases Task.touches_others htouches nofun nofun nofun nofun with ⟨_, _, _, _, rfl⟩ |
      ⟨scope, deed, actions, rfl, hdeed⟩ | hplain
    · cases htouches
    · have horderly : m.world.Orderly none := by
        rw [entering_of_agenda hagenda] at horderly
        exact horderly
      have hwaits : deed.waits = true := by
        cases deed <;> first | rfl | cases hdeed
      have hother : deed.stops m.world (m.world.host key).registry = false := by
        cases deed with
        | stopAll name job =>
            have hname := hquiet _ rest hagenda hstep
            exact decide_eq_false fun heq => hname (congrArg some heq)
        | poll job =>
            rw [WorldDeed.stops]
            split
            · rename_i call hcall
              refine decide_eq_false fun heq => ?_
              rw [horderly.isStopping hcall heq.symm] at hopen
              cases hopen
            · rfl
        | _ => cases hdeed
      rw [hstep, step_world hagenda, Task.react_deed _ _ _ hwaits]
      exact Eq.trans (doDeed_keeps_cut horderly hsound.roster hother) hattached
    · cases t with
      | beginRun k =>
          obtain rfl : key = k := by simpa [Task.touches] using htouches
          rw [hstep, step_world hagenda, Task.beginRun_sets.host_self]
          rfl
      | perform _ _ => cases hplain
      | _ => cases htouches

end Machine

namespace Onward

variable {τ : Nat → Machine} {a m : Nat} (hτ : Onward τ a)

include hτ

theorem later (ham : a ≤ m) : Onward τ m := by
  induction ham with
  | refl => exact hτ
  | @step m ham ih =>
      have hnext := hτ.next m ham
      exact ⟨ih.sound.next hnext, hnext.orderly ih.sound ih.orderly,
        fun i hmi => hτ.next i (Nat.le_trans (Nat.le_succ_of_le ham) hmi)⟩

variable {key : Nat} (ham : a ≤ m) (hkey : (τ a).world.Has key)
  (hopen : (τ a).world.isStopping key = false)
  (hquiet : ∀ i, a ≤ i → i < m → ¬ StopsAll τ ((τ a).world.host key).registry i)

include ham hkey hopen hquiet

/-- As long as no stop-all call begins nothing is stopping, and a host is not cut off. -/
theorem undisturbed : (τ m).world.Has key ∧ (τ m).world.isStopping key = false ∧
    (((τ a).world.host key).outlet.detached = false →
      ((τ m).world.host key).outlet.detached = false) := by
  have hall : (τ m).world.Has key ∧
      ((τ m).world.host key).registry = ((τ a).world.host key).registry ∧
      (τ m).world.isStopping key = false ∧
      (((τ a).world.host key).outlet.detached = false →
        ((τ m).world.host key).outlet.detached = false) := by
    induction ham with
    | refl => exact ⟨hkey, rfl, hopen, id⟩
    | @step m ham ih =>
        obtain ⟨hhas, hregistry, hbefore, hattached⟩ :=
          ih fun i hai him => hquiet i hai (Nat.lt_succ_of_lt him)
        have hnow := hτ.later ham
        have hnext := hτ.next m ham
        have hquiet : ∀ t rest, (τ m).agenda = t :: rest → τ (m + 1) = (τ m).step →
            t.stopsAll? ≠ some ((τ m).world.host key).registry := by
          intro t rest hagenda hstep hstops
          rw [hregistry] at hstops
          exact hquiet m ham (Nat.lt_succ_self m) ⟨t, rest, ⟨hagenda, hstep⟩, hstops⟩
        refine ⟨hnext.has hnow.sound hhas, ?_, ?_, fun hfirst => ?_⟩
        · rw [hnext.registry_eq hnow.sound hhas, hregistry]
        · exact hnext.stays_open hnow.sound hhas hbefore hquiet
        · exact hnext.stays_attached hnow.sound hbefore hquiet hnow.orderly
            (hattached hfirst)
  exact ⟨hall.1, hall.2.2⟩

end Onward

namespace Behavior

variable {σ : Nat → Machine} (hσ : Behavior σ) {key n : Nat}

include hσ

theorem onward (a : Nat) : Onward σ a :=
  ⟨hσ.sound a, hσ.orderly a, fun i _ => hσ.next i⟩

/-- A host of a registry that was never stopped can evaluate, and is heard. -/
theorem open_of_quiet (hkey : (σ n).world.Has key)
    (hquiet : ∀ i, i < n → ¬ StopsAll σ ((σ n).world.host key).registry i) :
    (σ n).world.isStopping key = false ∧ ((σ n).world.host key).outlet.detached = false := by
  obtain ⟨b, hbn, hnew, hborn⟩ := hσ.born hkey
  have hregistry := (hσ.identity (Nat.succ_le_of_lt hbn) hborn).2
  have hnone : ∀ i, i ≤ n →
      ((σ i).world.registry ((σ n).world.host key).registry).stopping = 0 := by
    intro i
    induction i with
    | zero =>
        intro _
        obtain ⟨disk, remote, programs, functions, network, actions, hstart⟩ := hσ.starts
        rw [hstart]
        rfl
    | succ i ih =>
        intro hin
        have hless := (hσ.next i).stopping_le (hσ.sound i) fun t rest hagenda hstep hstops =>
          hquiet i hin ⟨t, rest, ⟨hagenda, hstep⟩, hstops⟩
        exact Nat.le_zero.mp (ih (Nat.le_of_succ_le hin) ▸ hless)
  have hopen : (σ (b + 1)).world.isStopping key = false := by
    rw [isStopping, ← hregistry, Registry.isStopping, hnone (b + 1) hbn]
    rfl
  have hattached : ((σ (b + 1)).world.host key).outlet.detached = false := by
    have hbefore : ((σ b).world.host key).outlet.detached = false := by
      rw [World.host, Store.get_of_not_mem _ _ hnew]
      rfl
    cases hcut : ((σ (b + 1)).world.host key).outlet.detached with
    | false => rfl
    | true =>
        obtain ⟨_, _, _, _, hstops, -⟩ := (hσ.severs_of_rise hbefore hcut).stops
        obtain ⟨_, _, _, _, _, hbuilds, -⟩ := hσ.built hnew hborn
        cases (hbuilds.unique hstops).1
  obtain ⟨-, hstill, hheard⟩ := (hσ.onward (b + 1)).undisturbed hbn hborn hopen
    fun i _ hin => hregistry ▸ hquiet i hin
  exact ⟨hstill, hheard hattached⟩

end Behavior

end TickHost
