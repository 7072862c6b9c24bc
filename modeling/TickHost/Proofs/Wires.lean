import TickHost.Proofs.Departures
import TickHost.Proofs.Lockstep

/-!
The buses of hosts. A host keeps the bus that it was built on, and buses are never taken away. So
whatever a host says, there is a bus that carries it, and saying it changes nothing but what was
said.
-/

namespace TickHost

namespace Host

variable {stopping : Bool} {h h' : Host}

theorem Stride.bus (hstride : h.Stride stopping h') : h'.bus = h.bus := by
  cases hstride with
  | finish time origin =>
      obtain ⟨outlet, hfinish⟩ := h.finishRun_eq time origin
      rw [hfinish]
  | refuse _ | confirm _ _ | skip _ | update _ _ _ | close _ => rfl

theorem Acts.bus (hacts : h.Acts stopping h') : h'.bus = h.bus :=
  congrArg Core.bus hacts.works.core

end Host

namespace World

/-- Every host was built on a bus that is there, and so is every bus that hosts can share. -/
structure Wired (w : World) : Prop where
  hosts : ∀ key, w.Has key → (w.host key).bus ∈ w.buses.keys
  shared : ∀ name bus, w.sharedBuses.get? name = some bus → bus ∈ w.buses.keys

variable {w : World} {key : Nat}

theorem Wired.alike (hwired : w.Wired) : Alike w w w w :=
  ⟨rfl, fun _ => ⟨[], (List.append_nil _).symm, (List.append_nil _).symm⟩, fun _ => .refl _,
    List.Subset.refl _, hwired.shared⟩

/-- In a world in which nothing was said, saying something leaves no trace. -/
theorem Wired.publish_hushed (hwired : w.Wired) (hkey : w.Has key) (event : Event)
    (source : Source) : (w.publish key event source).hushed = w.hushed := by
  have hhost : w.hushed.hosts.put key (w.hushed.host key) = w.hushed.hosts :=
    Store.put_get _ _ ((w.hosts.keys_each Host.hushed).symm ▸ hkey)
  have hthere : (w.hushed.host key).bus ∈ w.hushed.buses.keys := by
    rw [host_hushed]
    exact (w.buses.keys_each Bus.hushed).symm ▸ hwired.hosts key hkey
  rw [World.publish_hushed, hhost, Store.put_get _ _ hthere]
  exact ite_self _

theorem unname_buses (w : World) (name : String) : (w.unname name).buses = w.buses := by
  unfold unname settle
  split
  · split
    · dsimp only
      split <;> rfl
    · rfl
  · rfl

theorem install_bus (w : World) (plan : HostPlan) (api : List Action) (bus : Nat) :
    ((w.install plan api bus).host w.hosts.fresh).bus = bus := by
  let host := Host.ofPlan plan api (w.registry plan.registry).nextId bus
  let entered := ((w.setHost w.hosts.fresh host).updateRegistry plan.registry fun r =>
    r.register w.hosts.fresh).subscribe plan.name bus
  have hacts := (unname_lapses entered plan.name).acts w.hosts.fresh true
  have hentered : entered.host w.hosts.fresh = host :=
    (host_setHost w w.hosts.fresh w.hosts.fresh host).trans (if_pos rfl)
  exact hacts.bus.trans (congrArg Host.bus hentered)

/-- A host that is built is built on a bus that is there. -/
theorem Wired.build (hwired : w.Wired) (hlinked : w.Linked) (plan : HostPlan) (api : List Action)
    (hbuilt : (w.build plan api).1.Has w.hosts.fresh) :
    ((w.build plan api).1.host w.hosts.fresh).bus ∈ (w.build plan api).1.buses.keys := by
  have hinstall (w : World) (bus : Nat) : (w.install plan api bus).buses = w.buses :=
    unname_buses _ _
  rw [build_eq] at hbuilt ⊢
  cases hshared : plan.bus.bind w.sharedBuses.get? with
  | some bus =>
      obtain ⟨name, -, hname⟩ := Option.bind_eq_some_iff.mp hshared
      simp only [install_bus, hinstall]
      exact hwired.shared name bus hname
  | none =>
      cases hmade : Bus.new? plan.settings.eventCapacity with
      | none =>
          simp only [hshared, hmade] at hbuilt
          exact absurd hbuilt hlinked.fresh
      | some made =>
          simp only [hinstall]
          rw [show w.hosts.fresh = (w.addBus made).2.hosts.fresh from rfl, install_bus]
          exact Store.mem_keys_put _ _ _

end World

open World

theorem Task.react_bus {w : World} {o : Outcome} {t : Task} {key : Nat} (hlinked : w.Linked)
    (hkeys : ∀ key, t.host? = some key → w.Has key) (hkey : w.Has key) :
    ((react w o t).world.host key).bus = (w.host key).bus := by
  rcases react_cases (o := o) hlinked hkeys hkey with rfl | hstride | hworks
  · rw [beginRun_sets.host_self]
    rfl
  · exact hstride.bus
  · exact congrArg Host.Core.bus hworks.core

namespace Machine

/-- A machine goes on in the way in which it does. -/
theorem Next.alike {m m' : Machine} (hnext : m.Next m') (hsound : m.Sound)
    (hwired : m.world.Wired) : Alike m.world m.world m'.world m'.world := by
  have halike := hwired.alike
  cases hnext with
  | step =>
      cases hagenda : m.agenda with
      | nil => rwa [step_nil hagenda]
      | cons t rest =>
          have hreact : Task.ReactsAlike m.world m.world rest (t.react m.world m.outcome)
              (t.react m.world m.outcome) :=
            Task.react_alike halike hsound.linked.keys (.inl rfl)
          rw [step_world hagenda]
          exact hreact.world
  | interrupt hinterrupts =>
      cases hinterrupts with
      | chooses | intrudes => exact halike
      | reorders name members _ => exact halike.updateRegistry name fun r => { r with members }

end Machine

namespace Behavior

variable {σ : Nat → Machine} (hσ : Behavior σ)

include hσ

theorem wired (n : Nat) : (σ n).world.Wired := by
  induction n with
  | zero =>
      obtain ⟨disk, remote, programs, functions, network, actions, hstart⟩ := hσ.starts
      rw [hstart]
      exact ⟨nofun, nofun⟩
  | succ n ih =>
      have hsound := hσ.sound n
      have halike := (hσ.next n).alike hsound ih
      refine ⟨fun key hkey => ?_, halike.shared⟩
      by_cases hold : (σ n).world.Has key
      · have hbus : ((σ (n + 1)).world.host key).bus = ((σ n).world.host key).bus := by
          rcases (hσ.next n).cases with hsame | ⟨t, rest, hagenda, hstep⟩
          · rw [hsame.host]
          · rw [hstep, Machine.step_world hagenda]
            exact Task.react_bus hsound.linked (hsound.head hagenda) hold
        rw [hbus]
        exact halike.buses (ih.hosts key hold)
      · obtain ⟨scope, plan, api, actions, rest, hexec, rfl⟩ := hσ.built hold hkey
        rw [world_after hexec] at hkey ⊢
        exact ih.build hsound.linked plan api hkey

end Behavior

end TickHost
