import TickHost.Proofs.Curbs

/-!
Hosts and the numbers they are registered under. A registry knows a host by its number, no two
hosts of one registry have the same number, and so a host that loses its membership while it lives
has lost it to a stop-all call.
-/

namespace TickHost.World

/-- Registries list hosts that were built with them, each under its own number. -/
structure Roster (w : World) : Prop where
  members : ∀ name id key, (id, key) ∈ (w.registry name).members →
    w.Has key ∧ (w.host key).id = id ∧ (w.host key).registry = name
  numbers : ∀ key, w.Has key → (w.host key).id < (w.registry (w.host key).registry).nextId
  unique : ∀ key other, w.Has key → w.Has other → (w.host key).registry = (w.host other).registry →
    (w.host key).id = (w.host other).id → key = other

variable {w w' w'' : World}

/-- Registries that only lose members stay in order. -/
theorem Roster.of (hroster : w.Roster) (hkeys : w'.hosts.keys = w.hosts.keys)
    (hid : ∀ key, (w'.host key).id = (w.host key).id)
    (hregistry : ∀ key, (w'.host key).registry = (w.host key).registry)
    (hmembers : ∀ name, (w'.registry name).members ⊆ (w.registry name).members)
    (hnext : ∀ name, (w'.registry name).nextId = (w.registry name).nextId) : w'.Roster := by
  have hhas : ∀ key, w'.Has key ↔ w.Has key := fun key => by rw [Has, Has, hkeys]
  refine ⟨fun name id key hmember => ?_, fun key hkey => ?_, fun key other hkey hother => ?_⟩
  · rw [hhas, hid, hregistry]
    exact hroster.members name id key (hmembers name hmember)
  · rw [hid, hregistry, hnext]
    exact hroster.numbers key ((hhas key).mp hkey)
  · rw [hid, hid, hregistry, hregistry]
    exact hroster.unique key other ((hhas key).mp hkey) ((hhas other).mp hother)

theorem Roster.of_ties (hties : w'.ties = w.ties) (hroster : w.Roster) : w'.Roster := by
  refine hroster.of ?_ (fun key => ?_) (fun key => ?_) (fun name => ?_) fun name => ?_
  · rw [hosts_of_ties hties]
  · rw [host_of_ties hties]
  · rw [host_of_ties hties]
  · rw [registry_of_ties hties]
    exact List.Subset.refl _
  · rw [registry_of_ties hties]

theorem Curbs.roster (h : w.Curbs w') (hroster : w.Roster) : w'.Roster :=
  hroster.of h.keys (fun key => (h.acts key true).works.id)
    (fun key => (h.acts key true).works.registry) (fun name => (h.members name).subset) h.nextId

theorem Moves.roster {fetching : Bool} (h : Moves fetching w w') (hroster : w.Roster) :
    w'.Roster := by
  have hregistry : ∀ name, w'.registry name = w.registry name := by
    intro name
    rw [registry, registry, h.registries]
  refine hroster.of h.keys (fun key => (h.acts key).works.id)
    (fun key => (h.acts key).works.registry) (fun name => ?_) fun name => ?_
  · rw [hregistry]
    exact List.Subset.refl _
  · rw [hregistry]

/-- What giving up hosts does: it ends the ones that nobody holds, and only those leave their
registry. -/
structure Lapses (w w' : World) : Prop extends Curbs w w' where
  sameJobs : w'.jobs = w.jobs
  stopping : ∀ name, (w'.registry name).stopping = (w.registry name).stopping
  kept : w.Roster → ∀ name id key, (id, key) ∈ (w.registry name).members →
    (w'.host key).alive = true → (id, key) ∈ (w'.registry name).members

namespace Lapses

theorem refl (w : World) : w.Lapses w where
  toCurbs := .refl w
  sameJobs := rfl
  stopping _ := rfl
  kept _ _ _ _ hmember _ := hmember

theorem trans (h : w.Lapses w') (h' : w'.Lapses w'') : w.Lapses w'' where
  toCurbs := h.toCurbs.trans h'.toCurbs
  sameJobs := h'.sameJobs.trans h.sameJobs
  stopping name := (h'.stopping name).trans (h.stopping name)
  kept hroster name id key hmember halive :=
    h'.kept (h.toCurbs.roster hroster) name id key
      (h.kept hroster name id key hmember ((h'.acts key true).works.alive halive)) halive

/-- A change of one host by an act that is always allowed. -/
theorem act {key : Nat} (hkey : w.Has key) {h' : Host}
    (hact : ∀ stopping, (w.host key).Act stopping h') : w.Lapses (w.setHost key h') where
  toCurbs := .act hkey hact
  sameJobs := rfl
  stopping _ := rfl
  kept _ _ _ _ hmember _ := hmember

theorem aside (hties : w'.ties = w.ties) (hlog : w'.fetchLog = w.fetchLog) : w.Lapses w' where
  toCurbs := .aside hties hlog
  sameJobs := jobs_of_ties hties
  stopping name := by
    rw [registry, registries_of_ties hties, registry]
  kept _ name id key hmember _ := by
    rwa [registry, registries_of_ties hties]

theorem note (h : w.Lapses w') (entry : Entry) (hentry : entry.isFetch = false) :
    w.Lapses (w'.note entry) :=
  h.trans (aside rfl (by simp [World.fetchLog, World.note, hentry]))

end Lapses

theorem settle_lapses (w : World) (key : Nat) : w.Lapses (w.settle key) := by
  have hcurbs := settle_curbs w key
  unfold settle at hcurbs ⊢
  split
  · rename_i hgone
    have halive : (w.host key).alive = true := (Bool.and_eq_true _ _ ▸ hgone).1
    have hkey : w.Has key := has_of_alive halive
    simp only [hgone, if_true] at hcurbs ⊢
    split
    · exact .act hkey fun _ => .perish
    · rename_i hopen
      simp only [hopen] at hcurbs
      refine ⟨hcurbs, rfl, fun name => ?_, fun hroster name id member hmember hliving => ?_⟩
      · rw [registry_updateRegistry]
        split
        · rename_i heq
          subst heq
          rfl
        · rfl
      · have hne : member ≠ key := by
          rintro rfl
          simp at hliving
        obtain ⟨hhas, hid, hregistry⟩ := hroster.members name id member hmember
        rw [registry_updateRegistry]
        split
        · rename_i heq
          subst heq
          refine List.mem_filter.mpr ⟨hmember, ?_⟩
          have hother : id ≠ (w.host key).id := fun hsame =>
            hne (hroster.unique member key hhas hkey hregistry (hid.trans hsame))
          simpa using hother
        · exact hmember
  · exact .refl w

theorem release_lapses {key : Nat} (hkey : w.Has key) : w.Lapses (w.release key) := by
  have hrelease : w.Lapses (w.updateHost key fun h => { h with users := h.users - 1 }) :=
    .act hkey fun _ => .hold _
  exact hrelease.trans (settle_lapses _ key)

theorem unname_lapses (w : World) (name : String) : w.Lapses (w.unname name) := by
  unfold unname
  split
  · have herase : w.Lapses { w with names := w.names.erase name } :=
      { Lapses.refl w with
        names := by
          intro other key h
          rw [Table.get?_erase] at h
          split at h
          · cases h
          · exact h }
    exact herase.trans (settle_lapses _ _)
  · exact .refl w

/-- The world with one more host, under the next key and the next number of its registry. -/
def enrol (w : World) (plan : HostPlan) (api : List Action) (bus : Nat) : World :=
  (w.setHost w.hosts.fresh (.ofPlan plan api (w.registry plan.registry).nextId bus)).updateRegistry
    plan.registry fun r => r.register w.hosts.fresh

section Enrol

variable (plan : HostPlan) (api : List Action) (bus : Nat)

/-- No host was built under the next key. -/
theorem Linked.fresh (hlinked : w.Linked) : ¬ w.Has w.hosts.fresh := by
  rw [Has, hlinked.keys, List.mem_range, Store.fresh]
  omega

theorem enrol_keys (hlinked : w.Linked) :
    (w.enrol plan api bus).hosts.keys = w.hosts.keys ++ [w.hosts.fresh] := by
  have hfresh := hlinked.fresh
  rw [Has] at hfresh
  show Store.keys (w.hosts.put _ _) = _
  rw [Store.keys_put, if_neg hfresh]

theorem enrol_host (key : Nat) :
    (w.enrol plan api bus).host key =
      if w.hosts.fresh = key then .ofPlan plan api (w.registry plan.registry).nextId bus
      else w.host key := by
  simp [enrol]

theorem enrol_registry (name : String) :
    (w.enrol plan api bus).registry name =
      if plan.registry = name then (w.registry name).register w.hosts.fresh
      else w.registry name := by
  simp only [enrol, registry_updateRegistry]
  split
  · rename_i heq
    subst heq
    rfl
  · rfl

theorem enrol_roster (hlinked : w.Linked) (hroster : w.Roster) :
    (w.enrol plan api bus).Roster := by
  have hfresh := hlinked.fresh
  have hhas : ∀ key, (w.enrol plan api bus).Has key ↔ w.Has key ∨ key = w.hosts.fresh := by
    intro key
    rw [Has, enrol_keys plan api bus hlinked]
    simp [Has]
  have hold : ∀ key, w.Has key → (w.enrol plan api bus).host key = w.host key := by
    intro key hkey
    rw [enrol_host, if_neg]
    rintro rfl
    exact hfresh hkey
  have hnew : (w.enrol plan api bus).host w.hosts.fresh =
      .ofPlan plan api (w.registry plan.registry).nextId bus := by
    rw [enrol_host, if_pos rfl]
  -- an old host of the registry has a number below the one that is given out
  have hbelow : ∀ key, w.Has key → (w.host key).registry = plan.registry →
      (w.host key).id < (w.registry plan.registry).nextId := fun key hkey hregistry =>
    hregistry ▸ hroster.numbers key hkey
  refine ⟨fun name id key hmember => ?_, fun key hkey => ?_, fun key other hkey hother => ?_⟩
  · rw [hhas]
    have hcases : (id, key) ∈ (w.registry name).members ∨
        plan.registry = name ∧ id = (w.registry name).nextId ∧ key = w.hosts.fresh := by
      rw [enrol_registry] at hmember
      split at hmember
      · rename_i heq
        rcases List.mem_append.mp hmember with hmember | hmember
        · exact .inl hmember
        · cases List.mem_singleton.mp hmember
          exact .inr ⟨heq, rfl, rfl⟩
      · exact .inl hmember
    rcases hcases with hmember | ⟨rfl, rfl, rfl⟩
    · obtain ⟨hkey, hid, hregistry⟩ := hroster.members name id key hmember
      rw [hold key hkey]
      exact ⟨.inl hkey, hid, hregistry⟩
    · rw [hnew]
      exact ⟨.inr rfl, rfl, rfl⟩
  · rcases (hhas key).mp hkey with hkey | rfl
    · rw [hold key hkey, enrol_registry]
      have hnumber := hroster.numbers key hkey
      split
      · exact Nat.lt_succ_of_lt hnumber
      · exact hnumber
    · rw [hnew]
      show (w.registry plan.registry).nextId <
        ((w.enrol plan api bus).registry plan.registry).nextId
      rw [enrol_registry, if_pos rfl]
      exact Nat.lt_succ_self _
  · rcases (hhas key).mp hkey with hkey | rfl <;> rcases (hhas other).mp hother with hother | rfl
    · rw [hold key hkey, hold other hother]
      exact hroster.unique key other hkey hother
    · rw [hold key hkey, hnew]
      intro hregistry hid
      exact absurd hid (Nat.ne_of_lt (hbelow key hkey hregistry))
    · rw [hold other hother, hnew]
      intro hregistry hid
      exact absurd hid.symm (Nat.ne_of_lt (hbelow other hother hregistry.symm))
    · exact fun _ _ => rfl

theorem enrol_linked (hlinked : w.Linked) : (w.enrol plan api bus).Linked := by
  have hkeys := enrol_keys plan api bus hlinked
  have hlength : (w.enrol plan api bus).hosts.length = w.hosts.length + 1 := by
    simpa [Store.keys] using congrArg List.length hkeys
  have hhas : ∀ key, w.Has key → (w.enrol plan api bus).Has key := by
    intro key hkey
    rw [Has, hkeys]
    exact List.mem_append_left _ hkey
  refine ⟨?_, fun name key h => hhas key (hlinked.names name key h),
    fun name key h => hhas key (hlinked.handles name key h),
    fun f hf => hhas f.host (hlinked.fetches f hf),
    fun name job h => hhas job.host (hlinked.jobs name job h)⟩
  rw [hkeys, hlength, List.range_succ, hlinked.keys, Store.fresh]

end Enrol

/-- Without room for events nothing is built. Otherwise the new host is entered, and then it takes
its name over from an older host. -/
theorem build_cases (w : World) (plan : HostPlan) (api : List Action) :
    (w.build plan api).1 = { w with crashed := true } ∨
      ∃ (bus : Nat) (entered : World), entered.ties = (w.enrol plan api bus).ties ∧
        entered.journal = w.journal ∧ entered.clock = w.clock ∧
        (w.build plan api).1 = { entered.unname plan.name with
          names := (entered.unname plan.name).names.put plan.name w.hosts.fresh } := by
  -- whether the bus is shared or new, it stays clear of the ties
  have hentered : ∀ (bus : Nat) (based : World), based.ties = w.ties →
      (((based.setHost based.hosts.fresh
        (.ofPlan plan api (w.registry plan.registry).nextId bus)).updateRegistry
          plan.registry fun r => r.register based.hosts.fresh).subscribe plan.name bus).ties =
        (w.enrol plan api bus).ties := by
    intro bus based hties
    have hhosts : based.hosts = w.hosts := hosts_of_ties hties
    have hregistries : based.registries = w.registries := registries_of_ties hties
    simp only [ties, Ties.mk.injEq] at hties
    simp only [enrol, hhosts, ties, subscribe, updateRegistry, World.registry, setHost,
      hregistries, hties]
  unfold build
  dsimp only
  split
  · exact .inl rfl
  · rename_i bus based hfound
    right
    split at hfound
    · cases hfound
      exact ⟨bus, _, hentered bus w rfl, rfl, rfl, rfl⟩
    · simp only [Option.map_eq_some_iff] at hfound
      obtain ⟨made, _, hadd⟩ := hfound
      cases hadd
      exact ⟨w.buses.fresh, _, hentered w.buses.fresh (w.addBus made).2 rfl, rfl, rfl, rfl⟩

end TickHost.World
