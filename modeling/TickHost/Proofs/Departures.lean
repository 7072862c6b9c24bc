import TickHost.Proofs.Returns
import TickHost.Proofs.Standstill
import TickHost.Proofs.Touches

/-!
Which hosts are still registered after they have ended. A host that ends leaves its registry by
itself, unless a stop-all call is under way, which is to take it off. But a call only takes off the
hosts that it waits for and those that nobody can reach any more, and one that is dropped takes
nobody off. So a host that ends while everything is stopping, and of which somebody still has a
handle, is registered on, until a later call finds that it cannot be reached.
-/

namespace TickHost

open World Machine

namespace World

/-- Exactly those members leave their registry that end while nobody is stopping it. -/
def Retires (w w' : World) : Prop :=
  ∀ name id key, (id, key) ∈ (w.registry name).members →
    ((id, key) ∈ (w'.registry name).members ↔
      (w'.host key).alive = (w.host key).alive ∨ (w.registry name).isStopping = true)

variable {w w' w'' : World}

theorem Retires.of_keeps (halive : ∀ key, w.Keeps (.alive key) w')
    (hmembers : ∀ name, w.Keeps (.members name) w') : w.Retires w' := by
  intro name id key hmem
  have hkept : (w'.registry name).members.Perm (w.registry name).members := hmembers name
  exact ⟨fun _ => .inl (halive key), fun _ => hkept.mem_iff.mpr hmem⟩

/-- Before hosts end others may be held or lose their names. -/
theorem Retires.after (h : w'.Retires w'') (hregistries : w'.registries = w.registries)
    (halive : ∀ key, (w'.host key).alive = (w.host key).alive) : w.Retires w'' := by
  intro name id key hmem
  have hregistry : w'.registry name = w.registry name := by rw [registry, registry, hregistries]
  rw [← halive, ← hregistry]
  exact h name id key (by rwa [hregistry])

/-- A host stays, or it ends and leaves its registry unless that is being stopped. -/
theorem settle_cases (w : World) (key : Nat) : w.settle key = w ∨
    (w.host key).alive = true ∧ ((w.settle key).host key).alive = false ∧
      ∀ name, (w.settle key).registry name =
        if w.isStopping key = false ∧ (w.host key).registry = name
        then (w.registry name).unregister (w.host key).id else w.registry name := by
  unfold settle
  split
  · rename_i hends
    refine .inr ⟨(Bool.and_eq_true _ _ ▸ hends).1, ?_, fun name => ?_⟩ <;> dsimp only <;> split
    · simp
    · simp
    · rename_i hstopping
      simp only [hstopping, Bool.true_eq_false, false_and, if_false]
      rfl
    · rename_i hopen
      rw [registry_updateRegistry]
      simp only [hopen, true_and]
      split
      · rename_i heq
        subst heq
        rfl
      · rfl
  · exact .inl rfl

theorem settle_retires (hroster : w.Roster) (key : Nat) : w.Retires (w.settle key) := by
  rcases settle_cases w key with hstays | ⟨halive, hdead, hregistry⟩
  · rw [hstays]
    exact .of_keeps (fun _ => .refl w) fun _ => .refl w
  · intro name id member hmem
    obtain ⟨hhas, hid, hname⟩ := hroster.members name id member hmem
    rw [hregistry]
    by_cases hself : member = key
    · subst hself
      have hstopping : w.isStopping member = (w.registry name).isStopping := by
        rw [isStopping, hname]
      rw [hdead, halive, ← hstopping]
      cases w.isStopping member with
      | true => simpa using hmem
      | false => simp [hname, Registry.unregister, hid]
    · have hkept := settle_keeps (a := .alive member) w key (by simpa using hself)
        fun hsame => by cases hsame
      refine ⟨fun _ => .inl hkept, fun _ => ?_⟩
      split
      · rename_i hsame
        refine List.mem_filter.mpr ⟨hmem, ?_⟩
        -- another host of the registry has another number
        have hne : id ≠ (w.host key).id := fun h =>
          hself (hroster.unique member key hhas (has_of_alive halive) (hname.trans hsame.2.symm)
            (hid.trans h))
        simpa using hne
      · exact hmem

theorem release_retires (hroster : w.Roster) {key : Nat} (hkey : w.Has key) :
    w.Retires (w.release key) := by
  have hfree : w.Lapses (w.updateHost key fun h => { h with users := h.users - 1 }) :=
    .act hkey fun _ => .hold _
  refine .after (settle_retires (hfree.toCurbs.roster hroster) key) rfl fun other => ?_
  rw [host_updateHost]
  split
  · rename_i heq
    rw [heq]
  · rfl

theorem unname_retires (hroster : w.Roster) (name : String) : w.Retires (w.unname name) := by
  unfold unname
  split
  · rename_i key _
    have herased : ({ w with names := w.names.erase name } : World).Roster :=
      ⟨hroster.members, hroster.numbers, hroster.unique⟩
    exact .after (settle_retires herased key) rfl fun _ => rfl
  · exact .of_keeps (fun _ => .refl w) fun _ => .refl w

/-- A host that is built may take its name over from one that ends with that. -/
theorem build_retires (hlinked : w.Linked) (hroster : w.Roster) (plan : HostPlan)
    (api : List Action) : w.Retires (w.build plan api).1 := by
  rcases build_cases w plan api with hcrash | ⟨bus, entered, hties, -, -, hbuild⟩
  · rw [hcrash]
    exact .of_keeps (fun _ => .aside rfl rfl rfl (Nat.le_refl _))
      fun _ => .aside rfl rfl rfl (Nat.le_refl _)
  · have hentered : entered.Roster :=
      .of_ties hties (enrol_roster plan api bus hlinked hroster)
    intro name id key hmem
    have hkey : w.hosts.fresh ≠ key := by
      rintro rfl
      exact hlinked.fresh (hroster.members name id _ hmem).1
    have hhost : entered.host key = w.host key := by
      rw [host_of_ties hties, enrol_host, if_neg hkey]
    have hentry : (id, key) ∈ (entered.registry name).members := by
      rw [registry_of_ties hties, enrol_registry]
      split
      · exact List.mem_append_left _ hmem
      · exact hmem
    have hstopping : (entered.registry name).isStopping = (w.registry name).isStopping := by
      rw [registry_of_ties hties, enrol_registry]
      split <;> rfl
    have hunname := unname_retires hentered plan.name name id key hentry
    rw [hhost, hstopping] at hunname
    rw [hbuild]
    exact hunname

/-- A host that is built starts as its plan says, and then takes its name over, which leaves it
alone: the name belonged to an older host. -/
theorem build_starts (hlinked : w.Linked) (plan : HostPlan) (api : List Action)
    (hbuilt : (w.build plan api).1.Has w.hosts.fresh) : ∃ (entered : World) (id bus : Nat),
      entered.host w.hosts.fresh = .ofPlan plan api id bus ∧
        ∀ a, (∀ registry, a ≠ .members registry) → (∀ key, w.Has key → a ≠ .alive key) →
          entered.Keeps a (w.build plan api).1 := by
  rcases build_cases w plan api with hcrash | ⟨bus, entered, hties, -, -, hbuild⟩
  · rw [hcrash] at hbuilt
    exact absurd hbuilt hlinked.fresh
  · refine ⟨entered, (w.registry plan.registry).nextId, bus, ?_, fun a hmembers halive => ?_⟩
    · rw [host_of_ties hties, enrol_host, if_pos rfl]
    · have hkept : entered.Keeps a (entered.unname plan.name) := by
        refine unname_keeps entered (fun key hname => ?_) hmembers
        rw [names_of_ties hties] at hname
        exact halive key (hlinked.names plan.name key hname)
      rw [hbuild]
      exact hkept.trans (.aside rfl rfl rfl (Nat.le_refl _))

/-- A host that is built exists. -/
theorem build_alive (hlinked : w.Linked) (plan : HostPlan) (api : List Action)
    (hbuilt : (w.build plan api).1.Has w.hosts.fresh) :
    ((w.build plan api).1.host w.hosts.fresh).alive = true := by
  obtain ⟨entered, id, bus, hstart, hkeeps⟩ := build_starts hlinked plan api hbuilt
  have halive : entered.Keeps (.alive w.hosts.fresh) (w.build plan api).1 := by
    refine hkeeps _ nofun fun key hold heq => ?_
    cases heq
    exact hlinked.fresh hold
  exact Eq.trans halive (congrArg Host.alive hstart)

/-! What a registry says of a host. -/

/-- No registry lists a host twice. -/
def Distinct (w : World) : Prop :=
  ∀ name, ((w.registry name).members.map Prod.snd).Nodup

theorem Effect.distinct {fetching waiting : Bool} (heffect : Effect fetching waiting w w')
    (hlinked : w.Linked) (hroster : w.Roster) (h : w.Distinct) : w'.Distinct := by
  intro name
  cases heffect with
  | moves hmoves =>
      rw [registry, hmoves.registries]
      exact h name
  | lapses hlapses => exact ((hlapses.members name).map _).nodup (h name)
  | waits _ hcurbs => exact ((hcurbs.members name).map _).nodup (h name)
  | crash hties _ =>
      rw [registry_of_ties hties]
      exact h name
  | builds plan api bus hties _ hlapses hnamed _ =>
      rw [registry_of_ties hnamed]
      refine ((hlapses.members name).map _).nodup ?_
      rw [registry_of_ties hties, enrol_registry]
      split
      · rw [Registry.register, List.map_append]
        refine List.nodup_append.mpr ⟨h name, List.pairwise_singleton _ _, ?_⟩
        intro key hold last hlast heq
        cases List.mem_singleton.mp hlast
        subst heq
        obtain ⟨⟨id, key⟩, hmem, hlast⟩ := List.mem_map.mp hold
        cases hlast
        exact hlinked.fresh (hroster.members name id _ hmem).1
      · exact h name

/-- The size of a registry counts the hosts that are registered. -/
theorem size_eq (hlinked : w.Linked) (hroster : w.Roster) (hdistinct : w.Distinct)
    (registry : String) : (w.registryReport registry).size =
      (w.hosts.keys.filter (w.enlists registry)).length := by
  have hkeys : w.hosts.keys.Nodup := by
    rw [hlinked.keys]
    exact List.nodup_range
  have hsame : ((w.registry registry).members.map Prod.snd).Perm
      (w.hosts.keys.filter (w.enlists registry)) := by
    apply (List.perm_ext_iff_of_nodup (hdistinct registry) (List.filter_sublist.nodup hkeys)).mpr
    intro key
    rw [List.mem_map, List.mem_filter, enlists_iff]
    constructor
    · rintro ⟨⟨id, key⟩, hmem, rfl⟩
      exact ⟨(hroster.members registry id key hmem).1, id, hmem⟩
    · rintro ⟨-, id, hmem⟩
      exact ⟨(id, key), hmem, rfl⟩
  exact (List.length_map Prod.snd).symm.trans hsame.length_eq

section Own

variable {registry : String} {key : Nat} (hroster : w.Roster) (hkey : w.Has key)
  (hown : (w.host key).registry = registry)

include hroster hkey hown

/-- What a registry lists under the number of its host is that host. -/
theorem own_of_id {other : Nat}
    (hmem : ((w.host key).id, other) ∈ (w.registry registry).members) : other = key := by
  obtain ⟨hother, hnumber, hregistry⟩ := hroster.members registry _ other hmem
  exact hroster.unique other key hother hkey (hregistry.trans hown.symm) hnumber

theorem contains_own :
    (w.registry registry).contains (w.host key).id = w.enlists registry key := by
  rw [Bool.eq_iff_iff, enlists_iff, Registry.contains, List.any_eq_true]
  constructor
  · rintro ⟨⟨id, other⟩, hmem, hid⟩
    obtain rfl : id = (w.host key).id := by simpa using hid
    exact ⟨_, own_of_id hroster hkey hown hmem ▸ hmem⟩
  · rintro ⟨id, hmem⟩
    have hnumber := (hroster.members registry id key hmem).2.1
    exact ⟨(id, key), hmem, by simpa using hnumber.symm⟩

theorem handed_own :
    (w.host key).id ∈ (w.registryReport registry).handles.map (·.id) ↔
      w.enlists registry key = true ∧ w.isShared key = true := by
  simp only [registryReport, List.map_map, List.mem_map, List.mem_filter]
  constructor
  · rintro ⟨⟨id, other⟩, ⟨hmem, hshared⟩, hid⟩
    obtain rfl : id = (w.host key).id := (hroster.members registry id other hmem).2.1.symm.trans hid
    obtain rfl := own_of_id hroster hkey hown hmem
    exact ⟨enlists_iff.mpr ⟨_, hmem⟩, hshared⟩
  · rintro ⟨hlisted, hshared⟩
    obtain ⟨id, hmem⟩ := enlists_iff.mp hlisted
    exact ⟨(id, key), ⟨hmem, hshared⟩, rfl⟩

end Own

/-- A call that is complete has left only hosts registered that can still be reached. -/
theorem visitAll_shared {registry : String} {rest : List (Nat × Nat)}
    (hnone : (visitAll registry rest w).1 = none) {id key : Nat}
    (hmem : (id, key) ∈ ((visitAll registry rest w).2.registry registry).members) :
    (visitAll registry rest w).2.isShared key = true := by
  induction rest generalizing w with
  | nil =>
      simp only [visitAll, endStopAll, registry_updateRegistry, if_true] at hmem ⊢
      rw [isShared_updateRegistry]
      exact (List.mem_filter.mp hmem).2
  | cons entry rest ih =>
      obtain ⟨first, host⟩ := entry
      by_cases hgone : w.isShared host = true
      · cases hrunning : (w.host host).running with
        | false =>
            simp only [visitAll, hgone, hrunning, Bool.not_true, Bool.not_false,
              Bool.false_eq_true, if_true, if_false] at hnone hmem ⊢
            exact ih hnone hmem
        | true =>
            simp only [visitAll, hgone, hrunning, Bool.not_true, Bool.false_eq_true, if_false]
              at hnone hmem ⊢
            split at hnone
            · cases hnone
            · rename_i hquiet
              rw [if_neg hquiet] at hmem ⊢
              split at hnone
              · rename_i hdone
                rw [if_pos hdone] at hmem ⊢
                exact ih hnone hmem
              · cases hnone
      · simp only [visitAll, hgone, Bool.not_false, if_true] at hnone hmem ⊢
        exact ih hnone hmem

/-- A call that is complete has visited all of its hosts. -/
theorem visited_of_resume {call : StopAll} (hnone : (w.resume call).1 = none) :
    ∃ w' : World, w.resume call = w'.visited call := by
  unfold resume at hnone ⊢
  cases hstage : call.stage with
  | evaluations =>
      simp only [hstage] at hnone ⊢
      split at hnone
      · cases hnone
      · rename_i hquiet
        rw [if_neg hquiet]
        split at hnone
        · rename_i hdone
          rw [if_pos hdone]
          exact ⟨_, rfl⟩
        · cases hnone
  | done =>
      simp only [hstage] at hnone ⊢
      split at hnone
      · rename_i hdone
        rw [if_pos hdone]
        exact ⟨_, rfl⟩
      · cases hnone

theorem resume_shared {call : StopAll} (hnone : (w.resume call).1 = none) {id key : Nat}
    (hmem : (id, key) ∈ ((w.resume call).2.registry call.registry).members) :
    (w.resume call).2.isShared key = true := by
  obtain ⟨w', hvisited⟩ := visited_of_resume hnone
  rw [hvisited] at hnone hmem ⊢
  exact visitAll_shared hnone hmem

theorem doDeed_shared {deed : WorldDeed} {registry : String}
    (hstops : deed.stops w registry = true) (hready : (w.doDeed deed).2.isReady = true)
    {id key : Nat} (hmem : (id, key) ∈ ((w.doDeed deed).1.registry registry).members) :
    (w.doDeed deed).1.isShared key = true := by
  have hcomplete : ∀ {name : String} {left : Option StopAll × World},
      (keepCall name left).2.isReady = true → (keepCall name left).1 = left.2 := by
    intro name left h
    obtain ⟨_ | call, w'⟩ := left
    · rfl
    · cases h
  cases deed with
  | stopAll name job =>
      obtain rfl : name = registry := by simpa [WorldDeed.stops] using hstops
      simp only [doDeed, stopAll] at hready hmem ⊢
      rw [hcomplete hready] at hmem ⊢
      exact visitAll_shared (keepCall_none hready) hmem
  | poll job =>
      cases hkept : w.jobs.get? job with
      | none => simp [WorldDeed.stops, hkept] at hstops
      | some kept =>
          cases kept with
          | stopAll call =>
              obtain rfl : call.registry = registry := by
                simpa [WorldDeed.stops, hkept] using hstops
              simp only [doDeed, poll, hkept] at hready hmem ⊢
              rw [hcomplete hready] at hmem ⊢
              exact resume_shared (keepCall_none hready) hmem
          | done _ | evaluations _ => simp [WorldDeed.stops, hkept] at hstops
  | _ => cases hstops

end World

namespace Task

variable {w : World} {o : Outcome} {t : Task}

/-- The tasks that may end a host. -/
def ends : Task → Bool
  | release _ | perform _ (.build _ _ :: _) | perform _ (.onWorld (.dropHost _) :: _) => true
  | _ => false

theorem ends_of_touches_alive {key : Nat} (h : t.touches w (.alive key) = true) :
    t.ends = true := by
  rcases touches_others h nofun nofun nofun nofun with ⟨_, _, _, _, rfl⟩ |
    ⟨_, deed, _, rfl, hdeed⟩ | hplain
  · rfl
  · cases deed <;> first | rfl | cases hdeed
  · cases t <;> first | rfl | cases hplain; done | cases h

theorem ends_of_touches_members {name : String} (h : t.touches w (.members name) = true)
    (hwaits : t.waits = false) : t.ends = true := by
  rcases touches_others h nofun nofun nofun nofun with ⟨_, _, _, _, rfl⟩ |
    ⟨_, deed, _, rfl, hdeed⟩ | hplain
  · rfl
  · cases deed <;> first | rfl | cases hwaits; done | cases hdeed
  · cases t <;> first | rfl | cases hplain; done | cases h

theorem waits_of_ends (hends : t.ends = true) : t.waits = false := by
  unfold ends at hends
  split at hends
  · rfl
  · rfl
  · rfl
  · cases hends

/-- Only what deals with jobs takes hosts off that do not end in the same moment. -/
theorem react_retires (hlinked : w.Linked) (hkeys : ∀ key, t.host? = some key → w.Has key)
    (hroster : w.Roster) (hwaits : t.waits = false) : w.Retires (react w o t).world := by
  by_cases hends : t.ends = true
  · unfold ends at hends
    split at hends
    · exact release_retires hroster (hkeys _ rfl)
    · exact build_retires hlinked hroster _ _
    · simp only [react, performOne, start, doDeed]
      split
      · exact unname_retires hroster _
      · exact .of_keeps (fun _ => note_keeps w _) fun _ => note_keeps w _
    · cases hends
  · refine .of_keeps (fun key => ?_) fun name => ?_
    · refine react_keeps w o hlinked ?_
      cases htouches : t.touches w (.alive key) with
      | false => rfl
      | true => exact absurd (ends_of_touches_alive htouches) hends
    · refine react_keeps w o hlinked ?_
      cases htouches : t.touches w (.members name) with
      | false => rfl
      | true => exact absurd (ends_of_touches_members htouches hwaits) hends

/-- Only building a host gives a number out. -/
theorem builds_of_touches_numbers {name : String} (h : t.touches w (.numbers name) = true) :
    ∃ scope plan api rest, t = .perform scope (.build plan api :: rest) := by
  rcases touches_others h nofun nofun nofun nofun with hbuild | ⟨_, deed, _, -, hdeed⟩ | hplain
  · exact hbuild
  · cases deed <;> cases hdeed
  · cases t <;> first | cases hplain; done | cases h

end Task

/-- A host ends in this step. -/
def Perishes (σ : Nat → Machine) (key n : Nat) : Prop :=
  ((σ n).world.host key).alive = true ∧ ((σ (n + 1)).world.host key).alive = false

instance (σ : Nat → Machine) (key n : Nat) : Decidable (Perishes σ key n) :=
  inferInstanceAs (Decidable (_ ∧ _))

namespace Behavior

variable {σ : Nat → Machine} (hσ : Behavior σ) {registry : String} {key n m : Nat}

include hσ

/-- A host that was not there before was built in this step. -/
theorem built (hnew : ¬ (σ n).world.Has key) (hkey : (σ (n + 1)).world.Has key) :
    ∃ scope plan api actions rest,
      Executes σ n (.perform scope (.build plan api :: actions)) rest ∧
        key = (σ n).world.hosts.fresh := by
  obtain ⟨t, rest, hexec, hsets⟩ := hσ.founded hnew hkey
  have hsound := hσ.sound n
  rw [world_after hexec] at hkey
  obtain ⟨registry, hnumber, hlast⟩ := (Task.react_effect (o := (σ n).outcome) hsound.linked
    (hsound.head hexec.agenda) hsets).newcomer hsound.linked hnew hkey
  have htouches : t.touches (σ n).world (.numbers registry) = true := by
    cases htouches : t.touches (σ n).world (.numbers registry) with
    | true => rfl
    | false =>
        have hkept := Task.react_keeps _ (σ n).outcome hsound.linked htouches
        exact absurd hkept hnumber
  obtain ⟨scope, plan, api, actions, rfl⟩ := Task.builds_of_touches_numbers htouches
  exact ⟨scope, plan, api, actions, rest, hexec, hlast⟩

/-- A host that is gone ended at some moment since it was built. -/
theorem perished (hkey : (σ n).world.Has key) (hgone : ((σ n).world.host key).alive = false) :
    ∃ p, p < n ∧ (σ p).world.Has key ∧ Perishes σ key p := by
  obtain ⟨b, hbn, hnew, hbuilt⟩ := hσ.born hkey
  have halive : ((σ (b + 1)).world.host key).alive = true := by
    obtain ⟨scope, plan, api, actions, rest, hexec, rfl⟩ := hσ.built hnew hbuilt
    rw [world_after hexec] at hbuilt ⊢
    exact build_alive (hσ.sound b).linked plan api hbuilt
  obtain ⟨p, hbp, hpn, hdown, hafter⟩ :=
    exists_rise (fun i => !((σ i).world.host key).alive) hbn (by simpa using halive)
      (by simpa using hgone)
  refine ⟨p, hpn, hσ.has_later hbp hbuilt, ?_, by simpa using hafter⟩
  simpa using hdown p hbp (Nat.le_refl p)

omit hσ in
theorem not_takesOff_of_enlists (hlisted : (σ (n + 1)).world.enlists registry key = true) :
    ¬ TakesOff σ registry key n :=
  fun htakes => absurd (htakes.2.2.symm.trans hlisted) Bool.false_ne_true

/-- Nobody who was built before is registered anew. -/
theorem enlists_back {t : Task} {rest : List Task} (hexec : Executes σ n t rest)
    (hkey : (σ n).world.Has key) {id : Nat}
    (hmem : (id, key) ∈ ((σ (n + 1)).world.registry registry).members) :
    (id, key) ∈ ((σ n).world.registry registry).members := by
  have hsound := hσ.sound n
  rw [world_after hexec] at hmem
  exact Task.react_members hsound.linked (hsound.head hexec.agenda) hmem hkey

/-- While nobody waits for a registry a host stays registered unless it ends while nobody is
stopping it. -/
theorem enlists_quietly (registry : String) {t : Task} {rest : List Task}
    (hexec : Executes σ n t rest) (hwaits : t.waits = false) (hkey : (σ n).world.Has key) :
    (σ (n + 1)).world.enlists registry key = true ↔
      (σ n).world.enlists registry key = true ∧
        (((σ (n + 1)).world.host key).alive = ((σ n).world.host key).alive ∨
          ((σ n).world.registry registry).isStopping = true) := by
  have hsound := hσ.sound n
  have hretires := Task.react_retires (o := (σ n).outcome) hsound.linked
    (hsound.head hexec.agenda) hsound.roster hwaits registry
  rw [← world_after hexec] at hretires
  simp only [enlists_iff]
  constructor
  · rintro ⟨id, hmem⟩
    have hbefore := hσ.enlists_back hexec hkey hmem
    exact ⟨⟨id, hbefore⟩, (hretires id key hbefore).mp hmem⟩
  · rintro ⟨⟨id, hmem⟩, hstays⟩
    exact ⟨id, (hretires id key hmem).mpr hstays⟩

/-- A poll ends no host, and takes hosts off only by a call that stops their registry. -/
theorem enlists_waiting (registry : String) {t : Task} {rest : List Task}
    (hexec : Executes σ n t rest) (hwaits : t.waits = true) (hkey : (σ n).world.Has key) :
    ((σ (n + 1)).world.enlists registry key = true ↔
        (σ n).world.enlists registry key = true ∧ ¬ TakesOff σ registry key n) ∧
      ((σ (n + 1)).world.host key).alive = ((σ n).world.host key).alive := by
  constructor
  · constructor
    · intro hlisted
      obtain ⟨id, hmem⟩ := enlists_iff.mp hlisted
      exact ⟨enlists_iff.mpr ⟨id, hσ.enlists_back hexec hkey hmem⟩,
        not_takesOff_of_enlists hlisted⟩
    · rintro ⟨hlisted, hleft⟩
      obtain ⟨scope, deed, actions, rfl, hdeed⟩ := Task.deed_of_waits hwaits
      cases hstops : deed.stops (σ n).world registry with
      | true =>
          cases hafter : (σ (n + 1)).world.enlists registry key with
          | true => rfl
          | false =>
              have hcalled : Stops σ registry n := ⟨scope, deed, actions, rest, hexec, hstops⟩
              exact absurd ⟨hcalled, hlisted, hafter⟩ hleft
      | false =>
          obtain ⟨id, hmem⟩ := enlists_iff.mp hlisted
          refine enlists_iff.mpr ⟨id, ?_⟩
          rw [world_of_deed hexec hdeed]
          show _ ∈ (((σ n).world.doDeed deed).1.registry registry).members
          rw [doDeed_other hdeed hstops]
          exact hmem
  · have huntouched : t.touches (σ n).world (.alive key) = false := by
      cases htouches : t.touches (σ n).world (.alive key) with
      | false => rfl
      | true =>
          rw [Task.waits_of_ends (Task.ends_of_touches_alive htouches)] at hwaits
          cases hwaits
    rw [world_after hexec]
    exact Task.react_keeps (σ n).world (σ n).outcome (hσ.sound n).linked huntouched

/-- A host stays registered unless a stop-all call takes it off, or it ends while nobody is
stopping its registry. -/
theorem enlists_step (hkey : (σ n).world.Has key)
    (hown : ((σ n).world.host key).registry = registry) :
    (σ (n + 1)).world.enlists registry key = true ↔
      (σ n).world.enlists registry key = true ∧ ¬ TakesOff σ registry key n ∧
        (((σ (n + 1)).world.host key).alive = ((σ n).world.host key).alive ∨
          (σ n).world.isStopping key = true) := by
  rw [isStopping, hown]
  rcases (hσ.next n).cases with hsame | ⟨t, rest, hagenda, hstep⟩
  · have hlisted : (σ (n + 1)).world.enlists registry key = true ↔
        (σ n).world.enlists registry key = true := by
      simp only [enlists_iff, (hsame.members registry).mem_iff]
    rw [hlisted, hsame.host]
    refine ⟨fun h => ⟨h, not_takesOff_of_enlists (hlisted.mpr h), .inl rfl⟩, fun h => h.1⟩
  · have hexec : Executes σ n t rest := ⟨hagenda, hstep⟩
    cases hwaits : t.waits with
    | false =>
        have hquiet := hσ.enlists_quietly registry hexec hwaits hkey
        constructor
        · intro hlisted
          obtain ⟨hbefore, hstays⟩ := hquiet.mp hlisted
          exact ⟨hbefore, not_takesOff_of_enlists hlisted, hstays⟩
        · rintro ⟨hbefore, -, hstays⟩
          exact hquiet.mpr ⟨hbefore, hstays⟩
    | true =>
        obtain ⟨hlisted, halive⟩ := hσ.enlists_waiting registry hexec hwaits hkey
        rw [hlisted]
        exact ⟨fun h => ⟨h.1, h.2, .inl halive⟩, fun h => ⟨h.1, h.2.1⟩⟩

/-- A host that is registered has been since it was built. -/
theorem enlisted_before (hnm : n ≤ m) (hkey : (σ n).world.Has key)
    (hown : ((σ n).world.host key).registry = registry)
    (hlisted : (σ m).world.enlists registry key = true) :
    (σ n).world.enlists registry key = true := by
  induction hnm with
  | refl => exact hlisted
  | @step m hnm ih =>
      have hsame := (hσ.identity hnm hkey).2.trans hown
      exact ih ((hσ.enlists_step (hσ.has_later hnm hkey) hsame).mp hlisted).1

/-- A host that has ended stays registered until a stop-all call takes it off. -/
theorem enlists_later (hnm : n ≤ m) (hkey : (σ n).world.Has key)
    (hown : ((σ n).world.host key).registry = registry)
    (hgone : ((σ n).world.host key).alive = false) :
    (σ m).world.enlists registry key = true ↔
      (σ n).world.enlists registry key = true ∧
        ∀ i, n ≤ i → i < m → ¬ TakesOff σ registry key i := by
  have hdead : ∀ i, n ≤ i → ((σ i).world.host key).alive = false := by
    intro i hni
    cases halive : ((σ i).world.host key).alive with
    | false => rfl
    | true => exact absurd (hgone.symm.trans (hσ.alive_before hni hkey halive)) Bool.false_ne_true
  induction hnm with
  | refl => exact ⟨fun h => ⟨h, fun i hni hin => absurd hin (Nat.not_lt.mpr hni)⟩, fun h => h.1⟩
  | @step m hnm ih =>
      have hlater := hσ.has_later hnm hkey
      have hsame := (hσ.identity hnm hkey).2.trans hown
      rw [hσ.enlists_step hlater hsame, hdead m hnm, hdead (m + 1) (Nat.le_succ_of_le hnm)]
      constructor
      · rintro ⟨hlisted, hlast, -⟩
        obtain ⟨hfirst, hbefore⟩ := ih.mp hlisted
        refine ⟨hfirst, fun i hni him => ?_⟩
        rcases Nat.lt_or_eq_of_le (Nat.le_of_lt_succ him) with hlt | rfl
        · exact hbefore i hni hlt
        · exact hlast
      · rintro ⟨hfirst, hnever⟩
        exact ⟨ih.mpr ⟨hfirst, fun i hni him => hnever i hni (Nat.lt_succ_of_lt him)⟩,
          hnever m hnm (Nat.lt_succ_self m), .inl rfl⟩

/-- A host does not end in a step in which a stop-all call takes it off. -/
theorem not_takesOff_of_perishes (hperishes : Perishes σ key n) : ¬ TakesOff σ registry key n := by
  rintro ⟨⟨scope, deed, actions, rest, hexec, hstops⟩, -⟩
  rcases hσ.keeps (.alive key) n with hkept | ⟨t, below, hother, htouches⟩
  · exact absurd (hperishes.1.symm.trans (hkept.symm.trans hperishes.2)) Bool.true_eq_false.mp
  · have hagenda := hexec.agenda.symm.trans hother.agenda
    cases hagenda
    have hwaits := Task.waits_of_ends (Task.ends_of_touches_alive htouches)
    exact absurd ((WorldDeed.waits_of_stops hstops).symm.trans hwaits) Bool.true_eq_false.mp

omit hσ in
/-- A call that returns has left only hosts registered that can still be reached. -/
theorem shared_of_returns (hreturns : Returns σ registry n)
    (hlisted : (σ (n + 1)).world.enlists registry key = true) :
    (σ (n + 1)).world.isShared key = true := by
  obtain ⟨scope, deed, actions, rest, hexec, hstops, hready⟩ := hreturns
  obtain ⟨id, hmem⟩ := enlists_iff.mp hlisted
  rw [world_of_deed hexec (WorldDeed.waits_of_stops hstops)] at hmem ⊢
  exact doDeed_shared hstops hready hmem

/-- A host that has ended is registered if it was when it ended, during a stop-all call, and no such
call has taken it off since. -/
theorem enlists_of_perished (hkey : (σ n).world.Has key)
    (hown : ((σ n).world.host key).registry = registry)
    (hgone : ((σ n).world.host key).alive = false) :
    (σ n).world.enlists registry key = true ↔ ∃ p, p < n ∧ Perishes σ key p ∧
      (σ p).world.enlists registry key = true ∧ (σ p).world.isStopping key = true ∧
      ∀ i, p < i → i < n → ¬ TakesOff σ registry key i := by
  -- the registry of a host that ended earlier is the same
  have hsame : ∀ {p}, p < n → (σ p).world.Has key →
      ((σ p).world.host key).registry = registry ∧
        ((σ (p + 1)).world.host key).registry = registry := fun hpn hhas =>
    ⟨(hσ.identity (Nat.le_of_lt hpn) hhas).2.symm.trans hown,
      (hσ.identity hpn (hσ.has hhas)).2.symm.trans hown⟩
  constructor
  · intro hlisted
    obtain ⟨p, hpn, hhas, hperishes⟩ := hσ.perished hkey hgone
    obtain ⟨hat, hafter⟩ := hsame hpn hhas
    obtain ⟨hstill, hnever⟩ :=
      (hσ.enlists_later hpn (hσ.has hhas) hafter hperishes.2).mp hlisted
    obtain ⟨hbefore, -, hkept⟩ := (hσ.enlists_step hhas hat).mp hstill
    refine ⟨p, hpn, hperishes, hbefore, ?_, fun i hpi => hnever i hpi⟩
    rcases hkept with halive | hstopping
    · rw [hperishes.1, hperishes.2] at halive
      cases halive
    · exact hstopping
  · rintro ⟨p, hpn, hperishes, hbefore, hstopping, hnever⟩
    have hhas : (σ p).world.Has key := has_of_alive hperishes.1
    obtain ⟨hat, hafter⟩ := hsame hpn hhas
    have hstill := (hσ.enlists_step hhas hat).mpr
      ⟨hbefore, hσ.not_takesOff_of_perishes hperishes, .inr hstopping⟩
    exact (hσ.enlists_later hpn (hσ.has hhas) hafter hperishes.2).mpr ⟨hstill, hnever⟩

theorem distinct (n : Nat) : (σ n).world.Distinct := by
  induction n with
  | zero =>
      obtain ⟨disk, remote, programs, functions, network, actions, hstart⟩ := hσ.starts
      rw [hstart]
      exact fun name => List.nodup_nil
  | succ n ih =>
      have hsound := hσ.sound n
      rcases (hσ.next n).cases with hsame | ⟨t, rest, hagenda, hstep⟩
      · exact fun name => ((hsame.members name).map Prod.snd).nodup_iff.mpr (ih name)
      · rw [hstep, step_world hagenda]
        have hkeys := hsound.head hagenda
        cases hsets : t.sets? with
        | none =>
            exact (Task.react_effect hsound.linked hkeys hsets).distinct hsound.linked
              hsound.roster ih
        | some other =>
            have hother := hkeys other (Task.host?_of_sets? hsets)
            obtain ⟨h, hset, -⟩ := Task.react_sets (o := (σ n).outcome) hsets hother
            intro name
            rw [World.registry, hset.registries]
            exact ih name

end Behavior

/-- What is left of a host in its registry after it has ended. -/
structure Departed (σ : Nat → Machine) (registry : String) (key n : Nat) : Prop where
  /-- It is registered exactly if it was when it ended, everything was stopping at that moment, and
  no stop-all call has taken it off since. -/
  registered : (σ n).world.enlists registry key = true ↔ ∃ p, p < n ∧ Perishes σ key p ∧
    (σ p).world.enlists registry key = true ∧ (σ p).world.isStopping key = true ∧
    ∀ i, p < i → i < n → ¬ TakesOff σ registry key i
  /-- It could still be reached whenever a stop-all call of its registry returned. -/
  reached : (σ n).world.enlists registry key = true → ∀ i, i < n → (σ i).world.Has key →
    Returns σ registry i → (σ (i + 1)).world.isShared key = true
  /-- Asked for its number, the registry answers whether it is registered. -/
  answered : ((σ n).world.registry registry).contains ((σ n).world.host key).id =
    (σ n).world.enlists registry key
  /-- The size of the registry counts the hosts that are registered, and each of them once. -/
  counted : ((σ n).world.registryReport registry).size =
    ((σ n).world.hosts.keys.filter ((σ n).world.enlists registry)).length
  /-- The registry hands out a handle of it exactly if it is registered and can be reached. -/
  handed : ((σ n).world.host key).id ∈ ((σ n).world.registryReport registry).handles.map (·.id) ↔
    (σ n).world.enlists registry key = true ∧ (σ n).world.isShared key = true

/-- A host that has ended is registered on only if it ended during a stop-all call. -/
theorem registered_after_end {σ : Nat → Machine} (hσ : Behavior σ) {registry : String}
    {key n : Nat} (hkey : (σ n).world.Has key)
    (hown : ((σ n).world.host key).registry = registry)
    (hgone : ((σ n).world.host key).alive = false) : Departed σ registry key n where
  registered := hσ.enlists_of_perished hkey hown hgone
  reached hlisted i hin hhas hreturns := by
    have hlater : ((σ (i + 1)).world.host key).registry = registry :=
      (hσ.identity (Nat.succ_le_of_lt hin) (hσ.has hhas)).2.symm.trans hown
    exact Behavior.shared_of_returns hreturns
      (hσ.enlisted_before (Nat.succ_le_of_lt hin) (hσ.has hhas) hlater hlisted)
  answered := contains_own (hσ.sound n).roster hkey hown
  counted := size_eq (hσ.sound n).linked (hσ.sound n).roster (hσ.distinct n) registry
  handed := handed_own (hσ.sound n).roster hkey hown

/-- A host whose program begins a stop-all call and then drops another host, of which a handle is
kept. The call returns after the run. -/
def Machine.stranded : Machine :=
  .start (.start default [] [("body", [.onWorld (.stopAll "" "j"), .onWorld (.dropHost "b")])] []
      default)
    [.build ⟨"a", "body", "a.js", none, .standard, "", none, none, false, none, false, 1⟩ [],
      .build ⟨"b", "body", "b.js", none, .standard, "", none, none, false, none, false, 1⟩ [],
      .inScript (some "b") (.handle "hb"), .onHost (some "a") .run, .onWorld (.poll "j"),
      .onWorld (.contains "" 2)]

/-- The host that was dropped ended during the call, and the call did not take it off. -/
theorem stranded_registered : Perishes stranded.trace 1 13 ∧ Returns stranded.trace "" 35 ∧
    (stranded.trace 36).world.enlists "" 1 = true ∧
    ((stranded.trace 36).world.host 1).id ∈
      ((stranded.trace 36).world.registryReport "").handles.map (·.id) := by
  have hperishes : Perishes stranded.trace 1 13 := by decide +kernel
  have hnever : ∀ i < 36, 13 < i → ¬ TakesOff stranded.trace "" 1 i := by decide +kernel
  have hdeparted : Departed stranded.trace "" 1 36 :=
    registered_after_end (trace_behavior ..) (by decide +kernel) (by decide +kernel)
      (by decide +kernel)
  have hlisted := hdeparted.registered.mpr ⟨13, by decide, hperishes, by decide +kernel,
    by decide +kernel, fun i hpi hin => hnever i hin hpi⟩
  exact ⟨hperishes, by decide +kernel, hlisted,
    hdeparted.handed.mpr ⟨hlisted, by decide +kernel⟩⟩

theorem not_always_unregistered : ¬ ∀ σ, Behavior σ → ∀ registry key n, (σ n).world.Has key →
    ((σ n).world.host key).registry = registry → ((σ n).world.host key).alive = false →
    ¬ InFlight σ registry n →
    ((σ n).world.registry registry).contains ((σ n).world.host key).id = false := by
  intro hunregistered
  have hover : ¬ InFlight stranded.trace "" 36 := by
    rintro ⟨job, call, hjob, -⟩
    have hjobs : (stranded.trace 36).world.jobs = [] := by decide +kernel
    rw [hjobs] at hjob
    cases hjob
  have hfalse := hunregistered stranded.trace (trace_behavior ..) "" 1 36 (by decide +kernel)
    (by decide +kernel) (by decide +kernel) hover
  have hlisted : ((stranded.trace 36).world.registry "").contains
      ((stranded.trace 36).world.host 1).id = true := by decide +kernel
  rw [hlisted] at hfalse
  cases hfalse

end TickHost
