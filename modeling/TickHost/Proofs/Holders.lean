import TickHost.Proofs.Departures
import TickHost.Proofs.Pumps

/-!
Who holds a host. Code that works on a host takes it into use and gives it back afterwards, and a
host counts the tasks on the agenda that are to give it back. So it does not end while anybody works
on it, and a host that has a name is alive. A run works on its host until the run is over. So the
host of everything that a run goes on with is alive.
-/

namespace TickHost

open World Machine

namespace Task

/-- A task gives a host back. -/
def isRelease (key : Nat) : Task → Bool
  | release k => k = key
  | _ => false

/-- Tasks that only actions put on the agenda, in whose course a host is taken into use. -/
def isOuter : Task → Bool
  | answer _ _ | answerRun _ | answerOutcome _ | release _ | leaveThread _ | beginRun _ => true
  | _ => false

variable {w : World} {o : Outcome} {key : Nat}

theorem react_inner {t : Task} (hscript : t.isPerform = false) :
    ∀ x ∈ (react w o t).next, x.isOuter = false := by
  have hsequel := react_sequel w o t
  generalize (react w o t).next = next at hsequel
  cases hsequel with
  | perform => cases hscript
  | _ => simp [isOuter]

/-! What is counted. -/

theorem acquire_users (w : World) (k key : Nat) :
    ((w.acquire k).host key).users = (w.host key).users + if k = key then 1 else 0 := by
  rw [acquire, host_updateHost]
  split
  · rename_i heq
    subst heq
    rfl
  · rfl

theorem reset_users (w : World) (k key : Nat) :
    ((w.updateHost k fun h => { h with updates := 0 }).host key).users = (w.host key).users := by
  rw [host_updateHost]
  split
  · rename_i heq
    subst heq
    rfl
  · rfl

theorem run_users (w : World) (k : Nat) {after : List Task}
    (hafter : after.countP (isRelease key) = 0) :
    ((run w k after).1.host key).users =
      (w.host key).users + (run w k after).2.countP (isRelease key) := by
  unfold run
  dsimp only
  split
  · exact reset_users w k key
  · split
    · exact reset_users w k key
    · rw [acquire_users, reset_users]
      simp [running, isRelease, hafter, List.countP_cons]

theorem spawn_users (w : World) (name : String) (key : Nat) :
    ((spawn w name).1.host key).users =
      (w.host key).users + (spawn w name).2.countP (isRelease key) := by
  unfold spawn
  split
  · rfl
  · rename_i k _
    split
    · rfl
    · dsimp only
      have hheld := acquire_users (w.updateHost k fun h => { h with updates := 0 }) k key
      rw [reset_users] at hheld
      have hruns : ∀ idle : Bool,
          (if idle then [] else running k).countP (isRelease key) = 0 := by
        intro idle
        cases idle <;> rfl
      refine hheld.trans ?_
      rw [List.countP_append, hruns]
      simp [isRelease, List.countP_cons]

theorem startHostDeed_users (w : World) (k : Nat) (deed : HostDeed) (key : Nat) :
    ((startHostDeed w k deed).1.host key).users =
      (w.host key).users + (startHostDeed w k deed).2.countP (isRelease key) := by
  cases deed with
  | run => exact run_users w k rfl
  | initialise =>
      rw [startHostDeed, acquire_users]
      simp [isRelease, List.countP_cons]
  | stop | setContents _ _ | loadUrl _ | setParent _ | avatarData _ | nodeKilled _ | subscribe _
  | info => exact startHostDeed_keeps (a := .users key) w k rfl

theorem startScriptDeed_users (w : World) (k : Nat) (name : String) (deed : ScriptDeed)
    (key : Nat) :
    ((startScriptDeed w k name deed).1.host key).users =
      (w.host key).users + (startScriptDeed w k name deed).2.countP (isRelease key) := by
  cases deed with
  | evaluate program origin line =>
      rw [startScriptDeed, acquire_users]
      simp [isRelease, List.countP_cons]
  | includeAll references call =>
      cases call with
      | some call => exact startScriptDeed_keeps (a := .users key) w k name rfl
      | none =>
          unfold startScriptDeed
          dsimp only
          split
          · rfl
          · have hkept := (resolveAll_keeps (a := .users key) w k references).trans
              (fetchNow_keeps _ k (w.resolveAll k references).1)
            rw [acquire_users, show _ = _ from hkept]
            simp [isRelease, List.countP_cons]
  | timeout _ _ _ | interval _ _ _ | clear _ | timers | resolve _ | load _ | print _ | stop
  | connect _ _ | avatarMode _ | listen _ | sound _ | avatarData _ | handle _ | state =>
      exact startScriptDeed_keeps (a := .users key) w k name rfl

/-- An action takes a host into use when it puts on the agenda what gives it back. -/
theorem start_users (hlinked : w.Linked) (scope : Scope) (action : Action) (key : Nat) :
    ((start w scope action).1.host key).users =
      (w.host key).users + (start w scope action).2.countP (isRelease key) := by
  have hkept : ∀ rest, (perform scope (action :: rest)).touches w (.users key) = false →
      ((start w scope action).1.host key).users = (w.host key).users :=
    fun _ htouches => start_keeps (a := .users key) w hlinked scope htouches
  cases action with
  | build _ _ | give _ | throw _ | unknown _ => exact hkept [] rfl
  | onWorld deed =>
      cases deed with
      | spawn name => exact spawn_users w name key
      | openBus _ _ | drain _ | unsubscribe _ | sleep _ | now | thread | registry _
      | contains _ _ | stopAll _ _ | waitDone _ _ | waitEvaluations _ _ | poll _ | dropJob _
      | complete _ | forget _ | makeAvatar _ | dropAvatar _ | addPeer _ | removePeer _
      | dropHost _ | dropHandle _ => exact hkept [] rfl
  | onHandle handle deed =>
      have hsame := hkept [] rfl
      unfold start at hsame ⊢
      dsimp only at hsame ⊢
      split <;> simp_all
  | onHost named deed =>
      unfold start
      dsimp only
      split
      · split
        · exact startHostDeed_users w _ deed key
        · rfl
      · rfl
      · split
        · exact startHostDeed_users w _ deed key
        · rfl
  | inScript named deed =>
      unfold start
      dsimp only
      split
      · split
        · exact startScriptDeed_users w _ _ deed key
        · rfl
      · rfl
      · exact startScriptDeed_users w _ _ deed key

theorem release_users (w : World) (k key : Nat) :
    ((w.release k).host key).users = (w.host key).users - if k = key then 1 else 0 := by
  have hsettle := settle_keeps (a := .users key)
    (w.updateHost k fun h => { h with users := h.users - 1 }) k nofun nofun
  refine Eq.trans hsettle ?_
  rw [host_updateHost]
  split
  · rename_i heq
    subst heq
    rfl
  · rfl

/-- What a task does to the count of a host. -/
theorem react_users (hlinked : w.Linked) (t : Task) (key : Nat) :
    ((react w o t).world.host key).users + (if t.isRelease key then 1 else 0) =
        (w.host key).users + (react w o t).next.countP (isRelease key) ∨
      t.isRelease key = true ∧ (w.host key).users = 0 := by
  have hnone : t.isPerform = false → (react w o t).next.countP (isRelease key) = 0 := by
    intro hscript
    rw [List.countP_eq_zero]
    intro x hx hrelease
    have hinner := react_inner hscript x hx
    cases x <;> first | cases hrelease | cases hinner
  have hkept : t.touches w (.users key) = false →
      ((react w o t).world.host key).users = (w.host key).users :=
    fun htouches => react_keeps (a := .users key) w o hlinked htouches
  cases t with
  | perform scope actions =>
      left
      cases actions with
      | nil => rfl
      | cons action rest =>
          have hstart := start_users hlinked scope action key
          simp only [react, performOne]
          split
          · rfl
          · rfl
          · simpa [isRelease] using hstart
  | release k =>
      have hfreed := release_users w k key
      by_cases heq : k = key
      · rcases Nat.eq_zero_or_pos (w.host key).users with hzero | hpositive
        · exact .inr ⟨decide_eq_true heq, hzero⟩
        · left
          simp only [react, isRelease, heq, decide_true, if_true, List.countP_nil] at hfreed ⊢
          omega
      · left
        simpa [react, isRelease, heq] using hfreed
  | _ =>
      left
      rw [hnone rfl]
      exact hkept rfl

end Task

/-! Who is held. -/

namespace Table

variable {α : Type} {t : Table α} {name : String}

theorem mem_of_get? {value : α} (h : t.get? name = some value) : (name, value) ∈ t := by
  induction t with
  | nil => cases h
  | cons entry rest ih =>
      obtain ⟨key, old⟩ := entry
      rw [get?] at h
      split at h
      · rename_i hname
        cases h
        rw [hname]
        exact List.mem_cons_self
      · exact List.mem_cons_of_mem _ (ih h)

theorem mem_of_mem_put {value : α} {entry : String × α} (h : entry ∈ t.put name value) :
    entry = (name, value) ∨ entry ∈ t := by
  induction t with
  | nil => exact .inl (List.mem_singleton.mp h)
  | cons first rest ih =>
      obtain ⟨key, old⟩ := first
      rw [put] at h
      split at h
      · rename_i hname
        rcases List.mem_cons.mp h with rfl | h
        · exact .inl (by rw [hname])
        · exact .inr (List.mem_cons_of_mem _ h)
      · rcases List.mem_cons.mp h with rfl | h
        · exact .inr List.mem_cons_self
        · exact (ih h).imp id (List.mem_cons_of_mem _)

end Table

namespace World

variable {w : World} {key : Nat}

theorem isHeld_iff : w.isHeld key = true ↔
    (∃ name, (name, key) ∈ w.names) ∨ 0 < (w.host key).users := by
  simp [isHeld, isNamed]

@[simp]
theorem settle_isHeld (w : World) (k key : Nat) : (w.settle k).isHeld key = w.isHeld key := by
  have husers : ((w.settle k).host key).users = (w.host key).users :=
    settle_keeps (a := .users key) w k nofun nofun
  have hnames : (w.settle k).names = w.names := by
    unfold settle
    split
    · dsimp only
      split <;> rfl
    · rfl
  simp only [isHeld, isNamed, husers, hnames]

/-- Settling a host ends nobody who is held. -/
theorem settle_alive {k : Nat} (hheld : (w.settle k).isHeld key = true) :
    ((w.settle k).host key).alive = (w.host key).alive := by
  by_cases heq : k = key
  · subst heq
    rw [settle_isHeld] at hheld
    simp [settle, hheld]
  · exact settle_keeps (a := .alive key) w k (by simpa using Ne.symm heq) nofun

theorem unname_alive {name : String} (hheld : (w.unname name).isHeld key = true) :
    ((w.unname name).host key).alive = (w.host key).alive := by
  unfold unname at hheld ⊢
  split
  · rename_i k hname
    simp only [hname] at hheld
    exact settle_alive hheld
  · rfl

/-- Building a host ends nobody else who is held. -/
theorem build_alive_of_held (hlinked : w.Linked) {plan : HostPlan} {api : List Action}
    (hkey : w.Has key) (hheld : (w.build plan api).1.isHeld key = true) :
    ((w.build plan api).1.host key).alive = (w.host key).alive := by
  rcases build_cases w plan api with hcrash | ⟨bus, entered, hties, -, -, hbuild⟩
  · rw [hcrash]
    rfl
  · have hne : w.hosts.fresh ≠ key := by
      rintro rfl
      exact hlinked.fresh hkey
    have hhost : entered.host key = w.host key := by
      rw [host_of_ties hties, enrol_host, if_neg hne]
    rw [hbuild] at hheld ⊢
    rw [← hhost]
    apply unname_alive
    rw [isHeld_iff] at hheld ⊢
    refine hheld.imp (fun ⟨name, hmem⟩ => ⟨name, ?_⟩) id
    rcases Table.mem_of_mem_put hmem with hnew | hold
    · cases hnew
      exact absurd rfl hne
    · exact hold

end World

namespace World

variable {w w' : World} {key : Nat} {name : String} {fetching waiting : Bool}

theorem Moves.names (hmoves : Moves fetching w w') (hname : w'.names.get? name = some key) :
    w.names.get? name = some key := by
  induction hmoves with
  | refl => exact hname
  | tail _ hmove ih =>
      apply ih
      cases hmove with
      | aside w' hties _ => rwa [← names_of_ties hties]
      | forget other =>
          rw [Table.get?_erase] at hname
          split at hname
          · cases hname
          · exact hname
      | act _ _ _ _ | lend _ _ _ | revoke _ | keep _ _ _ | lose _ => exact hname

/-- No host that was built before gets another name. -/
theorem Effect.names (heffect : Effect fetching waiting w w') (hlinked : w.Linked)
    (hkey : w.Has key) (hname : w'.names.get? name = some key) :
    w.names.get? name = some key := by
  cases heffect with
  | moves hmoves => exact hmoves.names hname
  | lapses hlapses => exact hlapses.names name key hname
  | waits _ hcurbs => exact hcurbs.names name key hname
  | crash hties _ => rwa [← names_of_ties hties]
  | @builds plan api bus built lapsed w' hties _ hlapses hnamed _ =>
      rw [names_of_ties hnamed, Table.get?_put] at hname
      split at hname
      · cases hname
        exact absurd hkey hlinked.fresh
      · have hold := hlapses.names name key hname
        rwa [names_of_ties hties] at hold

end World

theorem Task.react_names {w : World} {o : Outcome} {key : Nat} {name : String} {t : Task}
    (hlinked : w.Linked) (hkeys : ∀ key, t.host? = some key → w.Has key) (hkey : w.Has key)
    (hname : (t.react w o).world.names.get? name = some key) : w.names.get? name = some key := by
  cases hsets : t.sets? with
  | none => exact (react_effect hlinked hkeys hsets).names hlinked hkey hname
  | some k =>
      obtain ⟨h, hset, -⟩ := react_sets (o := o) hsets (hkeys k (host?_of_sets? hsets))
      rwa [names_of_ties hset.ties] at hname

/-- A task ends nobody who is held after it. -/
theorem Task.react_held {w : World} {o : Outcome} {key : Nat} (hlinked : w.Linked) {t : Task}
    (hkey : w.Has key) (hheld : (t.react w o).world.isHeld key = true) :
    ((t.react w o).world.host key).alive = (w.host key).alive := by
  cases htouches : t.touches w (.alive key) with
  | false => exact Task.react_keeps (a := .alive key) w o hlinked htouches
  | true =>
      have hends := ends_of_touches_alive htouches
      unfold ends at hends
      split at hends
      · exact (settle_alive hheld).trans (by rw [host_updateHost]; split <;> simp_all)
      · exact build_alive_of_held hlinked hkey hheld
      · simp only [react, performOne, start, doDeed] at hheld ⊢
        split at hheld
        · rename_i hname
          simp only [hname, if_true]
          exact unname_alive hheld
        · rename_i hname
          simp only [hname]
          rfl
      · cases hends

namespace Behavior

variable {σ : Nat → Machine} (hσ : Behavior σ) {key n : Nat}

include hσ

/-- A host counts the tasks that are to give it back. -/
theorem users (hcrashed : (σ n).world.crashed = false) :
    ((σ n).world.host key).users = (σ n).agenda.countP (Task.isRelease key) := by
  induction n with
  | zero =>
      obtain ⟨disk, remote, programs, functions, network, actions, hstart⟩ := hσ.starts
      rw [hstart]
      rfl
  | succ n ih =>
      have hbefore := ih (hσ.uncrashed (Nat.le_succ n) hcrashed)
      have hnext := hσ.next n
      generalize hm : σ (n + 1) = m at hnext hcrashed
      cases hnext with
      | interrupt hinterrupts =>
          rw [hinterrupts.same.host, hbefore]
          cases hinterrupts with
          | chooses scope actions chosen rest hagenda => simp [hagenda, Task.isRelease]
          | intrudes scope actions t rest hagenda _ _ => simp [hagenda, Task.isRelease]
          | reorders => rfl
      | step =>
          cases hagenda : (σ n).agenda with
          | nil => rw [step_nil hagenda, hbefore, hagenda]
          | cons t rest =>
              have hcount := Task.react_users (o := (σ n).outcome) (hσ.sound n).linked t key
              rw [step_world hagenda, step_agenda hagenda, hcrashed]
              rw [hagenda, List.countP_cons] at hbefore
              simp only [Bool.false_eq_true, if_false, List.countP_append]
              rcases hcount with hcount | ⟨hrelease, hzero⟩
              · omega
              · rw [hrelease, if_pos rfl] at hbefore
                omega

/-- A host that is held in the next moment does not end. -/
theorem alive_step (hkey : (σ n).world.Has key) (hheld : (σ (n + 1)).world.isHeld key = true) :
    ((σ (n + 1)).world.host key).alive = ((σ n).world.host key).alive := by
  rcases hσ.host_step key n with hsame | ⟨t, rest, hexec, hworld⟩
  · rw [hsame]
  · rw [hworld] at hheld ⊢
    exact Task.react_held (hσ.sound n).linked hkey hheld

/-- A host that has a name is alive. -/
theorem alive_of_name {name : String} (hname : (σ n).world.names.get? name = some key) :
    ((σ n).world.host key).alive = true := by
  induction n with
  | zero =>
      obtain ⟨disk, remote, programs, functions, network, actions, hstart⟩ := hσ.starts
      rw [hstart] at hname
      cases hname
  | succ n ih =>
      have hkey := (hσ.sound (n + 1)).linked.names name key hname
      by_cases hold : (σ n).world.Has key
      · have hheld : (σ (n + 1)).world.isHeld key = true :=
          isHeld_iff.mpr (.inl ⟨name, Table.mem_of_get? hname⟩)
        rw [hσ.alive_step hold hheld]
        apply ih
        rcases (hσ.next n).cases with hsame | ⟨t, rest, hagenda, hstep⟩
        · rwa [← hsame.names]
        · have hsound := hσ.sound n
          rw [hstep, step_world hagenda] at hname
          exact Task.react_names hsound.linked (hsound.head hagenda) hold hname
      · obtain ⟨scope, plan, api, actions, rest, hexec, rfl⟩ := hσ.built hold hkey
        rw [world_after hexec] at hkey ⊢
        exact build_alive (hσ.sound n).linked plan api hkey

/-- The host of everything that a run goes on with is alive: somebody works on it until the run is
over. -/
theorem alive_of_inside {x : Task} {rest : List Task} (hx : x.part key = .inside)
    (hsuffix : x :: rest <:+ (σ n).agenda) : ((σ n).world.host key).alive = true := by
  obtain ⟨b, hbn, hbegun, hgoes⟩ := hσ.begun hx hsuffix
  obtain ⟨r, t, below, pre, post, hrb, hexec, hnext, rfl, hstays⟩ :=
    hσ.pushed rfl (suffix_of_executes hbegun)
  obtain ⟨-, ⟨name, hname⟩, hmem⟩ := Task.begins_of_pushes hnext
  have hkey := (hσ.sound r).linked.names name key hname
  have hheld : ∀ i, r < i → i ≤ n → (σ i).world.isHeld key = true := by
    intro i hri hin
    have hplace : post ++ below <:+ (σ i).agenda := by
      rcases Nat.lt_or_ge b i with hbi | hib
      · obtain ⟨y, -, hy⟩ := hgoes i hbi hin
        exact (List.suffix_cons _ _).trans hy
      · exact (List.suffix_cons _ _).trans (hstays i hri hib)
    have hreleases : Task.release key ∈ (σ i).agenda :=
      hplace.subset (List.mem_append_left below hmem)
    rw [isHeld_iff, hσ.users ((hσ.uncrashed hin) (hσ.uncrashed_of_suffix hsuffix))]
    exact .inr (List.countP_pos_iff.mpr ⟨_, hreleases, by simp [Task.isRelease]⟩)
  have hrn : r ≤ n := by omega
  have halive : ∀ i, r ≤ i → i ≤ n → ((σ i).world.host key).alive = true := by
    intro i hri
    induction hri with
    | refl => exact fun _ => hσ.alive_of_name hname
    | @step i hri ih =>
        intro hin
        rw [hσ.alive_step (hσ.has_later hri hkey) (hheld (i + 1) (Nat.lt_succ_of_le hri) hin)]
        exact ih (Nat.le_of_lt hin)
  exact halive n hrn (Nat.le_refl n)

end Behavior

end TickHost
