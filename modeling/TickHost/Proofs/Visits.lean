import TickHost.Proofs.Calls

/-!
What a stop-all call does from one poll to the next. It passes over hosts that do not run and
waits for the first one that does, so that it is complete only when it has found nobody running.
It waits for a host until that host's run is over, and takes the host off the registry then.
-/

namespace TickHost

open World

/-- A call fits a world: it is about hosts of its registry, and no other member of the registry
runs, apart from one that has just begun a run and is about to be refused. -/
structure StopAll.Fits (call : StopAll) (w : World) (entering : Option Nat) : Prop where
  has : w.Has call.host
  own : (w.host call.host).registry = call.registry
  listed : ∀ id key, (id, key) ∈ call.rest →
    w.Has key ∧ (w.host key).id = id ∧ (w.host key).registry = call.registry
  covers : ∀ id key, (id, key) ∈ (w.registry call.registry).members →
    (w.host key).alive = true → (w.host key).running = true →
    key = call.host ∨ (id, key) ∈ call.rest ∨ entering = some key

theorem StopAll.Fits.curbs {call : StopAll} {w w' : World} {entering : Option Nat}
    (h : call.Fits w entering) (hcurbs : w.Curbs w') : call.Fits w' entering where
  has := hcurbs.has h.has
  own := by
    rw [(hcurbs.acts call.host true).works.registry]
    exact h.own
  listed id key hmem := by
    rw [(hcurbs.acts key true).works.id, (hcurbs.acts key true).works.registry]
    exact ⟨hcurbs.has (h.listed id key hmem).1, (h.listed id key hmem).2⟩
  covers id key hmem halive hrunning := by
    rw [(hcurbs.acts key true).works.running] at hrunning
    exact h.covers id key ((hcurbs.members _).subset hmem)
      ((hcurbs.acts key true).works.alive halive) hrunning

namespace World

/-- Nobody is done while running. -/
def Settled (w : World) : Prop :=
  ∀ key, (w.host key).done = !(w.host key).running

variable {w w' w'' : World} {registry : String} {rest : List (Nat × Nat)} {call next : StopAll}

theorem Curbs.settled (h : w.Curbs w') (hsettled : w.Settled) : w'.Settled := by
  intro key
  rw [(h.acts key true).works.done, (h.acts key true).works.running]
  exact hsettled key

theorem isShared_of_alive {key : Nat} (h : (w.host key).alive = true) : w.isShared key = true := by
  simp [isShared, h]

/-- From one world to the next a host is cut off and asked to stop, and no evaluation of it is under
way. -/
structure Halts (w w' : World) (key : Nat) : Prop where
  quiet : (w.host key).pending = 0
  detached : (w'.host key).outlet.detached = true
  finished : (w'.host key).finished = true

theorem Halts.curbs {key : Nat} (h : w.Halts w' key) (hcurbs : w'.Curbs w'') :
    w.Halts w'' key where
  quiet := h.quiet
  detached := (hcurbs.acts key true).works.detached h.detached
  finished := (hcurbs.acts key true).works.finished h.finished

theorem Curbs.halts {key : Nat} (hcurbs : w.Curbs w') (h : w'.Halts w'' key) :
    w.Halts w'' key where
  quiet := (hcurbs.acts key true).pending.symm.trans h.quiet
  detached := h.detached
  finished := h.finished

theorem requestStop_finished {key : Nat} (hkey : w.Has key) :
    ((w.requestStop key).host key).finished = true := by
  unfold requestStop
  split
  · assumption
  · have hflagged : (w.updateHost key fun h => { h with finished := true }).Has key := by
      rwa [Has, updateHost, has_setHost hkey]
    rw [host_of_ties (publish_ties hflagged _ _), host_setHost, if_pos rfl, host_updateHost,
      if_pos rfl]
    rfl

theorem cutOff_halts {key : Nat} (hkey : w.Has key) (hquiet : (w.host key).pending = 0) :
    w.Halts (w.cutOff key) key := by
  have hdetach : w.Curbs (w.updateHost key fun h => { h with outlet := h.outlet.detach }) :=
    .act hkey fun _ => .detach hquiet
  have hstop := requestStop_curbs (hdetach.has hkey)
  refine ⟨hquiet, (hstop.acts key true).works.detached ?_, requestStop_finished (hdetach.has hkey)⟩
  rw [host_updateHost, if_pos rfl]
  rfl

/-- A call that is complete has found nobody running. -/
theorem visitAll_none (hsettled : w.Settled) (hnone : (visitAll registry rest w).1 = none) :
    ∀ id key, (id, key) ∈ rest → (w.host key).alive = true → (w.host key).running = false := by
  induction rest generalizing w with
  | nil => simp
  | cons entry rest ih =>
      obtain ⟨first, host⟩ := entry
      intro id key hmem halive
      unfold visitAll at hnone
      split at hnone
      · rename_i hgone
        rcases List.mem_cons.mp hmem with heq | hmem
        · cases heq
          simp [isShared_of_alive halive] at hgone
        · exact ih ((Curbs.unregister w registry first).settled hsettled) hnone id key hmem halive
      · split at hnone
        · rename_i hidle
          rcases List.mem_cons.mp hmem with heq | hmem
          · cases heq
            simpa using hidle
          · exact ih hsettled hnone id key hmem halive
        · rename_i hrunning
          exfalso
          split at hnone
          · cases hnone
          · rename_i hquiet
            have hcut : w.Curbs (w.cutOff host) :=
              cutOff_curbs (has_of_running (by simpa using hrunning)) (by omega)
            dsimp only at hnone
            split at hnone
            · rename_i hdone
              rw [(hcut.acts host true).works.done, hsettled host] at hdone
              exact hrunning (by simpa using hdone)
            · cases hnone

/-- A call that goes on waits for a running host, and none of those before it runs. If it waits for
the end of the run, it has cut the host off. -/
theorem visitAll_some (hsettled : w.Settled) (hcall : visitAll registry rest w = (some call, w')) :
    call.registry = registry ∧ (w.host call.host).running = true ∧
      (∃ before id, rest = before ++ (id, call.host) :: call.rest ∧
        ∀ id key, (id, key) ∈ before → (w.host key).alive = true →
          (w.host key).running = false) ∧
      (call.stage = .done → w.Halts w' call.host) := by
  induction rest generalizing w with
  | nil => cases hcall
  | cons entry rest ih =>
      obtain ⟨first, host⟩ := entry
      unfold visitAll at hcall
      split at hcall
      · rename_i hgone
        have hunregister := Curbs.unregister w registry first
        obtain ⟨hregistry, hrunning, ⟨before, id, hrest, hbefore⟩, hhalts⟩ :=
          ih (hunregister.settled hsettled) hcall
        refine ⟨hregistry, hrunning, ⟨(first, host) :: before, id, by rw [hrest]; rfl, ?_⟩,
          fun hstage => hunregister.halts (hhalts hstage)⟩
        intro other key hmem halive
        rcases List.mem_cons.mp hmem with heq | hmem
        · cases heq
          simp [isShared_of_alive halive] at hgone
        · exact hbefore other key hmem halive
      · split at hcall
        · rename_i hidle
          obtain ⟨hregistry, hrunning, ⟨before, id, hrest, hbefore⟩, hhalts⟩ := ih hsettled hcall
          refine ⟨hregistry, hrunning, ⟨(first, host) :: before, id, by rw [hrest]; rfl, ?_⟩,
            hhalts⟩
          intro other key hmem halive
          rcases List.mem_cons.mp hmem with heq | hmem
          · cases heq
            simpa using hidle
          · exact hbefore other key hmem halive
        · rename_i hrunning
          have hrunning : (w.host host).running = true := by simpa using hrunning
          split at hcall
          · cases hcall
            exact ⟨rfl, hrunning, ⟨[], first, rfl, by simp⟩, fun hstage => by cases hstage⟩
          · rename_i hquiet
            have hkey := has_of_running hrunning
            have hcut : w.Curbs (w.cutOff host) := cutOff_curbs hkey (by omega)
            dsimp only at hcall
            split at hcall
            · rename_i hdone
              rw [(hcut.acts host true).works.done, hsettled host, hrunning] at hdone
              cases hdone
            · cases hcall
              exact ⟨rfl, hrunning, ⟨[], first, rfl, by simp⟩,
                fun _ => cutOff_halts hkey (by omega)⟩

/-- A running host that is to be visited is found, or it is still to be visited. -/
theorem visitAll_finds (hsettled : w.Settled) {id key : Nat} (hmem : (id, key) ∈ rest)
    (halive : (w.host key).alive = true) (hrunning : (w.host key).running = true) :
    ∃ call, (visitAll registry rest w).1 = some call ∧
      (key = call.host ∨ (id, key) ∈ call.rest) := by
  cases hleft : (visitAll registry rest w).1 with
  | none =>
      rw [visitAll_none hsettled hleft id key hmem halive] at hrunning
      cases hrunning
  | some call =>
      refine ⟨call, rfl, ?_⟩
      obtain ⟨-, -, ⟨before, first, hrest, hbefore⟩, -⟩ :=
        visitAll_some hsettled (Prod.ext hleft rfl)
      rw [hrest] at hmem
      rcases List.mem_append.mp hmem with hmem | hmem
      · rw [hbefore id key hmem halive] at hrunning
        cases hrunning
      · rcases List.mem_cons.mp hmem with heq | hmem
        · cases heq
          exact .inl rfl
        · exact .inr hmem

/-- The hosts of a list that are members of its registry, with no other one running. -/
structure Lists (w : World) (registry : String) (rest : List (Nat × Nat)) : Prop where
  listed : ∀ id key, (id, key) ∈ rest →
    w.Has key ∧ (w.host key).id = id ∧ (w.host key).registry = registry
  covers : ∀ id key, (id, key) ∈ (w.registry registry).members → (w.host key).alive = true →
    (w.host key).running = true → (id, key) ∈ rest

theorem Roster.lists (hroster : w.Roster) (registry : String) :
    w.Lists registry (w.registry registry).members where
  listed := hroster.members registry
  covers _ _ hmem _ _ := hmem

theorem Lists.curbs (h : w.Lists registry rest) (hcurbs : w.Curbs w') :
    w'.Lists registry rest where
  listed id key hmem := by
    rw [(hcurbs.acts key true).works.id, (hcurbs.acts key true).works.registry]
    exact ⟨hcurbs.has (h.listed id key hmem).1, (h.listed id key hmem).2⟩
  covers id key hmem halive hrunning := by
    rw [(hcurbs.acts key true).works.running] at hrunning
    exact h.covers id key ((hcurbs.members _).subset hmem)
      ((hcurbs.acts key true).works.alive halive) hrunning

/-- What is left of a visit fits. -/
theorem visitAll_fits (hsettled : w.Settled) (hlists : w.Lists registry rest)
    (hcall : (visitAll registry rest w).1 = some call) :
    call.Fits (visitAll registry rest w).2 none := by
  obtain ⟨rfl, hrunning, ⟨before, id, hrest, hbefore⟩, -⟩ :=
    visitAll_some hsettled (Prod.ext hcall rfl)
  have hmem : ∀ entry ∈ (id, call.host) :: call.rest, entry ∈ rest := by
    intro entry h
    rw [hrest]
    exact List.mem_append_right _ h
  have hhost := hlists.listed id call.host (hmem _ List.mem_cons_self)
  refine StopAll.Fits.curbs ⟨hhost.1, hhost.2.2, fun id key h => ?_,
    fun other key h halive hruns => ?_⟩ (visitAll_curbs call.registry rest w)
  · exact hlists.listed id key (hmem _ (List.mem_cons_of_mem _ h))
  · have hfound := hlists.covers other key h halive hruns
    rw [hrest] at hfound
    rcases List.mem_append.mp hfound with hfound | hfound
    · simp [hbefore other key hfound halive] at hruns
    · rcases List.mem_cons.mp hfound with heq | hfound
      · cases heq
        exact .inl rfl
      · exact .inr (.inl hfound)

/-- What a call does when it is polled: it goes on waiting for its host, or the run of the host is
over and it visits the others. -/
inductive Resumes (w : World) (call : StopAll) : Option StopAll × World → Prop where
  | waits (w' : World) (stage : StopStage) (hcurbs : w.Curbs w')
      (hsame : ∀ name, w'.registry name = w.registry name)
      (hhalts : stage = .done → call.stage = .done ∨ w.Halts w' call.host) :
      Resumes w call (some { call with stage }, w')
  | leaves (w' : World) (hcurbs : w.Curbs w')
      (hsame : ∀ name, w'.registry name = w.registry name)
      (hhalts : call.stage = .evaluations → w.Halts w' call.host)
      (hidle : (w.host call.host).running = false) : Resumes w call (w'.visited call)

theorem resume_resumes (hsettled : w.Settled) (hkey : w.Has call.host) :
    w.Resumes call (w.resume call) := by
  have hidle : ∀ w' : World, w.Curbs w' → (w'.host call.host).done = true →
      (w.host call.host).running = false := by
    intro w' hcurbs hdone
    rw [(hcurbs.acts call.host true).works.done, hsettled] at hdone
    simpa using hdone
  unfold resume
  split
  · rename_i hstage
    split
    · have hwaits : w.Resumes call (some { call with stage := .evaluations }, w) :=
        .waits w .evaluations (.refl w) (fun _ => rfl) fun hdone => by cases hdone
      rwa [← hstage] at hwaits
    · rename_i hquiet
      have hcut : w.Curbs (w.cutOff call.host) := cutOff_curbs hkey (by omega)
      have hhalts : w.Halts (w.cutOff call.host) call.host := cutOff_halts hkey (by omega)
      dsimp only
      split
      · rename_i hdone
        exact .leaves _ hcut (cutOff_registry w call.host) (fun _ => hhalts) (hidle _ hcut hdone)
      · exact .waits _ .done hcut (cutOff_registry w call.host) fun _ => .inr hhalts
  · rename_i hstage
    split
    · rename_i hdone
      refine .leaves w (.refl w) (fun _ => rfl) (fun hevaluations => ?_) (hidle w (.refl w) hdone)
      rw [hstage] at hevaluations
      cases hevaluations
    · have hwaits : w.Resumes call (some { call with stage := .done }, w) :=
        .waits w .done (.refl w) (fun _ => rfl) fun _ => .inl hstage
      rwa [← hstage] at hwaits

/-- A host that a call has left is no member any more. -/
theorem visited_gone (hroster : w.Roster) (call : StopAll) (id : Nat) :
    (id, call.host) ∉ ((w.visited call).2.registry call.registry).members := by
  intro hmem
  have hbefore := ((visitAll_curbs call.registry call.rest _).members call.registry).subset hmem
  rw [registry_updateRegistry, if_pos rfl] at hbefore
  obtain ⟨hmember, hother⟩ := List.mem_filter.mp hbefore
  obtain ⟨-, hid, -⟩ := hroster.members call.registry id call.host hmember
  simp [hid] at hother

/-- A living host that runs stays a member while others are visited. -/
theorem visitAll_kept (hsettled : w.Settled) (hroster : w.Roster)
    (hlisted : ∀ id key, (id, key) ∈ rest →
      w.Has key ∧ (w.host key).id = id ∧ (w.host key).registry = registry)
    {id key : Nat} (hmem : (id, key) ∈ (w.registry registry).members)
    (hrunning : (w.host key).running = true)
    (halive : ((visitAll registry rest w).2.host key).alive = true) :
    (id, key) ∈ ((visitAll registry rest w).2.registry registry).members := by
  induction rest generalizing w with
  | nil =>
      simp only [visitAll, endStopAll, registry_updateRegistry, if_true, host_updateRegistry]
        at halive ⊢
      exact List.mem_filter.mpr ⟨hmem, isShared_of_alive halive⟩
  | cons entry rest ih =>
      obtain ⟨first, host⟩ := entry
      have hliving : (w.host key).alive = true :=
        ((visitAll_curbs registry _ w).acts key true).works.alive halive
      have hrest : ∀ id key, (id, key) ∈ rest →
          w.Has key ∧ (w.host key).id = id ∧ (w.host key).registry = registry :=
        fun id key h => hlisted id key (List.mem_cons_of_mem _ h)
      unfold visitAll at halive ⊢
      split at halive
      · rename_i hgone
        rw [if_pos hgone]
        have hunregister := Curbs.unregister w registry first
        refine ih (hunregister.settled hsettled) (hunregister.roster hroster) hrest ?_ hrunning
          halive
        rw [registry_updateRegistry, if_pos rfl]
        refine List.mem_filter.mpr ⟨hmem, ?_⟩
        -- the host that is gone has a number of its own
        have hother : id ≠ first := by
          rintro rfl
          obtain ⟨hhost, hid, hregistry⟩ := hlisted id host List.mem_cons_self
          obtain ⟨hkey, hid', hregistry'⟩ := hroster.members registry id key hmem
          obtain rfl := hroster.unique key host hkey hhost (hregistry'.trans hregistry.symm)
            (hid'.trans hid.symm)
          simp [isShared_of_alive hliving] at hgone
        simpa using hother
      · rename_i hshared
        rw [if_neg hshared]
        split at halive
        · rename_i hidle
          rw [if_pos hidle]
          exact ih hsettled hroster hrest hmem hrunning halive
        · rename_i hruns
          rw [if_neg hruns]
          split
          · exact hmem
          · rename_i hquiet
            have hhost : (w.host host).running = true := by simpa using hruns
            have hcut : w.Curbs (w.cutOff host) := cutOff_curbs (has_of_running hhost) (by omega)
            dsimp only
            split
            · rename_i hdone
              rw [(hcut.acts host true).works.done, hsettled host, hhost] at hdone
              cases hdone
            · rw [cutOff_registry]
              exact hmem

/-- What a call says of the other registries. -/
theorem visitAll_other (registry : String) (rest : List (Nat × Nat)) (w : World) {other : String}
    (hother : registry ≠ other) :
    (visitAll registry rest w).2.registry other = w.registry other := by
  have hunregister : ∀ (w : World) (id : Nat),
      (w.updateRegistry registry fun r => r.unregister id).registry other = w.registry other :=
    fun w id => by rw [registry_updateRegistry, if_neg hother]
  induction rest generalizing w with
  | nil =>
      show (w.endStopAll registry).registry other = _
      rw [endStopAll, registry_updateRegistry, if_neg hother]
  | cons entry rest ih =>
      unfold visitAll
      split
      · exact (ih _).trans (hunregister w entry.1)
      · split
        · exact ih w
        · split
          · rfl
          · dsimp only
            split
            · exact (ih _).trans ((hunregister _ entry.1).trans (cutOff_registry w entry.2 other))
            · exact cutOff_registry w entry.2 other

theorem resume_other (w : World) (call : StopAll) {other : String}
    (hother : call.registry ≠ other) :
    (w.resume call).2.registry other = w.registry other := by
  have hvisited : ∀ w' : World, (w'.visited call).2.registry other = w'.registry other :=
    fun w' => (visitAll_other _ _ _ hother).trans (by rw [registry_updateRegistry, if_neg hother])
  unfold resume
  split
  · split
    · rfl
    · dsimp only
      split
      · exact (hvisited _).trans (cutOff_registry w call.host other)
      · exact cutOff_registry w call.host other
  · split
    · exact hvisited w
    · rfl

section Resume

variable (hsettled : w.Settled) (hfits : call.Fits w none)

include hfits

/-- The hosts that a call has still to visit once it has left the one that it waited for. -/
theorem resume_lists (hcurbs : w.Curbs w') (hidle : (w.host call.host).running = false) :
    (w'.updateRegistry call.registry fun r => r.unregister (w'.host call.host).id).Lists
      call.registry call.rest := by
  refine Lists.curbs ⟨hfits.listed, fun id key hmem halive hrunning => ?_⟩
    (hcurbs.trans (.unregister w' call.registry _))
  rcases hfits.covers id key hmem halive hrunning with rfl | hrest | hentering
  · rw [hidle] at hrunning
    cases hrunning
  · exact hrest
  · cases hentering

include hsettled

/-- When a call is complete no living member of its registry runs. -/
theorem resume_none (hnone : (w.resume call).1 = none) : ∀ id key,
    (id, key) ∈ (w.registry call.registry).members →
      ((w.resume call).2.host key).alive = true → (w.host key).running = false := by
  intro id key hmem halive
  have hresumes := resume_resumes hsettled hfits.has
  generalize w.resume call = left at hresumes hnone halive
  cases hresumes with
  | waits => cases hnone
  | leaves w' hcurbs hsame _ hidle =>
      have hgone : w.Curbs
          (w'.updateRegistry call.registry fun r => r.unregister (w'.host call.host).id) :=
        hcurbs.trans (.unregister w' call.registry _)
      have hliving := ((visitAll_curbs call.registry call.rest _).acts key true).works.alive halive
      cases hrunning : (w.host key).running with
      | false => rfl
      | true =>
          rcases hfits.covers id key hmem ((hgone.acts key true).works.alive hliving) hrunning with
            rfl | hrest | hentering
          · rw [← hidle, hrunning]
          · rw [← hrunning, ← (hgone.acts key true).works.running]
            exact visitAll_none (hgone.settled hsettled) hnone id key hrest hliving
          · cases hentering

/-- A living host that runs stays a member when a call goes on. -/
theorem resume_kept (hroster : w.Roster) {id key : Nat}
    (hmem : (id, key) ∈ (w.registry call.registry).members)
    (hrunning : (w.host key).running = true)
    (halive : ((w.resume call).2.host key).alive = true) :
    (id, key) ∈ ((w.resume call).2.registry call.registry).members := by
  have hresumes := resume_resumes hsettled hfits.has
  generalize w.resume call = left at hresumes halive ⊢
  cases hresumes with
  | waits w' stage hcurbs hsame _ =>
      rw [hsame]
      exact hmem
  | leaves w' hcurbs hsame _ hidle =>
      have hgone := hcurbs.trans
        (.unregister w' call.registry (w'.host call.host).id)
      refine visitAll_kept (hgone.settled hsettled) (hgone.roster hroster)
        (resume_lists hfits hcurbs hidle).listed ?_ ?_ halive
      · rw [registry_updateRegistry, if_pos rfl, hsame]
        refine List.mem_filter.mpr ⟨hmem, ?_⟩
        have hother : id ≠ (w'.host call.host).id := by
          intro heq
          obtain ⟨hkey, hid, hregistry⟩ := hroster.members call.registry id key hmem
          rw [(hcurbs.acts call.host true).works.id] at heq
          obtain rfl := hroster.unique key call.host hkey hfits.has
            (hregistry.trans hfits.own.symm) (hid.trans heq)
          rw [hidle] at hrunning
          cases hrunning
        simpa using hother
      · rw [(hgone.acts key true).works.running]
        exact hrunning

/-- What is left of a call when it goes on fits. -/
theorem resume_fits (hnext : (w.resume call).1 = some next) : next.Fits (w.resume call).2 none := by
  have hresumes := resume_resumes hsettled hfits.has
  generalize w.resume call = left at hresumes hnext ⊢
  cases hresumes with
  | waits w' stage hcurbs _ _ =>
      cases hnext
      have hkept : StopAll.Fits { call with stage } w none :=
        ⟨hfits.has, hfits.own, hfits.listed, hfits.covers⟩
      exact hkept.curbs hcurbs
  | leaves w' hcurbs hsame _ hidle =>
      exact visitAll_fits ((hcurbs.trans (.unregister w' call.registry _)).settled hsettled)
        (resume_lists hfits hcurbs hidle) hnext

end Resume

end World

end TickHost
