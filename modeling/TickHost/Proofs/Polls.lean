import TickHost.Proofs.Returns

/-!
What becomes of the stop-all call that is kept under a job. A call that begins or is polled is kept
if it has found a running host, and by the time it waits for the end of a run it has cut the host
off. Nothing but beginnings and polls changes which call is kept.
-/

namespace TickHost

open World

namespace World

variable {w : World} {job : String} {call next : StopAll}

theorem keepCall_get? (name : String) (left : Option StopAll × World) :
    (keepCall name left).1.jobs.get? name = match left.1 with
      | none => left.2.jobs.get? name
      | some call => some (.stopAll call) := by
  obtain ⟨_ | call, w'⟩ := left
  · rfl
  · rw [keepCall, keep_get?, if_pos rfl]

theorem Halts.keepCall {left : Option StopAll × World} {key : Nat} (h : w.Halts left.2 key)
    (name : String) : w.Halts (keepCall name left).1 key := by
  constructor
  · exact h.quiet
  · rw [keepCall_host]
    exact h.detached
  · rw [keepCall_host]
    exact h.finished

/-- A call that has to wait has found a running host. If it waits for the end of the run, it has
cut the host off. -/
theorem stopAll_found (hsettled : w.Settled) {registry : String}
    (hwaits : (w.stopAll registry job).2.isReady = false)
    (hjob : (w.stopAll registry job).1.jobs.get? job = some (.stopAll call)) :
    (w.host call.host).running = true ∧
      (call.stage = .done → w.Halts (w.stopAll registry job).1 call.host) := by
  have hbegin := begin_curbs w registry
  unfold stopAll at hwaits hjob ⊢
  dsimp only at hwaits hjob ⊢
  rw [keepCall_get?] at hjob
  generalize hleft : visitAll registry _ _ = left at hwaits hjob ⊢
  obtain ⟨_ | found, w'⟩ := left
  · cases hwaits
  · cases hjob
    obtain ⟨-, hrunning, -, hhalts⟩ := visitAll_some (hbegin.settled hsettled) hleft
    exact ⟨hrunning, fun hstage => (hbegin.halts (hhalts hstage)).keepCall job⟩

theorem poll_call (hjob : w.jobs.get? job = some (.stopAll call)) :
    w.poll job = keepCall job (resume { w with jobs := w.jobs.erase job } call) := by
  simp [poll, hjob]

/-- A running host that is a member when a call begins is found, or it is still to be visited. -/
theorem stopAll_visits (hsettled : w.Settled) {registry : String} {id key : Nat}
    (hmem : (id, key) ∈ (w.registry registry).members)
    (halive : ((w.stopAll registry job).1.host key).alive = true)
    (hrunning : (w.host key).running = true) : ∃ call,
      (w.stopAll registry job).1.jobs.get? job = some (.stopAll call) ∧
        (w.stopAll registry job).2.isReady = false ∧
        (key = call.host ∨ (id, key) ∈ call.rest) := by
  have hbegin := begin_curbs w registry
  rw [stopAll, keepCall_host] at halive
  have hliving := ((visitAll_curbs registry _ _).acts key true).works.alive halive
  have hmember : (id, key) ∈ ((w.updateRegistry registry fun r =>
      { r with stopping := r.stopping + 1 }).registry registry).members := by
    rw [registry_updateRegistry, if_pos rfl]
    exact hmem
  obtain ⟨call, hcall, hfound⟩ :=
    visitAll_finds (hbegin.settled hsettled) hmember hliving hrunning
  refine ⟨call, ?_, ?_, hfound⟩
  · rw [stopAll, keepCall_get?, hcall]
  · rw [stopAll]
    generalize visitAll registry _ _ = left at hcall
    obtain ⟨_ | kept, w'⟩ := left
    · cases hcall
    · rfl

/-- What becomes of a call that is polled. It waits on, or it leaves a host whose run is over. -/
inductive Polls (w : World) (job : String) (call : StopAll) (w' : World) : Prop where
  | waits (stage : StopStage) (hkept : w'.jobs.get? job = some (.stopAll { call with stage }))
      (hhalts : stage = .done → call.stage = .done ∨ w.Halts w' call.host)
  | leaves (hidle : (w.host call.host).running = false)
      (hhalts : call.stage = .evaluations → w.Halts w' call.host)
      (hgone : ∀ id, (id, call.host) ∉ (w'.registry call.registry).members)
      (hfound : ∀ next, w'.jobs.get? job = some (.stopAll next) →
        (w.host next.host).running = true ∧ (next.stage = .done → w.Halts w' next.host))
      (hfinds : ∀ id key, (id, key) ∈ call.rest → (w'.host key).alive = true →
        (w.host key).running = true → ∃ next, w'.jobs.get? job = some (.stopAll next) ∧
          (key = next.host ∨ (id, key) ∈ next.rest))

theorem poll_polls (hsettled : w.Settled) (hroster : w.Roster) (hfits : call.Fits w none)
    (hjob : w.jobs.get? job = some (.stopAll call)) : w.Polls job call (w.poll job).1 := by
  have herase := eraseJob_curbs w job
  have hresumes := resume_resumes (herase.settled hsettled) (herase.has hfits.has)
  have hjobs := resume_jobs { w with jobs := w.jobs.erase job } call
  rw [poll_call hjob]
  generalize resume { w with jobs := w.jobs.erase job } call = left at hresumes hjobs
  cases hresumes with
  | waits w' stage _ _ hhalts =>
      refine .waits stage (keepCall_get? job _) fun hstage => ?_
      exact (hhalts hstage).imp id fun h => (herase.halts h).keepCall job
  | leaves w' hcurbs hsame hhalts hidle =>
      have hleft := Curbs.unregister w' call.registry (w'.host call.host).id
      have hbefore := (herase.trans hcurbs).trans hleft
      have hvisits := hleft.trans (visitAll_curbs call.registry call.rest _)
      refine .leaves hidle (fun hstage => ?_) (fun id => ?_) (fun next hnext => ?_)
        fun id key hrest halive hrunning => ?_
      · exact (herase.halts ((hhalts hstage).curbs hvisits)).keepCall job
      · rw [keepCall_members]
        exact visited_gone ((herase.trans hcurbs).roster hroster) call id
      · rw [keepCall_get?] at hnext
        generalize hvisited : w'.visited call = left at hnext hjobs ⊢
        obtain ⟨_ | found, w''⟩ := left
        · rw [hjobs, Table.get?_erase, if_pos rfl] at hnext
          cases hnext
        · cases hnext
          obtain ⟨-, hrunning, -, hhalts⟩ := visitAll_some (hbefore.settled hsettled) hvisited
          refine ⟨?_, fun hstage => (hbefore.halts (hhalts hstage)).keepCall job⟩
          rw [← (hbefore.acts next.host true).works.running]
          exact hrunning
      · rw [keepCall_host] at halive
        have hliving :=
          ((visitAll_curbs call.registry call.rest _).acts key true).works.alive halive
        rw [← (hbefore.acts key true).works.running] at hrunning
        obtain ⟨next, hnext, hfound⟩ :=
          visitAll_finds (hbefore.settled hsettled) hrest hliving hrunning
        exact ⟨next, by rw [keepCall_get?, visited, hnext], hfound⟩

theorem Polls.note {w' : World} (h : w.Polls job call w') (entry : Entry) :
    w.Polls job call (w'.note entry) := by
  have hhalts : ∀ key, w.Halts w' key → w.Halts (w'.note entry) key := fun key h =>
    ⟨h.quiet, h.detached, h.finished⟩
  cases h with
  | waits stage hkept hcut => exact .waits stage hkept fun h => (hcut h).imp id (hhalts _)
  | leaves hidle hcut hgone hfound hfinds =>
      exact .leaves hidle (fun h => hhalts _ (hcut h)) hgone
        (fun next h => ⟨(hfound next h).1, fun hstage => hhalts _ ((hfound next h).2 hstage)⟩)
        hfinds

/-- Polling makes no call out of nothing. -/
theorem call_of_poll (hjob : (w.poll job).1.jobs.get? job = some (.stopAll next)) :
    ∃ call, w.jobs.get? job = some (.stopAll call) := by
  unfold poll at hjob
  split at hjob
  · exact ⟨next, hjob⟩
  · rename_i kept hkept
    dsimp only at hjob
    split at hjob
    · rename_i call
      exact ⟨call, hkept⟩
    · rename_i hplain
      unfold wait at hjob
      split at hjob
      · rw [Table.get?_erase, if_pos rfl] at hjob
        cases hjob
      · rw [keep_get?, if_pos rfl] at hjob
        cases hjob
        exact absurd rfl (hplain next)

theorem keepCall_other {name : String} (hother : name ≠ job) (left : Option StopAll × World) :
    (keepCall name left).1.jobs.get? job = left.2.jobs.get? job := by
  obtain ⟨_ | call, w'⟩ := left
  · rfl
  · rw [keepCall, keep_get?, if_neg hother]

theorem stopAll_call {registry name : String}
    (hjob : (w.stopAll registry name).1.jobs.get? job = some (.stopAll next)) :
    w.jobs.get? job = some (.stopAll next) ∨
      name = job ∧ (w.stopAll registry name).2.isReady = false := by
  unfold stopAll at hjob ⊢
  dsimp only at hjob ⊢
  have hjobs := visitAll_jobs registry
    ((w.updateRegistry registry fun r => { r with stopping := r.stopping + 1 }).registry
      registry).members
    (w.updateRegistry registry fun r => { r with stopping := r.stopping + 1 })
  generalize visitAll registry _ _ = left at hjob hjobs ⊢
  by_cases hname : name = job
  · obtain ⟨_ | found, w'⟩ := left
    · left
      rwa [keepCall, hjobs] at hjob
    · exact .inr ⟨hname, rfl⟩
  · left
    rwa [keepCall_other hname, hjobs] at hjob

theorem wait_call {name : String} {kept : Job} (hkept : kept.halts = [])
    (hjob : (w.wait name kept).1.jobs.get? job = some (.stopAll next)) :
    w.jobs.get? job = some (.stopAll next) := by
  unfold wait at hjob
  split at hjob
  · exact hjob
  · rw [keep_get?] at hjob
    split at hjob
    · cases hjob
      cases hkept
    · exact hjob

theorem call_of_erase {name : String}
    (hjob : (w.jobs.erase name).get? job = some (.stopAll next)) :
    w.jobs.get? job = some (.stopAll next) := by
  rw [Table.get?_erase] at hjob
  split at hjob
  · cases hjob
  · exact hjob

theorem poll_other {name : String} (hother : name ≠ job)
    (hjob : (w.poll name).1.jobs.get? job = some (.stopAll next)) :
    w.jobs.get? job = some (.stopAll next) := by
  unfold poll at hjob
  split at hjob
  · exact hjob
  · rename_i kept hkept
    dsimp only at hjob
    cases kept with
    | stopAll call =>
        dsimp only at hjob
        rw [keepCall_other hother, resume_jobs] at hjob
        exact call_of_erase hjob
    | done _ | evaluations _ => exact call_of_erase (wait_call rfl hjob)

theorem dropJob_call {name : String}
    (hjob : (w.dropJob name).1.jobs.get? job = some (.stopAll next)) :
    w.jobs.get? job = some (.stopAll next) := by
  unfold dropJob at hjob
  split at hjob
  · exact hjob
  · dsimp only at hjob
    rw [abandon_jobs] at hjob
    exact call_of_erase hjob

/-- Which call is kept under a job only changes when one begins there or the job is polled. -/
theorem doDeed_call {deed : WorldDeed} (hwaits : deed.waits = true)
    (hjob : (w.doDeed deed).1.jobs.get? job = some (.stopAll next)) :
    w.jobs.get? job = some (.stopAll next) ∨
      (∃ registry, deed = .stopAll registry job ∧ (w.doDeed deed).2.isReady = false) ∨
      deed = .poll job := by
  cases deed with
  | stopAll name other =>
      refine (stopAll_call hjob).imp id ?_
      rintro ⟨rfl, hready⟩
      exact .inl ⟨name, rfl, hready⟩
  | waitDone handle other | waitEvaluations handle other =>
      left
      rw [doDeed] at hjob
      split at hjob
      · exact wait_call rfl hjob
      · exact hjob
  | poll other =>
      by_cases hother : other = job
      · exact .inr (.inr (by rw [hother]))
      · exact .inl (poll_other hother hjob)
  | dropJob other => exact .inl (dropJob_call hjob)
  | _ => cases hwaits

end World

end TickHost
