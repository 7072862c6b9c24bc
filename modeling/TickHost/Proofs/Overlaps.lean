import Mathlib.Data.Set.Card
import TickHost.Proofs.Completion
import TickHost.Proofs.Depths

/-!
Stop-all calls that overlap. A call stops its registry from the step in which it begins until it
returns or is dropped, which happens when its job is dropped or another job is kept under its name.
The registry counts the calls that are open in this sense, each turn of the count is that of one
call, and the count is never taken back where it is zero. So the registry is stopping all as long as
any call is open, whichever of them end before.

A call that is polled moves on unless what it waits for has still to come: an evaluation of its
host, or the end of the very run that it has cut off. What other calls do to the host and to the
registry has no part in this.
-/

namespace TickHost

open World Machine

def Answer.isPending : Answer → Bool
  | pending => true
  | _ => false

/-! Turns of the count. -/

/-- A stop-all call begins to stop a registry or is over. -/
inductive StopTurn where
  | enter (registry : String)
  | leave (registry : String)

/-- The count of a registry after some turns, unless it is taken back where it is zero. -/
def replay (registry : String) : List StopTurn → Nat → Option Nat
  | [], count => some count
  | .enter name :: rest, count =>
      replay registry rest (if name = registry then count + 1 else count)
  | .leave name :: rest, count =>
      if name = registry then
        match count with
        | 0 => none
        | count + 1 => replay registry rest count
      else replay registry rest count

theorem replay_leaves (registry : String) (names : List String) {count : Nat}
    (h : names.count registry ≤ count) :
    replay registry (names.map .leave) count = some (count - names.count registry) := by
  induction names generalizing count with
  | nil => rfl
  | cons name rest ih =>
      rw [List.map_cons, replay.eq_def]
      dsimp only
      by_cases hname : name = registry
      · subst hname
        rw [List.count_cons_self] at h ⊢
        rw [if_pos rfl]
        cases count with
        | zero => omega
        | succ count =>
            show replay name (rest.map .leave) count = _
            rw [ih (by omega), Nat.add_sub_add_right]
      · rw [List.count_cons_of_ne hname] at h ⊢
        rw [if_neg hname, ih h]

namespace Table

variable {α : Type}

theorem get?_of_not_mem {t : Table α} {name : String} (h : name ∉ t.names) :
    t.get? name = none := by
  induction t with
  | nil => rfl
  | cons entry rest ih =>
      obtain ⟨first, value⟩ := entry
      obtain ⟨hne, hrest⟩ := not_or.mp (fun hmem => h (List.mem_cons.mpr hmem))
      rw [get?, if_neg fun heq => hne heq.symm, ih hrest]

/-- Where every value counts once or not at all, the sum is how many names have one that does. -/
theorem total_eq_ncard (f : α → Nat) (hone : ∀ value, f value ≤ 1) {t : Table α}
    (h : t.names.Nodup) : t.total f = { name | 0 < (t.get? name).elim 0 f }.ncard := by
  induction t with
  | nil => simp [total, get?]
  | cons entry rest ih =>
      obtain ⟨first, value⟩ := entry
      obtain ⟨hfirst, hrest⟩ := List.nodup_cons.mp h
      have hnew : first ∉ { name | 0 < (get? rest name).elim 0 f } := by
        rw [Set.mem_ofPred_eq, get?_of_not_mem hfirst]
        exact Nat.lt_irrefl 0
      have hfinite : { name | 0 < (get? rest name).elim 0 f }.Finite := by
        refine (List.finite_toSet (names rest)).subset fun name hname => ?_
        by_contra hmissing
        rw [Set.mem_ofPred_eq, get?_of_not_mem hmissing] at hname
        exact Nat.lt_irrefl 0 hname
      rw [total, ih hrest]
      rcases Nat.le_one_iff_eq_zero_or_eq_one.mp (hone value) with hzero | hone
      · rw [hzero, Nat.zero_add]
        congr 1
        ext name
        by_cases hname : first = name
        · subst hname
          simp [get?, hzero, get?_of_not_mem hfirst]
        · simp [get?, hname]
      · rw [hone, Nat.add_comm, ← Set.ncard_insert_of_notMem hnew hfinite]
        congr 1
        ext name
        by_cases hname : first = name
        · subst hname
          simp [get?, hone]
        · simp [get?, hname, Ne.symm hname]

end Table

namespace World

/-- The registries that the job of a name stops, none or one. -/
def jobHalts (w : World) (job : String) : List String :=
  (w.jobs.get? job).elim [] Job.halts

end World

/-- The turns of the counts in a deed with an answer. A call that has to wait is kept, and what was
kept under its name is dropped. -/
def WorldDeed.turns (w : World) (answer : Answer) : WorldDeed → List StopTurn
  | stopAll name job =>
      .enter name ::
        if answer.isPending then (w.jobHalts job).map .leave else [.leave name]
  | poll job => if answer.isReady then (w.jobHalts job).map .leave else []
  | waitDone _ job | waitEvaluations _ job =>
      if answer.isPending then (w.jobHalts job).map .leave else []
  | dropJob job => (w.jobHalts job).map .leave
  | _ => []

/-- Whether what was kept under a job is over after a deed with an answer: it has returned, it was
dropped, or something else is kept under that name. -/
def WorldDeed.ends (job : String) (answer : Answer) : WorldDeed → Bool
  | poll name => name = job && answer.isReady
  | dropJob name => name = job
  | stopAll _ name | waitDone _ name | waitEvaluations _ name => name = job && answer.isPending
  | _ => false

/-- The registries that a deed begins to stop. -/
def WorldDeed.halts : WorldDeed → List String
  | stopAll name _ => [name]
  | _ => []

namespace World

variable {w w' : World} {job name registry : String}

theorem jobHalts_erase (w : World) (name job : String) :
    { w with jobs := w.jobs.erase name }.jobHalts job =
      if name = job then [] else w.jobHalts job := by
  rw [jobHalts, Table.get?_erase]
  split <;> rfl

theorem keep_jobHalts (w : World) (name job : String) (kept : Job) :
    (w.keep name kept).1.jobHalts job = if name = job then kept.halts else w.jobHalts job := by
  rw [jobHalts, keep_get?]
  split <;> rfl

theorem Tally.jobHalts_le (h : w.Tally aside) (job registry : String) :
    (w.jobHalts job).count registry + aside.count registry ≤ (w.registry registry).stopping := by
  rw [h.count, Table.total_erase _ h.nodup job, jobHalts]
  cases w.jobs.get? job with
  | none => simp
  | some kept =>
      simp only [Option.elim_some]
      omega

theorem keep_stopping (w : World) (name registry : String) (kept : Job) :
    ((w.keep name kept).1.registry registry).stopping =
      (w.registry registry).stopping - (w.jobHalts name).count registry := by
  unfold keep jobHalts
  dsimp only
  cases w.jobs.get? name with
  | none => rfl
  | some old => exact abandon_stopping w old registry

/-- Dropping what is kept under a name takes back no more than was counted. -/
theorem replay_keep (h : w.Tally aside) (name registry : String) (kept : Job) :
    replay registry ((w.jobHalts name).map .leave) (w.registry registry).stopping =
      some ((w.keep name kept).1.registry registry).stopping := by
  have hle := h.jobHalts_le name registry
  rw [replay_leaves registry _ (by omega), keep_stopping]

theorem resume_registry (hsettled : w.Settled) {call next : StopAll} (hkey : w.Has call.host)
    (hnext : (w.resume call).1 = some next) : next.registry = call.registry := by
  have hresumes := resume_resumes hsettled hkey
  generalize w.resume call = left at hresumes hnext
  cases hresumes with
  | waits =>
      cases hnext
      rfl
  | leaves w' hcurbs _ _ _ =>
      exact (visitAll_some ((hcurbs.trans (.unregister w' call.registry _)).settled hsettled)
        (Prod.ext hnext rfl)).1

/-- A call that begins is counted until it returns, or for as long as it is kept. -/
theorem replay_stopAll (h : w.Tally []) (hsettled : w.Settled) (name job registry : String) :
    replay registry (WorldDeed.turns w (w.stopAll name job).2 (.stopAll name job))
        (w.registry registry).stopping =
      some ((w.stopAll name job).1.registry registry).stopping := by
  have hbegin := begin_curbs w name
  have htally := visitAll_tally
    ((w.updateRegistry name fun r => { r with stopping := r.stopping + 1 }).registry name).members
    (begin_tally h name)
  have hjobs := visitAll_jobs name
    ((w.updateRegistry name fun r => { r with stopping := r.stopping + 1 }).registry name).members
    (w.updateRegistry name fun r => { r with stopping := r.stopping + 1 })
  have hcount := h.count registry
  unfold stopAll
  dsimp only
  generalize hleft : visitAll name _ _ = left at htally hjobs
  obtain ⟨_ | call, w'⟩ := left
  · have hcount' : (w'.registry registry).stopping = (w.registry registry).stopping := by
      rw [htally.count, hjobs]
      exact hcount.symm
    rw [keepCall, hcount']
    by_cases hname : name = registry <;> simp [WorldDeed.turns, replay, hname, Answer.isPending]
  · obtain rfl := (visitAll_some (hbegin.settled hsettled) hleft).1
    have hhalts : w'.jobHalts job = w.jobHalts job := by
      rw [jobHalts, jobHalts, hjobs]
      rfl
    have hcount' : (w'.registry registry).stopping = if call.registry = registry
        then (w.registry registry).stopping + 1 else (w.registry registry).stopping := by
      rw [htally.count, hjobs, hcount]
      split <;> rename_i hname <;> simp [StopAll.halts, hname] <;> rfl
    have hkeep := replay_keep htally job registry (.stopAll call)
    rw [hhalts, hcount'] at hkeep
    exact hkeep

theorem replay_poll (horderly : w.Orderly none) (hsettled : w.Settled) (job registry : String) :
    replay registry (WorldDeed.turns w (w.poll job).2 (.poll job))
        (w.registry registry).stopping =
      some ((w.poll job).1.registry registry).stopping := by
  have h := horderly.tally
  cases hjob : w.jobs.get? job with
  | none => simp [poll, hjob, WorldDeed.turns, Answer.isReady, replay]
  | some kept =>
      have herase := eraseJob_tally h job hjob
      have hhalts : w.jobHalts job = kept.halts := by rw [jobHalts, hjob]; rfl
      have hgone : { w with jobs := w.jobs.erase job }.jobHalts job = [] := by
        rw [jobHalts_erase, if_pos rfl]
      cases kept with
      | stopAll call =>
          have hfits := horderly.fits job call hjob
          have hcurbs := eraseJob_curbs w job
          have htally := resume_tally herase
          have hjobs := resume_jobs { w with jobs := w.jobs.erase job } call
          have hsame := fun next (h : _ = some next) =>
            resume_registry (hcurbs.settled hsettled) (hcurbs.has hfits.has) h
          rw [poll_call hjob, WorldDeed.turns, hhalts]
          have hcount := herase.count registry
          generalize resume { w with jobs := w.jobs.erase job } call = left at htally hjobs hsame
          obtain ⟨_ | next, w'⟩ := left
          · have hcount' : (w.registry registry).stopping =
                (w'.registry registry).stopping + (Job.stopAll call).halts.count registry := by
              rw [htally.count, hjobs]
              exact hcount
            have hleaves := replay_leaves registry (Job.stopAll call).halts
              (Nat.le_add_left _ (w'.registry registry).stopping)
            rwa [← hcount', hcount', Nat.add_sub_cancel, ← hcount'] at hleaves
          · have hregistry := hsame next rfl
            have hcount' : (w'.registry registry).stopping = (w.registry registry).stopping := by
              rw [htally.count, hjobs]
              simp only [StopAll.halts, Option.elim_some, hregistry]
              exact hcount.symm
            have hempty : w'.jobHalts job = [] := by
              rw [jobHalts, hjobs]
              exact hgone
            rw [keepCall, keep_stopping, hempty, hcount']
            rfl
      | done key | evaluations key =>
          have hempty : w.jobHalts job = [] := hhalts
          simp only [poll, hjob, WorldDeed.turns, hempty, wait]
          split
          · rfl
          · rw [keep_stopping, hgone]
            rfl

theorem replay_wait (h : w.Tally []) (job registry : String) (kept : Job) :
    replay registry (if (w.wait job kept).2.isPending then (w.jobHalts job).map .leave else [])
      (w.registry registry).stopping = some ((w.wait job kept).1.registry registry).stopping := by
  unfold wait
  split
  · rfl
  · exact replay_keep h job registry kept

/-- Whatever deals with jobs takes no count back that is zero. -/
theorem doDeed_replay (horderly : w.Orderly none) (hsettled : w.Settled) {deed : WorldDeed}
    (hwaits : deed.waits = true) (registry : String) :
    replay registry (deed.turns w (w.doDeed deed).2) (w.registry registry).stopping =
      some ((w.doDeed deed).1.registry registry).stopping := by
  have h := horderly.tally
  cases deed with
  | stopAll name job => exact replay_stopAll h hsettled name job registry
  | poll job => exact replay_poll horderly hsettled job registry
  | waitDone handle job | waitEvaluations handle job =>
      unfold doDeed
      dsimp only
      split
      · exact replay_wait h job registry _
      · rfl
  | dropJob job =>
      have hle := h.jobHalts_le job registry
      rw [WorldDeed.turns, replay_leaves registry _ (by omega), doDeed, dropJob, jobHalts]
      cases w.jobs.get? job with
      | none => rfl
      | some old =>
          exact congrArg some
            (abandon_stopping { w with jobs := w.jobs.erase job } old registry).symm
  | _ => cases hwaits

theorem stopAll_jobHalts (hsettled : w.Settled) (registry name job : String) :
    (w.stopAll registry name).1.jobHalts job =
      if (WorldDeed.stopAll registry name).ends job (w.stopAll registry name).2 then [registry]
      else w.jobHalts job := by
  have hbegin := begin_curbs w registry
  have hjobs := visitAll_jobs registry
    ((w.updateRegistry registry fun r => { r with stopping := r.stopping + 1 }).registry
      registry).members
    (w.updateRegistry registry fun r => { r with stopping := r.stopping + 1 })
  have hstop : ∃ left, w.stopAll registry name = keepCall name left ∧ visitAll registry
      ((w.updateRegistry registry fun r => { r with stopping := r.stopping + 1 }).registry
        registry).members
      (w.updateRegistry registry fun r => { r with stopping := r.stopping + 1 }) = left :=
    ⟨_, rfl, rfl⟩
  obtain ⟨⟨left, w'⟩, hstop, hleft⟩ := hstop
  rw [hleft] at hjobs
  rw [hstop]
  have hsame : w'.jobHalts job = w.jobHalts job := by
    rw [jobHalts, jobHalts, hjobs]
    rfl
  cases left with
  | none => simp [keepCall, WorldDeed.ends, Answer.isPending, hsame]
  | some call =>
      obtain rfl := (visitAll_some (hbegin.settled hsettled) hleft).1
      have hkept := keep_jobHalts w' name job (.stopAll call)
      simpa [keepCall, keep, WorldDeed.ends, Answer.isPending, Job.halts, hsame] using hkept

theorem wait_jobHalts (w : World) (kept : Job) (hplain : kept.halts = []) (name job : String) :
    (w.wait name kept).1.jobHalts job =
      if name = job && (w.wait name kept).2.isPending then [] else w.jobHalts job := by
  unfold wait
  split
  · simp [Answer.isPending]
  · rw [keep_jobHalts, hplain]
    simp [keep, Answer.isPending]

/-- A call that is polled and not ready goes on stopping its registry. -/
theorem poll_jobHalts (hsettled : w.Settled) (hlinked : w.Linked) (name job : String) :
    (w.poll name).1.jobHalts job =
      if (WorldDeed.poll name).ends job (w.poll name).2 then [] else w.jobHalts job := by
  have herased := jobHalts_erase w name job
  cases hjob : w.jobs.get? name with
  | none => simp [poll, hjob, WorldDeed.ends, Answer.isReady]
  | some kept =>
      have hhalts : w.jobHalts name = kept.halts := by rw [jobHalts, hjob]; rfl
      cases kept with
      | stopAll call =>
          have hcurbs := eraseJob_curbs w name
          have hjobs := resume_jobs { w with jobs := w.jobs.erase name } call
          have hkey : w.Has call.host := hlinked.jobs name _ hjob
          have hsame := fun next (h : _ = some next) =>
            resume_registry (hcurbs.settled hsettled) (hcurbs.has hkey) h
          rw [poll_call hjob]
          generalize resume { w with jobs := w.jobs.erase name } call = left at hjobs hsame
          have hleft : left.2.jobHalts job = if name = job then [] else w.jobHalts job := by
            rw [jobHalts, hjobs]
            exact herased
          obtain ⟨_ | next, w'⟩ := left
          · simpa [keepCall, WorldDeed.ends, Answer.isReady] using hleft
          · have hregistry := hsame next rfl
            have hkept := keep_jobHalts w' name job (.stopAll next)
            by_cases hname : name = job
            · subst hname
              simpa [keepCall, keep, WorldDeed.ends, Answer.isReady, Job.halts, hregistry, hhalts]
                using hkept
            · simpa [keepCall, WorldDeed.ends, hname, hleft] using hkept
      | done key | evaluations key =>
          have hempty : w.jobHalts name = [] := hhalts
          simp only [poll, hjob, wait]
          split
          · simpa [WorldDeed.ends, Answer.isReady] using herased
          · rw [keep_jobHalts, herased]
            by_cases hname : name = job
            · subst hname
              simp [WorldDeed.ends, keep, Answer.isReady, Job.halts, hempty]
            · simp [WorldDeed.ends, hname]

theorem dropJob_jobHalts (w : World) (name job : String) :
    (w.dropJob name).1.jobHalts job = if name = job then [] else w.jobHalts job := by
  unfold dropJob
  cases hjob : w.jobs.get? name with
  | none =>
      by_cases hname : name = job
      · subst hname
        simp [jobHalts, hjob]
      · simp [hname]
  | some old =>
      rw [← jobHalts_erase, jobHalts, abandon_jobs]
      rfl

/-- What is kept under a job is what was kept before, unless it is over. -/
theorem doDeed_jobHalts (hsettled : w.Settled) (hlinked : w.Linked) {deed : WorldDeed}
    (hwaits : deed.waits = true) (job : String) :
    (w.doDeed deed).1.jobHalts job =
      if deed.ends job (w.doDeed deed).2 then deed.halts else w.jobHalts job := by
  cases deed with
  | stopAll registry name => exact stopAll_jobHalts hsettled registry name job
  | poll name => exact poll_jobHalts hsettled hlinked name job
  | waitDone handle name =>
      rw [doDeed]
      cases w.handles.get? handle with
      | none => simp [WorldDeed.ends, Answer.isPending]
      | some key => exact wait_jobHalts w (.done key) rfl name job
  | waitEvaluations handle name =>
      rw [doDeed]
      cases w.handles.get? handle with
      | none => simp [WorldDeed.ends, Answer.isPending]
      | some key => exact wait_jobHalts w (.evaluations key) rfl name job
  | dropJob name =>
      have hdropped := dropJob_jobHalts w name job
      simpa [WorldDeed.ends, WorldDeed.halts, doDeed] using hdropped
  | _ => cases hwaits

/-! What calls wait for. -/

/-- What a call waits for has still to come: an evaluation of its host, or the end of a run. -/
def Blocks (w : World) (call : StopAll) : Prop :=
  match call.stage with
  | .evaluations => 0 < (w.host call.host).pending
  | .done => (w.host call.host).running = true

theorem visitAll_pending {rest : List (Nat × Nat)} {call : StopAll}
    (hcall : visitAll registry rest w = (some call, w')) (hstage : call.stage = .evaluations) :
    0 < (w'.host call.host).pending := by
  induction rest generalizing w with
  | nil => cases hcall
  | cons entry rest ih =>
      unfold visitAll at hcall
      split at hcall
      · exact ih hcall
      · split at hcall
        · exact ih hcall
        · split at hcall
          · rename_i hpending
            cases hcall
            exact hpending
          · dsimp only at hcall
            split at hcall
            · exact ih hcall
            · cases hcall
              cases hstage

/-- A call only waits for a host if it has to. -/
theorem visitAll_blocks (hsettled : w.Settled) {rest : List (Nat × Nat)} {call : StopAll}
    (hcall : visitAll registry rest w = (some call, w')) : w'.Blocks call := by
  obtain ⟨-, hrunning, -⟩ := visitAll_some hsettled hcall
  have hcurbs := visitAll_curbs registry rest w
  rw [hcall] at hcurbs
  unfold Blocks
  split
  · rename_i hstage
    exact visitAll_pending hcall hstage
  · rw [(hcurbs.acts call.host true).works.running]
    exact hrunning

/-- A call that is polled waits on only if it has to. -/
theorem resume_blocks (hsettled : w.Settled) {call next : StopAll} (hkey : w.Has call.host)
    (hnext : w.resume call = (some next, w')) : w'.Blocks next := by
  have hruns : ∀ {w' : World}, w.Curbs w' → ¬ (w'.host call.host).done = true →
      (w'.host call.host).running = true := by
    intro w' hcurbs hopen
    rw [hcurbs.settled hsettled] at hopen
    simpa using hopen
  have hvisited : ∀ {w₁ : World}, w.Curbs w₁ → w₁.visited call = (some next, w') →
      w'.Blocks next := fun hcurbs hcall =>
    visitAll_blocks ((hcurbs.trans (.unregister _ _ _)).settled hsettled) hcall
  unfold resume at hnext
  split at hnext
  · rename_i hstage
    split at hnext
    · rename_i hpending
      cases hnext
      rwa [Blocks, hstage]
    · rename_i hquiet
      have hcut : w.Curbs (w.cutOff call.host) := cutOff_curbs hkey (by omega)
      dsimp only at hnext
      split at hnext
      · exact hvisited hcut hnext
      · rename_i hopen
        cases hnext
        exact hruns hcut hopen
  · rename_i hstage
    split at hnext
    · exact hvisited (.refl w) hnext
    · rename_i hopen
      cases hnext
      rw [Blocks, hstage]
      exact hruns (.refl w) hopen

theorem keep_blocks {kept call : StopAll} (h : w.Blocks kept) (name : String)
    (hjob : (w.keep name (.stopAll kept)).1.jobs.get? name = some (.stopAll call)) :
    (w.keep name (.stopAll kept)).1.Blocks call := by
  rw [keep_get?, if_pos rfl] at hjob
  cases hjob
  unfold Blocks at h ⊢
  rwa [keep_host]

theorem stopAll_blocks (hsettled : w.Settled) {call : StopAll}
    (hpending : (w.stopAll registry name).2.isPending = true)
    (hjob : (w.stopAll registry name).1.jobs.get? name = some (.stopAll call)) :
    (w.stopAll registry name).1.Blocks call := by
  have hbegin := begin_curbs w registry
  unfold stopAll at hpending hjob ⊢
  dsimp only at hpending hjob ⊢
  generalize hleft : visitAll registry _ _ = left at hpending hjob ⊢
  obtain ⟨_ | kept, w'⟩ := left
  · cases hpending
  · exact keep_blocks (visitAll_blocks (hbegin.settled hsettled) hleft) name hjob

theorem poll_blocks (hsettled : w.Settled) (hlinked : w.Linked) {call : StopAll}
    (hjob : (w.poll name).1.jobs.get? name = some (.stopAll call)) :
    (w.poll name).1.Blocks call := by
  obtain ⟨before, hbefore⟩ := call_of_poll hjob
  have hcurbs := eraseJob_curbs w name
  have hkey : w.Has before.host := hlinked.jobs name _ hbefore
  have hjobs := resume_jobs { w with jobs := w.jobs.erase name } before
  rw [poll_call hbefore] at hjob ⊢
  generalize hleft : resume { w with jobs := w.jobs.erase name } before = left at hjob hjobs ⊢
  obtain ⟨_ | kept, w'⟩ := left
  · rw [keepCall, hjobs, Table.get?_erase, if_pos rfl] at hjob
    cases hjob
  · exact keep_blocks (resume_blocks (hcurbs.settled hsettled) (hcurbs.has hkey) hleft) name hjob

end World

/-! Open calls. -/

/-- What was kept under a job is over in this step. -/
def EndsJob (σ : Nat → Machine) (job : String) (n : Nat) : Prop :=
  ∃ scope deed actions rest, Executes σ n (.perform scope (.onWorld deed :: actions)) rest ∧
    deed.ends job ((σ n).world.doDeed deed).2 = true

/-- A stop-all call begins in this step. It does not return at once and is kept under a job. -/
def Opens (σ : Nat → Machine) (registry job : String) (n : Nat) : Prop :=
  ∃ scope actions rest,
    Executes σ n (.perform scope (.onWorld (.stopAll registry job) :: actions)) rest ∧
    ((σ n).world.doDeed (.stopAll registry job)).2.isPending = true

/-- A job is looked after in this step, or a stop-all call is polled for the first time and kept
under it. -/
def Polled (σ : Nat → Machine) (job : String) (n : Nat) : Prop :=
  (∃ registry, Opens σ registry job n) ∨
    ∃ scope actions rest, Executes σ n (.perform scope (.onWorld (.poll job) :: actions)) rest

/-- A stop-all call that began at `b` has neither returned nor been dropped by `n`. -/
structure OpenCall (σ : Nat → Machine) (registry job : String) (n b : Nat) : Prop where
  earlier : b < n
  opens : Opens σ registry job b
  lasts : ∀ i, b < i → i < n → ¬ EndsJob σ job i

/-- The open calls on a registry, by the steps in which they began. -/
def openCalls (σ : Nat → Machine) (registry : String) (n : Nat) : Set Nat :=
  { b | ∃ job, OpenCall σ registry job n b }

theorem WorldDeed.waits_of_ends {deed : WorldDeed} {job : String} {answer : Answer}
    (h : deed.ends job answer = true) : deed.waits = true := by
  cases deed <;> first | rfl | cases h

section Open

variable {σ : Nat → Machine} {registry other job job' : String} {n b c : Nat}

theorem Opens.unique (h : Opens σ registry job n) (h' : Opens σ other job' n) :
    registry = other ∧ job = job' := by
  obtain ⟨scope, actions, rest, hexec, -⟩ := h
  obtain ⟨scope', actions', rest', hexec', -⟩ := h'
  cases (hexec.unique hexec').1
  exact ⟨rfl, rfl⟩

/-- What was kept under the job of a call that begins is over. -/
theorem Opens.ends (h : Opens σ registry job n) : EndsJob σ job n := by
  obtain ⟨scope, actions, rest, hexec, hpending⟩ := h
  exact ⟨scope, _, actions, rest, hexec, by simp [WorldDeed.ends, hpending]⟩

theorem EndsJob.unique (h : EndsJob σ job n) (h' : EndsJob σ job' n) : job = job' := by
  obtain ⟨scope, deed, actions, rest, hexec, hends⟩ := h
  obtain ⟨scope', deed', actions', rest', hexec', hends'⟩ := h'
  cases (hexec.unique hexec').1
  cases deed <;> simp [WorldDeed.ends] at hends hends' <;> grind

/-- Under a job there is one open call at most. -/
theorem OpenCall.unique (h : OpenCall σ registry job n b) (h' : OpenCall σ other job n c) :
    b = c := by
  rcases Nat.lt_trichotomy b c with hbc | heq | hcb
  · exact (h.lasts c hbc h'.earlier h'.opens.ends).elim
  · exact heq
  · exact (h'.lasts b hcb h.earlier h.opens.ends).elim

theorem openCalls_finite (σ : Nat → Machine) (registry : String) (n : Nat) :
    (openCalls σ registry n).Finite :=
  (Set.finite_lt_nat n).subset fun _ ⟨_, h⟩ => h.earlier

namespace Behavior

variable (hσ : Behavior σ)

include hσ

/-- What a job stops after a step: a call begins there, or the one that was kept goes on. -/
theorem halts_iff : registry ∈ (σ (n + 1)).world.jobHalts job ↔
    Opens σ registry job n ∨ ¬ EndsJob σ job n ∧ registry ∈ (σ n).world.jobHalts job := by
  have hsound := hσ.sound n
  by_cases hdeed : ∃ scope deed actions rest,
      Executes σ n (.perform scope (.onWorld deed :: actions)) rest ∧ deed.waits = true
  · obtain ⟨scope, deed, actions, rest, hexec, hwaits⟩ := hdeed
    have hafter : (σ (n + 1)).world.jobHalts job =
        ((σ n).world.doDeed deed).1.jobHalts job := by
      rw [world_of_deed hexec hwaits]
      rfl
    rw [hafter, doDeed_jobHalts hsound.settled hsound.linked hwaits]
    split
    · rename_i hends
      have hover : EndsJob σ job n := ⟨scope, deed, actions, rest, hexec, hends⟩
      constructor
      · intro hmem
        cases deed with
        | stopAll name kept =>
            obtain rfl := List.mem_singleton.mp hmem
            obtain ⟨rfl, hpending⟩ := by simpa [WorldDeed.ends] using hends
            exact .inl ⟨scope, actions, rest, hexec, hpending⟩
        | _ => cases hmem
      · rintro (⟨scope', actions', rest', hexec', -⟩ | ⟨hlasts, -⟩)
        · cases (hexec.unique hexec').1
          exact List.mem_singleton_self registry
        · exact absurd hover hlasts
    · rename_i hgoes
      have hlasts : ¬ EndsJob σ job n := by
        rintro ⟨scope', deed', actions', rest', hexec', hends⟩
        cases (hexec.unique hexec').1
        exact hgoes hends
      exact ⟨fun hmem => .inr ⟨hlasts, hmem⟩, fun h =>
        h.elim (fun hopens => absurd hopens.ends hlasts) And.right⟩
  · have hjobs : (σ (n + 1)).world.jobs = (σ n).world.jobs := by
      rcases (hσ.next n).cases with hsame | ⟨t, rest, hagenda, hstep⟩
      · exact hsame.jobs
      · cases hwaits : t.waits with
        | false =>
            rw [hstep, step_world hagenda]
            exact (Task.react_untouched hsound.linked (hsound.head hagenda) hwaits).1
        | true =>
            obtain ⟨scope, deed, actions, rfl, hwaits⟩ := Task.deed_of_waits hwaits
            exact (hdeed ⟨scope, deed, actions, rest, ⟨hagenda, hstep⟩, hwaits⟩).elim
    have hlasts : ¬ EndsJob σ job n := fun ⟨scope, deed, actions, rest, hexec, hends⟩ =>
      hdeed ⟨scope, deed, actions, rest, hexec, WorldDeed.waits_of_ends hends⟩
    rw [jobHalts, hjobs]
    exact ⟨fun hmem => .inr ⟨hlasts, hmem⟩, fun h =>
      h.elim (fun hopens => absurd hopens.ends hlasts) And.right⟩

/-- The calls that are kept are the open ones. -/
theorem kept_iff : registry ∈ (σ n).world.jobHalts job ↔ ∃ b, OpenCall σ registry job n b := by
  induction n with
  | zero =>
      obtain ⟨disk, remote, programs, functions, network, actions, hstart⟩ := hσ.starts
      rw [hstart]
      exact ⟨nofun, fun ⟨b, h⟩ => absurd h.earlier (Nat.not_lt_zero b)⟩
  | succ n ih =>
      rw [hσ.halts_iff, ih]
      constructor
      · rintro (hopens | ⟨hgoes, b, h⟩)
        · exact ⟨n, Nat.lt_succ_self n, hopens, fun i hni hin => absurd hin (by omega)⟩
        · refine ⟨b, Nat.lt_succ_of_lt h.earlier, h.opens, fun i hbi hin => ?_⟩
          rcases Nat.lt_succ_iff_lt_or_eq.mp hin with hin | rfl
          · exact h.lasts i hbi hin
          · exact hgoes
      · rintro ⟨b, h⟩
        rcases Nat.lt_succ_iff_lt_or_eq.mp h.earlier with hbn | rfl
        · exact .inr ⟨h.lasts n hbn (Nat.lt_succ_self n), b, hbn, h.opens,
            fun i hbi hin => h.lasts i hbi (Nat.lt_succ_of_lt hin)⟩
        · exact .inl h.opens

/-- A registry counts the open calls. -/
theorem stopping_eq_open (registry : String) (n : Nat) :
    ((σ n).world.registry registry).stopping = (openCalls σ registry n).ncard := by
  have htally := (hσ.orderly n).tally
  have hone : ∀ job : Job, job.halts.count registry ≤ 1 := by
    intro job
    cases job with
    | stopAll call => exact List.count_le_length
    | done _ | evaluations _ => exact Nat.zero_le 1
  have hopen : ∀ job, 0 < ((σ n).world.jobs.get? job).elim 0 (·.halts.count registry) ↔
      ∃ b, OpenCall σ registry job n b := by
    intro job
    rw [← hσ.kept_iff, jobHalts]
    cases (σ n).world.jobs.get? job with
    | none => simp
    | some kept => exact List.count_pos_iff
  rw [htally.count, List.count_nil, Nat.add_zero, Table.total_eq_ncard _ hone htally.nodup]
  refine Set.ncard_congr (fun job hjob => ((hopen job).mp hjob).choose)
    (fun job hjob => ⟨job, ((hopen job).mp hjob).choose_spec⟩)
    (fun job job' hjob hjob' heq => ?_) fun b ⟨job, h⟩ => ?_
  · have hspec := ((hopen job).mp hjob).choose_spec
    rw [heq] at hspec
    exact (hspec.opens.unique ((hopen job').mp hjob').choose_spec.opens).2
  · have hjob := (hopen job).mpr ⟨b, h⟩
    exact ⟨job, hjob, ((hopen job).mp hjob).choose_spec.unique h⟩

theorem isStopping_iff : ((σ n).world.registry registry).isStopping = true ↔
    ∃ job b, OpenCall σ registry job n b := by
  rw [Registry.isStopping, decide_eq_true_eq, hσ.stopping_eq_open,
    Set.ncard_pos (openCalls_finite σ registry n)]
  constructor
  · rintro ⟨b, job, h⟩
    exact ⟨job, b, h⟩
  · rintro ⟨job, b, h⟩
    exact ⟨b, job, h⟩

omit hσ in
/-- The end of one call is not that of another. -/
theorem open_of_other (h : OpenCall σ registry job n b) (h' : OpenCall σ other job' n c)
    (hne : b ≠ c) (hends : EndsJob σ job n) : OpenCall σ other job' (n + 1) c := by
  refine ⟨Nat.lt_succ_of_lt h'.earlier, h'.opens, fun i hci hin => ?_⟩
  rcases Nat.lt_succ_iff_lt_or_eq.mp hin with hin | rfl
  · exact h'.lasts i hci hin
  · intro hends'
    obtain rfl := hends.unique hends'
    exact hne (h.unique h')

/-- A call that was polled waits for something that has still to come. -/
theorem blocks_of_polled (hpolled : Polled σ job n) {next : StopAll}
    (hnext : (σ (n + 1)).world.jobs.get? job = some (.stopAll next)) :
    (σ (n + 1)).world.Blocks next := by
  have hsound := hσ.sound n
  rcases hpolled with ⟨registry, scope, actions, rest, hexec, hpending⟩ |
    ⟨scope, actions, rest, hexec⟩
  · have hworld := world_of_deed hexec rfl
    rw [hworld] at hnext ⊢
    exact stopAll_blocks hsound.settled hpending hnext
  · have hworld := world_of_deed hexec rfl
    rw [hworld] at hnext ⊢
    exact poll_blocks hsound.settled hsound.linked hnext

/-- A host that runs while a call for it is polled was running when the call came to wait for it:
while the call waits no run can begin. -/
theorem begun_before {key : Nat} {scope scope' : Scope} {actions actions' : List Action}
    {rest rest' : List Task} (hcn : c ≤ n) (hfirst : Executes σ c (.perform scope actions) rest)
    (hlast : Executes σ n (.perform scope' actions') rest')
    (hawaits : ∀ i, c < i → i ≤ n → Awaits σ job key i) (hopen : Unfinished σ key (n + 1)) :
    ∃ b, b < c ∧ Begins σ key b ∧ ∀ i, b < i → i ≤ n → ¬ MarksDone σ key i := by
  obtain ⟨b, hbn, hbegins, hunmarked⟩ := hopen
  refine ⟨b, ?_, hbegins, fun i hbi hin => hunmarked i hbi (Nat.lt_succ_of_le hin)⟩
  obtain ⟨below, hbegin⟩ := hbegins
  by_contra hlate
  have hne : b ≠ n := by
    rintro rfl
    cases (hbegin.unique hlast).1
  have hbn : b < n := Nat.lt_of_le_of_ne (Nat.le_of_lt_succ hbn) hne
  have hne : c ≠ b := by
    rintro rfl
    cases (hbegin.unique hfirst).1
  have hcb : c < b := Nat.lt_of_le_of_ne (Nat.le_of_not_lt hlate) hne
  have hcrashed := (hσ.sound n).uncrashed hlast.agenda
  -- the run comes to be confirmed, and is refused
  have hconfirm := after hbegin (hσ.uncrashed hbn hcrashed)
  rcases hσ.stuck_until rfl rfl hconfirm hbn with ⟨hstuck, -⟩ | ⟨j, hbj, hjn, hconfirms, -⟩
  · cases hstuck.symm.trans hlast.agenda
  · have hflight := hσ.inFlight_of_awaits (hawaits j (by omega) (Nat.le_of_lt hjn))
    exact hunmarked j hbj (Nat.lt_succ_of_lt hjn)
      (.inr ⟨⟨_, hconfirms⟩, hσ.stopping_of_inFlight hflight rfl⟩)

/-- A call that waits for the end of a run waits for the run that it has cut off. -/
theorem run_of_polled {key : Nat} (hpolled : Polled σ job n)
    (hdone : AwaitsAt σ job key .done (n + 1)) :
    ∃ b c, b < c ∧ c ≤ n ∧ Begins σ key b ∧ CutsOff σ job key c ∧
      ∀ i, b < i → i ≤ n → ¬ MarksDone σ key i := by
  classical
  have hzero : ¬ AwaitsAt σ job key .done 0 := by
    obtain ⟨disk, remote, programs, functions, network, actions, hstart⟩ := hσ.starts
    rw [AwaitsAt, hstart]
    rintro ⟨call, hcall, -⟩
    cases hcall
  obtain ⟨c, hcn, hbefore, hafter⟩ := exists_last_rise
    (fun i => decide (AwaitsAt σ job key .done i)) (decide_eq_false hzero) (decide_eq_true hdone)
  have hbefore : ¬ AwaitsAt σ job key .done c := of_decide_eq_false hbefore
  have hafter : ∀ i, c < i → i ≤ n + 1 → AwaitsAt σ job key .done i :=
    fun i hci hin => of_decide_eq_true (hafter i hci hin)
  have hcn : c ≤ n := Nat.le_of_lt_succ hcn
  have hnew := hafter (c + 1) (Nat.lt_succ_self c) (Nat.succ_le_succ hcn)
  obtain ⟨next, hnext, hhost, hstage⟩ := id hnew
  rcases hσ.call_before hnext with hsame | ⟨scope, deed, actions, rest, hfirst, hdeed⟩
  · exact absurd ⟨next, hsame, hhost, hstage⟩ hbefore
  have hcuts : CutsOff σ job key c := by
    refine ⟨scope, deed, actions, rest, hfirst, ?_⟩
    rcases hdeed with ⟨registry, rfl, hready⟩ | rfl
    · exact .inl ⟨registry, rfl, hready, hnew⟩
    · exact .inr ⟨rfl, .inl ⟨hbefore, hnew⟩⟩
  obtain ⟨scope', actions', rest', hlast⟩ :
      ∃ scope actions rest, Executes σ n (.perform scope actions) rest := by
    rcases hpolled with ⟨registry, scope, actions, rest, hexec, -⟩ | ⟨scope, actions, rest, hexec⟩
    · exact ⟨scope, _, rest, hexec⟩
    · exact ⟨scope, _, rest, hexec⟩
  have hopen : Unfinished σ key (n + 1) := by
    obtain ⟨call, hcall, rfl, hstage⟩ := hdone
    have hblocks := hσ.blocks_of_polled hpolled hcall
    rw [Blocks, hstage] at hblocks
    exact hσ.running_iff.mp hblocks
  obtain ⟨b, hbc, hbegins, hunmarked⟩ := hσ.begun_before hcn hfirst hlast
    (fun i hci hin => by
      obtain ⟨call, hcall, hhost, -⟩ := hafter i hci (Nat.le_succ_of_le hin)
      exact ⟨call, hcall, hhost⟩) hopen
  exact ⟨b, c, hbc, hcn, hbegins, hcuts, hunmarked⟩

/-- The count of a registry goes through the turns of what is done. -/
theorem replay_turns {scope : Scope} {deed : WorldDeed} {actions : List Action} {rest : List Task}
    (hexec : Executes σ n (.perform scope (.onWorld deed :: actions)) rest) (registry : String) :
    replay registry (deed.turns (σ n).world ((σ n).world.doDeed deed).2)
        ((σ n).world.registry registry).stopping =
      some ((σ (n + 1)).world.registry registry).stopping := by
  have hsound := hσ.sound n
  cases hwaits : deed.waits with
  | true =>
      have horderly := hσ.orderly_of_perform hexec
      rw [doDeed_replay horderly hsound.settled hwaits, world_of_deed hexec hwaits]
      rfl
  | false =>
      have huntouched := Task.react_untouched (o := (σ n).outcome) hsound.linked
        (hsound.head hexec.agenda) hwaits
      rw [world_after hexec, huntouched.2]
      cases deed with
      | stopAll _ _ | poll _ | dropJob _ | waitDone _ _ | waitEvaluations _ _ => cases hwaits
      | _ => rfl

theorem stopping_unmoved (hother : ∀ scope deed actions rest,
      ¬ Executes σ n (.perform scope (.onWorld deed :: actions)) rest) (registry : String) :
    ((σ (n + 1)).world.registry registry).stopping =
      ((σ n).world.registry registry).stopping := by
  rcases (hσ.next n).cases with hsame | ⟨t, rest, hagenda, hstep⟩
  · exact hsame.stopping registry
  · have hsound := hσ.sound n
    cases hwaits : t.waits with
    | false =>
        rw [hstep, step_world hagenda]
        exact (Task.react_untouched hsound.linked (hsound.head hagenda) hwaits).2 registry
    | true =>
        obtain ⟨scope, deed, actions, rfl, -⟩ := Task.deed_of_waits hwaits
        exact (hother scope deed actions rest ⟨hagenda, hstep⟩).elim

end Behavior

end Open

/-- How stop-all calls on a registry hold it, and how long they wait. -/
structure StopCalls (σ : Nat → Machine) (registry : String) : Prop where
  /-- The registry counts the open calls. -/
  count : ∀ n, ((σ n).world.registry registry).stopping = (openCalls σ registry n).ncard
  /-- So it is stopping all exactly while there is one. -/
  stopping : ∀ n, ((σ n).world.registry registry).isStopping = true ↔
    ∃ job b, OpenCall σ registry job n b
  /-- When a call ends others stay open, and the registry goes on stopping all. -/
  overlap : ∀ {job other n b c}, OpenCall σ registry job n b → OpenCall σ registry other n c →
    b ≠ c → EndsJob σ job n →
    OpenCall σ registry other (n + 1) c ∧
      ((σ (n + 1)).world.registry registry).isStopping = true
  /-- The count goes through the turns of each deed, and never has to be taken back where it is
  zero. No other step moves it. -/
  turns : ∀ {n scope deed actions rest},
    Executes σ n (.perform scope (.onWorld deed :: actions)) rest →
    replay registry (deed.turns (σ n).world ((σ n).world.doDeed deed).2)
        ((σ n).world.registry registry).stopping =
      some ((σ (n + 1)).world.registry registry).stopping
  unmoved : ∀ {n}, (∀ scope deed actions rest,
      ¬ Executes σ n (.perform scope (.onWorld deed :: actions)) rest) →
    ((σ (n + 1)).world.registry registry).stopping = ((σ n).world.registry registry).stopping
  /-- A call that was polled and waits for the evaluations of a host does so because one is on the
  stack. -/
  evaluations : ∀ {job key n}, Polled σ job n → AwaitsAt σ job key .evaluations (n + 1) →
    (callStack σ key (n + 1)).Nonempty
  /-- If it waits for the end of a run, then it has cut the host off and asked it to stop during a
  run, and that very run was not marked as done yet. -/
  run : ∀ {job key n}, Polled σ job n → AwaitsAt σ job key .done (n + 1) →
    ∃ b c, b < c ∧ c ≤ n ∧ Begins σ key b ∧ CutsOff σ job key c ∧
      ((σ (c + 1)).world.host key).finished = true ∧ ∀ i, b < i → i ≤ n → ¬ MarksDone σ key i

/-- A deed begins a stop-all call on a registry that is kept under a job. -/
def WorldDeed.opens (w : World) (registry job : String) : WorldDeed → Bool
  | stopAll name kept => name = registry ∧ kept = job ∧ (w.stopAll name kept).2.isPending = true
  | _ => false

namespace Machine

variable {m : Machine} {registry job : String} {n : Nat}

theorem opens_trace (h : (m.trace n).agenda.head?.any
      (fun t => t.deed?.any (WorldDeed.opens (m.trace n).world registry job)) = true) :
    Opens m.trace registry job n := by
  obtain ⟨scope, deed, actions, rest, hexec, hopens⟩ := performs_trace_iff.mpr h
  cases deed with
  | stopAll name kept =>
      obtain ⟨rfl, rfl, hpending⟩ := of_decide_eq_true hopens
      exact ⟨scope, actions, rest, hexec, hpending⟩
  | _ => cases hopens

theorem polled_trace (h : (m.trace n).agenda.head?.any
      (fun t => t.deed?.any (WorldDeed.polls job)) = true) : Polled m.trace job n := by
  obtain ⟨scope, deed, actions, rest, hexec, hpolls⟩ := performs_trace_iff.mpr h
  cases deed with
  | poll name => exact .inr ⟨scope, actions, rest, of_decide_eq_true hpolls ▸ hexec⟩
  | _ => cases hpolls

instance (m : Machine) (job : String) (n : Nat) : Decidable (EndsJob m.trace job n) :=
  decidable_of_iff' _ performs_trace_iff

/-- A host begins two stop-all calls in its program, drops the first and polls the second, also when
it is updated and when it ends. -/
def overlapping : Machine :=
  .start (.start default [] [("body",
      [.onWorld (.stopAll "" "j"), .onWorld (.stopAll "" "k"), .onWorld (.dropJob "j"),
        .onWorld (.poll "k"), .inScript none (.connect .update (.native [.onWorld (.poll "k")])),
        .inScript none (.connect .scriptEnding (.native [.onWorld (.poll "k")]))])] [] default)
    [.build ⟨"h", "body", "h.js", none, .standard, "", none, none, false, none, false, 9⟩ [],
      .onHost (some "h") .run, .onWorld (.poll "k")]

end Machine

end TickHost
