import TickHost.Proofs.Behavior

/-!
Stop-all calls that are under way. They are kept among the jobs, and a registry counts exactly
those that stop it. A call knows all members of its registry that run: the host that it waits for
and hosts that it has still to visit, since nobody can run anew while it is under way. One host
may just have begun a run that is about to be refused.
-/

namespace TickHost

namespace Table

variable {α : Type} {name : String}

def names (t : Table α) : List String :=
  t.map Prod.fst

def total (f : α → Nat) : Table α → Nat
  | [] => 0
  | (_, value) :: rest => f value + total f rest

theorem erase_of_not_mem {t : Table α} (h : name ∉ t.names) : t.erase name = t := by
  apply List.filter_eq_self.mpr
  intro entry hentry
  have hne : entry.1 ≠ name := by
    rintro rfl
    exact h (List.mem_map_of_mem hentry)
  simpa using hne

theorem erase_cons (name first : String) (value : α) (rest : Table α) :
    erase ((first, value) :: rest) name =
      if first = name then rest.erase name else (first, value) :: rest.erase name := by
  by_cases h : first = name <;> simp [erase, h]

theorem nodup_erase {t : Table α} (h : t.names.Nodup) (name : String) :
    (t.erase name).names.Nodup :=
  (List.filter_sublist.map Prod.fst).nodup h

theorem names_put (t : Table α) (name : String) (value : α) :
    (t.put name value).names = if name ∈ t.names then t.names else t.names ++ [name] := by
  induction t with
  | nil => simp [put, names]
  | cons entry rest ih =>
      obtain ⟨first, old⟩ := entry
      simp only [names] at ih
      by_cases h : first = name
      · simp [put, h, names]
      · by_cases hrest : name ∈ rest.map Prod.fst <;>
          simp [put, h, names, ih, hrest, Ne.symm h]

theorem nodup_put {t : Table α} (h : t.names.Nodup) (name : String) (value : α) :
    (t.put name value).names.Nodup := by
  rw [names_put]
  split
  · exact h
  · rename_i hnew
    refine List.nodup_append.mpr ⟨h, by simp, fun a ha b hb => ?_⟩
    rw [List.mem_singleton.mp hb]
    rintro rfl
    exact hnew ha

/-- What is erased from a table is missing in the sum. -/
theorem total_erase (f : α → Nat) {t : Table α} (h : t.names.Nodup) (name : String) :
    t.total f = (t.erase name).total f + (t.get? name).elim 0 f := by
  induction t with
  | nil => rfl
  | cons entry rest ih =>
      obtain ⟨first, value⟩ := entry
      obtain ⟨hfirst, hrest⟩ := List.nodup_cons.mp h
      have htail := ih hrest
      rw [erase_cons, get?, total]
      by_cases heq : first = name
      · subst heq
        have hkept : Table.erase rest first = rest := erase_of_not_mem hfirst
        simp [hkept, Nat.add_comm]
      · simp only [heq, if_false, total]
        omega

theorem total_put (f : α → Nat) {t : Table α} (h : t.names.Nodup) (name : String) (value : α) :
    (t.put name value).total f = (t.erase name).total f + f value := by
  induction t with
  | nil => simp [put, total, erase]
  | cons entry rest ih =>
      obtain ⟨first, old⟩ := entry
      obtain ⟨hfirst, hrest⟩ := List.nodup_cons.mp h
      have htail := ih hrest
      rw [erase_cons, put]
      by_cases heq : first = name
      · subst heq
        have hkept : Table.erase rest first = rest := erase_of_not_mem hfirst
        simp [hkept, total, Nat.add_comm]
      · simp only [heq, if_false, total]
        omega

end Table

/-- The registries that a job stops, none or one. -/
def Job.halts : Job → List String
  | .stopAll call => [call.registry]
  | _ => []

/-- The registries that a call stops, as long as there is one. -/
def StopAll.halts (left : Option StopAll) : List String :=
  left.elim [] fun call => [call.registry]

namespace World

/-- Registries count the calls among the jobs and those that are just being looked after. -/
structure Tally (w : World) (aside : List String) : Prop where
  nodup : w.jobs.names.Nodup
  count : ∀ name, (w.registry name).stopping =
    w.jobs.total (fun job => job.halts.count name) + aside.count name

variable {w w' : World} {aside : List String} {name : String}

theorem Tally.of (h : w.Tally aside) (hjobs : w'.jobs = w.jobs)
    (hstopping : ∀ name, (w'.registry name).stopping = (w.registry name).stopping) :
    w'.Tally aside :=
  ⟨hjobs ▸ h.nodup, fun name => by rw [hstopping, hjobs, h.count]⟩

/-- A registry is stopping all while a call for it is under way. -/
theorem Tally.isStopping (h : w.Tally aside) {job : String} {call : StopAll}
    (hjob : w.jobs.get? job = some (.stopAll call)) :
    (w.registry call.registry).isStopping = true := by
  have hcount := h.count call.registry
  rw [Table.total_erase _ h.nodup job, hjob] at hcount
  have hself : (Job.stopAll call).halts.count call.registry = 1 := by simp [Job.halts]
  simp only [Option.elim_some, hself] at hcount
  simp only [Registry.isStopping, decide_eq_true_eq]
  omega

theorem abandon_jobs (w : World) (job : Job) : (w.abandon job).jobs = w.jobs := by
  cases job <;> rfl

theorem abandon_stopping (w : World) (job : Job) (name : String) :
    ((w.abandon job).registry name).stopping =
      (w.registry name).stopping - job.halts.count name := by
  cases job with
  | stopAll call =>
      simp only [abandon, Job.halts, registry_updateRegistry, List.count_singleton]
      by_cases h : call.registry = name <;> simp [h]
  | done _ | evaluations _ => simp [abandon, Job.halts]

theorem eraseJob_tally (h : w.Tally []) (name : String) {job : Job}
    (hjob : w.jobs.get? name = some job) :
    ({ w with jobs := w.jobs.erase name } : World).Tally job.halts where
  nodup := Table.nodup_erase h.nodup name
  count registry := by
    have hcount := h.count registry
    rw [Table.total_erase _ h.nodup name, hjob] at hcount
    exact hcount

theorem dropJob_tally (h : w.Tally []) (name : String) : (w.dropJob name).1.Tally [] := by
  unfold dropJob
  split
  · exact h
  · rename_i job hjob
    have herase := eraseJob_tally h name hjob
    refine ⟨(abandon_jobs _ job).symm ▸ herase.nodup, fun registry => ?_⟩
    rw [abandon_stopping, abandon_jobs, herase.count]
    simp

theorem keep_tally (job : Job) (h : w.Tally job.halts) (name : String) :
    (w.keep name job).1.Tally [] := by
  have hput := fun other =>
    Table.total_put (fun job : Job => job.halts.count other) h.nodup name job
  have herase := fun other =>
    Table.total_erase (fun job : Job => job.halts.count other) h.nodup name
  unfold keep
  dsimp only
  split
  · rename_i old hold
    refine ⟨?_, fun other => ?_⟩
    · rw [abandon_jobs]
      exact Table.nodup_put h.nodup name job
    · show ((w.abandon old).registry other).stopping = _
      have hcount := h.count other
      rw [herase other, hold] at hcount
      simp only [abandon_stopping, abandon_jobs, hput other, hcount, Option.elim_some]
      simp
      omega
  · rename_i hnone
    refine ⟨Table.nodup_put h.nodup name job, fun other => ?_⟩
    show (w.registry other).stopping = _
    have hcount := h.count other
    rw [herase other, hnone] at hcount
    simp only [hput other, hcount, Option.elim_none]
    simp

/-! What cutting a host off leaves alone. -/

theorem publish_registries (w : World) (key : Nat) (event : Event) (source : Source) :
    (w.publish key event source).registries = w.registries := by
  unfold publish
  dsimp only
  split <;> rfl

theorem publish_jobs (w : World) (key : Nat) (event : Event) (source : Source) :
    (w.publish key event source).jobs = w.jobs := by
  unfold publish
  dsimp only
  split <;> rfl

theorem cutOff_registry (w : World) (key : Nat) (name : String) :
    (w.cutOff key).registry name = w.registry name := by
  unfold cutOff requestStop
  split
  · rfl
  · rw [registry, publish_registries]
    rfl

theorem cutOff_jobs (w : World) (key : Nat) : (w.cutOff key).jobs = w.jobs := by
  unfold cutOff requestStop
  split
  · rfl
  · exact publish_jobs _ _ _ _

theorem cutOff_tally (h : w.Tally aside) (key : Nat) : (w.cutOff key).Tally aside :=
  h.of (cutOff_jobs w key) fun name => by rw [cutOff_registry]

theorem unregister_tally (h : w.Tally aside) (name : String) (id : Nat) :
    (w.updateRegistry name fun r => r.unregister id).Tally aside :=
  h.of rfl fun other => by
    rw [registry_updateRegistry]
    split
    · rename_i heq
      rw [← heq]
      rfl
    · rfl

theorem visitAll_tally {registry : String} (rest : List (Nat × Nat)) (h : w.Tally [registry]) :
    (visitAll registry rest w).2.Tally (StopAll.halts (visitAll registry rest w).1) := by
  induction rest generalizing w with
  | nil =>
      refine ⟨h.nodup, fun name => ?_⟩
      show ((w.endStopAll registry).registry name).stopping =
        w.jobs.total (fun job => job.halts.count name) + 0
      have hcount := h.count name
      rw [endStopAll, registry_updateRegistry]
      split
      · rename_i heq
        subst heq
        simp [hcount]
      · rename_i hne
        simpa [hne, List.count_singleton] using hcount
  | cons entry rest ih =>
      obtain ⟨id, key⟩ := entry
      unfold visitAll
      split
      · exact ih (unregister_tally h registry id)
      · split
        · exact ih h
        · split
          · exact h
          · dsimp only
            split
            · exact ih (unregister_tally (cutOff_tally h key) registry id)
            · exact cutOff_tally h key

theorem visitAll_jobs (registry : String) (rest : List (Nat × Nat)) (w : World) :
    (visitAll registry rest w).2.jobs = w.jobs := by
  induction rest generalizing w with
  | nil => rfl
  | cons entry rest ih =>
      unfold visitAll
      split
      · exact ih _
      · split
        · exact ih w
        · split
          · rfl
          · dsimp only
            split
            · exact (ih _).trans (cutOff_jobs w entry.2)
            · exact cutOff_jobs w entry.2

theorem resume_jobs (w : World) (call : StopAll) : (w.resume call).2.jobs = w.jobs := by
  unfold resume
  split
  · split
    · rfl
    · dsimp only
      split
      · exact (visitAll_jobs _ _ _).trans (cutOff_jobs w call.host)
      · exact cutOff_jobs w call.host
  · split
    · exact visitAll_jobs _ _ _
    · rfl

theorem keep_get? (w : World) (name other : String) (job : Job) :
    (w.keep name job).1.jobs.get? other = if name = other then some job else w.jobs.get? other := by
  unfold keep
  dsimp only
  split
  · rw [abandon_jobs, Table.get?_put]
  · rw [Table.get?_put]

theorem resume_tally {call : StopAll} (h : w.Tally [call.registry]) :
    (w.resume call).2.Tally (StopAll.halts (w.resume call).1) := by
  have hvisited : ∀ w' : World, w'.Tally [call.registry] →
      (w'.visited call).2.Tally (StopAll.halts (w'.visited call).1) := fun w' h' =>
    visitAll_tally call.rest (unregister_tally h' call.registry _)
  unfold resume
  split
  · split
    · exact h
    · dsimp only
      split
      · exact hvisited _ (cutOff_tally h call.host)
      · exact cutOff_tally h call.host
  · split
    · exact hvisited w h
    · exact h

theorem keepCall_tally {left : Option StopAll × World} (h : left.2.Tally (StopAll.halts left.1))
    (name : String) : (keepCall name left).1.Tally [] := by
  obtain ⟨_ | call, w'⟩ := left
  · exact h
  · exact keep_tally (.stopAll call) h name

end World

end TickHost
