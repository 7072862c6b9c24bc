import TickHost.Fetch.Gathering

/-!
The two ways to get a batch. However the tasks of a batch of files end, the callback is called once
and with the same results that the caller would have read itself, each URL with its own. Who waits
for any other batch goes on with what the callback was called with, and with nothing but
cancellations if it was dropped.
-/

namespace TickHost

/-! ### Results -/

namespace FetchResults

variable {r : FetchResults} {url other : Url} {result : Except LoadFault String}

theorem get?_cons (u : Url) (v : Except LoadFault String) :
    get? ((u, v) :: r) url = if url = u then some v else r.get? url := by
  by_cases h : url = u
  · simp [get?, h]
  · simp [get?, List.lookup_cons, beq_false_of_ne h, h]

theorem get?_filter_ne : get? (r.filter fun (u, _) => u ≠ url) other =
    if other = url then none else r.get? other := by
  induction r with
  | nil => simp [get?]
  | cons entry rest ih =>
      obtain ⟨u, v⟩ := entry
      rw [List.filter_cons, get?_cons]
      by_cases hu : u = url
      · rw [if_neg (by simp [hu]), ih]
        by_cases ho : other = url <;> simp [ho, hu]
      · rw [if_pos (by simp [hu]), get?_cons, ih]
        by_cases ho : other = u <;> simp [ho, hu]

theorem get?_put : (r.put url result).get? other =
    if other = url then some result else r.get? other := by
  have hkept : get? (r.filter fun (u, _) => u ≠ url) other = _ := get?_filter_ne
  have hnew : get? [(url, result)] other = _ := get?_cons url result
  unfold get? at hkept hnew ⊢
  rw [put, List.lookup_append, hkept, hnew]
  by_cases h : other = url <;> simp [h]

/-- Every URL has one result. -/
def Distinct (r : FetchResults) : Prop :=
  (r.map Prod.fst).Nodup

theorem Distinct.put (h : r.Distinct) : (r.put url result).Distinct := by
  have hkept : ((r.filter fun (u, _) => u ≠ url).map Prod.fst).Nodup :=
    List.Nodup.sublist (List.filter_sublist.map Prod.fst) h
  unfold Distinct FetchResults.put
  rw [List.map_append, List.nodup_append]
  refine ⟨hkept, by simp, ?_⟩
  simp only [List.mem_map, List.mem_filter, List.map_cons, List.map_nil, List.mem_singleton]
  rintro u ⟨entry, ⟨-, hne⟩, rfl⟩ v rfl
  simpa using hne

theorem mem_iff_get? (h : r.Distinct) : (url, result) ∈ r ↔ r.get? url = some result := by
  induction r with
  | nil => simp [get?]
  | cons entry rest ih =>
      obtain ⟨u, v⟩ := entry
      obtain ⟨hnew, hrest⟩ := List.nodup_cons.mp h
      rw [get?_cons, List.mem_cons, Prod.mk.injEq, ih hrest]
      by_cases hu : url = u
      · subst hu
        have hnone : get? rest url ≠ some result := fun hfound =>
          hnew (List.mem_map.mpr ⟨_, (ih hrest).mpr hfound, rfl⟩)
        simp [hnone, eq_comm]
      · simp [hu]

/-- Results that answer alike differ in nothing but their order. -/
theorem perm_of_get? {s : FetchResults} (hr : r.Distinct) (hs : s.Distinct)
    (hsame : ∀ url, r.get? url = s.get? url) : r.Perm s := by
  have hnodup : ∀ {t : FetchResults}, t.Distinct → t.Nodup := fun ht =>
    (List.pairwise_map.mp ht).imp fun hne heq => hne (congrArg Prod.fst heq)
  refine (List.perm_ext_iff_of_nodup (hnodup hr) (hnodup hs)).mpr ?_
  rintro ⟨url, result⟩
  rw [mem_iff_get? hr, mem_iff_get? hs, hsame]

theorem foldl_put (result : Url → Except LoadFault String) (urls : List Url) :
    (urls.foldl (fun r url => r.put url (result url)) r).get? url =
      if url ∈ urls then some (result url) else r.get? url := by
  induction urls generalizing r with
  | nil => simp
  | cons first rest ih =>
      rw [List.foldl_cons, ih, get?_put]
      by_cases hrest : url ∈ rest
      · simp [hrest]
      · by_cases hfirst : url = first <;> simp [hrest, hfirst]

theorem Distinct.foldl_put (result : Url → Except LoadFault String) (urls : List Url)
    (h : r.Distinct) : (urls.foldl (fun r url => r.put url (result url)) r).Distinct := by
  induction urls generalizing r with
  | nil => exact h
  | cons first rest ih => exact ih h.put

theorem get?_refused (fault : Url → LoadFault) (urls : List Url) :
    (refused fault urls).get? url = if url ∈ urls then some (.error (fault url)) else none :=
  foldl_put (r := []) (fun url => .error (fault url)) urls

theorem refused_distinct (fault : Url → LoadFault) (urls : List Url) :
    (refused fault urls).Distinct :=
  Distinct.foldl_put (fun url => .error (fault url)) urls List.nodup_nil

end FetchResults

theorem Disk.get?_readUrls (disk : Disk) (urls : List Url) (url : Url) :
    (disk.readUrls urls).get? url = if url ∈ urls then some (disk.readUrl url) else none :=
  FetchResults.foldl_put (r := []) disk.readUrl urls

theorem Disk.readUrls_distinct (disk : Disk) (urls : List Url) : (disk.readUrls urls).Distinct :=
  FetchResults.Distinct.foldl_put disk.readUrl urls List.nodup_nil

/-! ### Tasks -/

namespace Gathering

variable {disk : Disk} {urls : List Url} {g g' : Gathering} {moves : List Move} {move : Move}

/-- Each file is read and taken in, and then there is one answer. -/
def todo (g : Gathering) : Nat :=
  2 * g.reading.length + g.ended.length + if g.called then 0 else 1

theorem step?_read_iff {index : Nat} : g.step? disk (.read index) = some g' ↔
    ∃ url, g.reading[index]? = some url ∧ g' =
      { g with reading := g.reading.eraseIdx index, ended := g.ended ++ [(url, disk.readUrl url)] }
    := by
  simp only [step?, Option.map_eq_some_iff, eq_comm (b := g')]

theorem step?_take_iff : g.step? disk .take = some g' ↔
    ∃ url result rest, g.ended = (url, result) :: rest ∧
      g' = { g with ended := rest, results := g.results.put url result } := by
  simp only [step?]
  cases hended : g.ended with
  | nil => simp
  | cons entry rest => simp [eq_comm, Prod.ext_iff, and_assoc]

theorem step?_answer_iff : g.step? disk .answer = some g' ↔
    (g.called = false ∧ g.reading = [] ∧ g.ended = []) ∧
      g' = { g with answers := g.answers ++ [g.results], called := true } := by
  have hidle : ¬(g.called = true ∨ g.reading ≠ [] ∨ g.ended ≠ []) ↔
      g.called = false ∧ g.reading = [] ∧ g.ended = [] := by simp
  simp only [step?]
  split
  · rename_i hbusy
    have hnot : ¬(g.called = false ∧ g.reading = [] ∧ g.ended = []) := fun h => hidle.mpr h hbusy
    simp only [reduceCtorEq, hnot, false_and]
  · rename_i hfree
    simp only [Option.some.injEq, hidle.mp hfree, and_self, true_and, eq_comm (b := g')]

theorem todo_step (hstep : g.step? disk move = some g') : g'.todo + 1 = g.todo := by
  cases move with
  | read index =>
      obtain ⟨url, hurl, rfl⟩ := step?_read_iff.mp hstep
      have hindex : index < g.reading.length := (List.getElem?_eq_some_iff.mp hurl).1
      simp only [todo, List.length_eraseIdx, hindex, if_true, List.length_append,
        List.length_singleton]
      omega
  | take =>
      obtain ⟨url, result, rest, hended, rfl⟩ := step?_take_iff.mp hstep
      simp only [todo, hended, List.length_cons]
      omega
  | answer =>
      obtain ⟨⟨hcalled, hreading, hended⟩, rfl⟩ := step?_answer_iff.mp hstep
      simp [todo, hcalled]

/-- Nothing gets lost on the way from the list to the results, and every URL keeps its own. -/
structure Fair (disk : Disk) (urls : List Url) (g : Gathering) : Prop where
  complete : ∀ url, url ∈ urls ↔
    url ∈ g.reading ∨ (∃ result, (url, result) ∈ g.ended) ∨ (g.results.get? url).isSome
  ended : ∀ url result, (url, result) ∈ g.ended → result = disk.readUrl url
  own : ∀ url result, g.results.get? url = some result → result = disk.readUrl url
  distinct : g.results.Distinct
  answers : g.answers = if g.called then [g.results] else []
  idle : g.called = true → g.reading = [] ∧ g.ended = []

theorem fair_start : Fair disk urls (start urls) where
  complete url := by simp [start, FetchResults.get?]
  ended := by simp [start]
  own := by simp [start, FetchResults.get?]
  distinct := List.nodup_nil
  answers := rfl
  idle h := by cases h

theorem mem_or_of_getElem? {α : Type} {xs : List α} {i : Nat} {x : α} (hx : xs[i]? = some x)
    (y : α) : y ∈ xs ↔ y = x ∨ y ∈ xs.eraseIdx i := by
  obtain ⟨hi, rfl⟩ := List.getElem?_eq_some_iff.mp hx
  constructor
  · intro hy
    obtain ⟨j, hj, rfl⟩ := List.mem_iff_getElem.mp hy
    by_cases hji : j = i
    · subst hji
      exact .inl rfl
    · exact .inr (List.mem_eraseIdx_iff_getElem.mpr ⟨j, hj, hji, rfl⟩)
  · rintro (rfl | hy)
    · exact List.getElem_mem hi
    · exact List.mem_of_mem_eraseIdx hy

theorem Fair.step (h : Fair disk urls g) (hstep : g.step? disk move = some g') :
    Fair disk urls g' := by
  cases move with
  | read index =>
      obtain ⟨url, hurl, rfl⟩ := step?_read_iff.mp hstep
      have hopen : g.called = false := Bool.eq_false_iff.mpr fun hcalled => by
        simp [(h.idle hcalled).1] at hurl
      refine { h with complete := fun other => ?_, ended := ?_, idle := ?_ }
      · rw [h.complete, mem_or_of_getElem? hurl other]
        simp only [List.mem_append, List.mem_singleton, Prod.mk.injEq]
        grind
      · intro other result hmem
        rcases List.mem_append.mp hmem with hmem | hmem
        · exact h.ended other result hmem
        · simp only [List.mem_singleton, Prod.mk.injEq] at hmem
          rw [hmem.1, hmem.2]
      · intro hcalled
        simp [hopen] at hcalled
  | take =>
      obtain ⟨url, result, rest, hended, rfl⟩ := step?_take_iff.mp hstep
      have hopen : g.called = false := Bool.eq_false_iff.mpr fun hcalled => by
        simp [(h.idle hcalled).2] at hended
      refine { complete := fun other => ?_, ended := ?_, own := ?_, distinct := h.distinct.put,
               answers := by simp [h.answers, hopen], idle := by simp [hopen] }
      · rw [h.complete, hended, FetchResults.get?_put]
        by_cases hother : other = url
        · simp [hother]
        · simp [hother]
      · intro other found hmem
        exact h.ended other found (hended ▸ List.mem_cons_of_mem _ hmem)
      · intro other found hfound
        rw [FetchResults.get?_put] at hfound
        split at hfound
        · rename_i hother
          cases hfound
          rw [hother]
          exact h.ended url result (hended ▸ List.mem_cons_self)
        · exact h.own other found hfound
  | answer =>
      obtain ⟨⟨hcalled, hreading, hended⟩, rfl⟩ := step?_answer_iff.mp hstep
      exact { h with answers := by simp [h.answers, hcalled], idle := fun _ => ⟨hreading, hended⟩ }

theorem run?_cons : g.run? disk (move :: moves) =
    (g.step? disk move).bind fun next => next.run? disk moves :=
  List.foldlM_cons

/-- Along a run the batch stays fair, and each move leaves one thing less to do. -/
theorem Fair.run (h : Fair disk urls g) (hrun : g.run? disk moves = some g') :
    Fair disk urls g' ∧ moves.length + g'.todo = g.todo := by
  induction moves generalizing g with
  | nil =>
      cases hrun
      exact ⟨h, Nat.zero_add _⟩
  | cons move moves ih =>
      rw [run?_cons, Option.bind_eq_some_iff] at hrun
      obtain ⟨next, hstep, hrun⟩ := hrun
      obtain ⟨hfair, hcount⟩ := ih (h.step hstep) hrun
      refine ⟨hfair, ?_⟩
      rw [← todo_step hstep, ← hcount, List.length_cons]
      omega

/-- A batch that cannot go on is through. -/
theorem called_of_stuck (hstuck : ∀ move, g.step? disk move = none) : g.called = true := by
  have hreading : g.reading = [] := by
    refine List.eq_nil_iff_length_eq_zero.mpr (Nat.eq_zero_of_not_pos fun hpos => ?_)
    have hread := hstuck (.read 0)
    simp [step?, List.getElem?_eq_getElem hpos] at hread
  have hended : g.ended = [] := by
    cases hended : g.ended with
    | nil => rfl
    | cons entry rest =>
        have htake := hstuck .take
        simp [step?, hended] at htake
  cases hcalled : g.called with
  | true => rfl
  | false =>
      have hanswer := hstuck .answer
      simp [step?, hreading, hended, hcalled] at hanswer

/-- Every batch can be brought to its end. -/
theorem completes (g : Gathering) : ∃ moves g', g.run? disk moves = some g' ∧
    ∀ move, g'.step? disk move = none := by
  by_cases hstuck : ∀ move, g.step? disk move = none
  · exact ⟨[], g, rfl, hstuck⟩
  · obtain ⟨move, hmove⟩ := Classical.not_forall.mp hstuck
    obtain ⟨next, hstep⟩ := Option.ne_none_iff_exists'.mp hmove
    have hless : next.todo < g.todo := by
      have := todo_step hstep
      omega
    obtain ⟨moves, last, hrun, hlast⟩ := completes next
    exact ⟨move :: moves, last, by rw [run?_cons, hstep]; exact hrun, hlast⟩
termination_by g.todo

/-- When all is taken in, the results are those of reading one file after the other. -/
theorem Fair.results_perm (h : Fair disk urls g) (hcalled : g.called = true) :
    g.results.Perm (disk.readUrls urls) := by
  obtain ⟨hreading, hended⟩ := h.idle hcalled
  refine FetchResults.perm_of_get? h.distinct (disk.readUrls_distinct urls) fun url => ?_
  rw [disk.get?_readUrls]
  have hcomplete := h.complete url
  simp only [hreading, hended, List.not_mem_nil, false_or, exists_false] at hcomplete
  cases hfound : g.results.get? url with
  | none => simp [hcomplete, hfound]
  | some result =>
      rw [h.own url result hfound]
      simp [hcomplete, hfound]

end Gathering

/-! ### Waiting -/

namespace Wait

variable {urls : List Url} {w w' : Wait} {moves : List Move} {move : Move}

/-- The states of a caller, by what the callback was called with so far. -/
inductive Phase (urls : List Url) : Option FetchResults → Wait → Prop where
  | pending : Phase urls none ⟨true, true, none, none⟩
  | sent (results : FetchResults) (held : Bool) :
      Phase urls (some results) ⟨false, held, some results, none⟩
  | served (results : FetchResults) (held : Bool) :
      Phase urls (some results) ⟨false, held, none, some results⟩
  | dropped : Phase urls none ⟨false, false, none, none⟩
  | cancelled : Phase urls none ⟨false, false, none, some (FetchResults.cancelled urls)⟩

theorem Phase.step {delivered : Option FetchResults} (h : Phase urls delivered w)
    (hstep : w.step? urls move = some w') :
    Phase urls (delivered.or (delivered? [move])) w' := by
  cases move with
  | call results =>
      cases h with
      | pending =>
          cases hstep
          exact .sent results true
      | sent | served | dropped | cancelled => cases hstep
  | drop =>
      rw [delivered?, List.findSome?_singleton, Option.or_none]
      cases h with
      | pending =>
          cases hstep
          exact .dropped
      | sent results held =>
          cases held with
          | true =>
              cases hstep
              exact .sent results false
          | false => cases hstep
      | served results held =>
          cases held with
          | true =>
              cases hstep
              exact .served results false
          | false => cases hstep
      | dropped | cancelled => cases hstep
  | wake =>
      rw [delivered?, List.findSome?_singleton, Option.or_none]
      cases h with
      | sent results held =>
          cases hstep
          exact .served results held
      | dropped =>
          cases hstep
          exact .cancelled
      | pending | served | cancelled => cases hstep

theorem Phase.run {delivered : Option FetchResults} (h : Phase urls delivered w)
    (hrun : w.run? urls moves = some w') : Phase urls (delivered.or (delivered? moves)) w' := by
  induction moves generalizing delivered w with
  | nil =>
      cases hrun
      rwa [delivered?, List.findSome?_nil, Option.or_none]
  | cons move moves ih =>
      rw [run?, List.foldlM_cons] at hrun
      obtain ⟨next, hstep, hrun⟩ := Option.bind_eq_some_iff.mp hrun
      have hnext := ih (h.step hstep) hrun
      rwa [Option.or_assoc, delivered?, delivered?, ← List.findSome?_append] at hnext

theorem phase_of_run (hrun : start.run? urls moves = some w) :
    Phase urls (delivered? moves) w := by
  simpa only [Option.none_or] using Phase.pending.run hrun

end Wait

/-- What a fetcher does with the callback of a caller that waits. -/
def Fetcher.moves (f : Fetcher) (disk : Disk) (remote : Table String) (urls : List Url) :
    List Wait.Move :=
  if f.silent then [.drop, .wake] else [.call (f.results disk remote urls), .drop, .wake]

/-- The answer to a caller that waits is what it goes on with. -/
theorem Fetcher.moves_received (f : Fetcher) (disk : Disk) (remote : Table String)
    (urls : List Url) : (Wait.start.run? urls (f.moves disk remote urls)).bind Wait.received =
      some (f.resultsNow disk remote urls) := by
  rw [moves, resultsNow]
  cases f.silent with
  | true => rfl
  | false => rfl

/-- A fetcher of files has the results of reading one file after the other. -/
theorem Fetcher.results_of_fromDisk {f : Fetcher} (hdisk : f.fromDisk = true) (disk : Disk)
    (remote : Table String) (urls : List Url) :
    f.results disk remote urls = disk.readUrls urls := by
  simp [Fetcher.results, FetchResults.collect, Fetcher.find?, hdisk, Disk.readUrls]

/-! ### Batches of files and of anything else -/

/-- Batches of files, gathered by tasks and read one after the other. -/
structure Gathered (disk : Disk) (urls : List Url) : Prop where
  /-- The callback is not called twice, and the tasks come to an end in whatever order. -/
  ends : ∀ moves g, (Gathering.start urls).run? disk moves = some g →
    g.answers.length ≤ 1 ∧ moves.length ≤ 2 * urls.length + 1
  /-- However far they are, they can be brought to their end. -/
  completes : ∀ g : Gathering, ∃ moves g', g.run? disk moves = some g' ∧
    ∀ move, g'.step? disk move = none
  /-- When nothing can go on, it was called, with the results that the caller would have read. -/
  agrees : ∀ moves g, (Gathering.start urls).run? disk moves = some g →
    (∀ move, g.step? disk move = none) →
      ∃ results, g.answers = [results] ∧ results.Perm (disk.readUrls urls)
  distinct : (disk.readUrls urls).Distinct
  /-- There are results for the URLs of the list and no others, and each has its own. -/
  own : ∀ url, (disk.readUrls urls).get? url =
    if url ∈ urls then some (disk.readUrl url) else none
  /-- A host whose scripts come from files gets these results, whether it waits for them or not. -/
  fetched : ∀ (f : Fetcher) (remote : Table String), f.fromDisk = true →
    f.results disk remote urls = disk.readUrls urls

/-- Waiting for a batch, whatever its fetcher does with the callback. -/
structure Awaited (urls : List Url) : Prop where
  /-- The caller goes on with what was delivered, or else with cancellations. -/
  received : ∀ moves w results, Wait.start.run? urls moves = some w →
    w.received = some results →
      results = (Wait.delivered? moves).getD (FetchResults.cancelled urls)
  /-- It waits as long as the callback can be called. -/
  waits : ∀ moves w, Wait.start.run? urls moves = some w → w.callable = true →
    w.received = none ∧ w.step? urls .wake = none
  /-- It can go on as soon as the callback was called or dropped. -/
  wakes : ∀ moves w, Wait.start.run? urls moves = some w → w.callable = false →
    w.received.isSome ∨ (w.step? urls .wake).isSome
  distinct : (FetchResults.cancelled urls).Distinct
  /-- The given URLs are cancelled, and nothing else is. -/
  cancelled : ∀ url, (FetchResults.cancelled urls).get? url =
    if url ∈ urls then some (.error (.cancelled url.render)) else none
  fetched : ∀ (f : Fetcher) (disk : Disk) (remote : Table String),
    (Wait.start.run? urls (f.moves disk remote urls)).bind Wait.received =
      some (f.resultsNow disk remote urls)

/-- A batch of files has the same results whichever way it is fetched, and who waits for a batch
gets what its fetcher delivers. -/
theorem batches_agree (disk : Disk) (urls : List Url) : Gathered disk urls ∧ Awaited urls := by
  refine ⟨{ ends := ?_, completes := Gathering.completes, agrees := ?_,
            distinct := disk.readUrls_distinct urls,
            own := disk.get?_readUrls urls,
            fetched := fun f remote hdisk => f.results_of_fromDisk hdisk disk remote urls },
    { received := ?_, waits := ?_, wakes := ?_,
      distinct := FetchResults.refused_distinct _ urls,
      cancelled := fun _ => FetchResults.get?_refused _ urls,
      fetched := fun f disk remote => f.moves_received disk remote urls }⟩
  · intro moves g hrun
    obtain ⟨hfair, hcount⟩ := Gathering.fair_start.run hrun
    have hstart : (Gathering.start urls).todo = 2 * urls.length + 1 := rfl
    refine ⟨?_, by omega⟩
    rw [hfair.answers]
    split <;> simp
  · intro moves g hrun hstuck
    obtain ⟨hfair, -⟩ := Gathering.fair_start.run hrun
    have hcalled := Gathering.called_of_stuck hstuck
    exact ⟨g.results, by rw [hfair.answers, if_pos hcalled], hfair.results_perm hcalled⟩
  · intro moves w results hrun hreceived
    have hphase := Wait.phase_of_run hrun
    generalize Wait.delivered? moves = delivered at hphase
    cases hphase with
    | served | cancelled =>
        cases hreceived
        rfl
    | pending | sent | dropped => cases hreceived
  · intro moves w hrun hcallable
    have hphase := Wait.phase_of_run hrun
    generalize Wait.delivered? moves = delivered at hphase
    cases hphase with
    | pending => exact ⟨rfl, rfl⟩
    | sent | served | dropped | cancelled => cases hcallable
  · intro moves w hrun hcallable
    have hphase := Wait.phase_of_run hrun
    generalize Wait.delivered? moves = delivered at hphase
    cases hphase with
    | pending => cases hcallable
    | sent | dropped => exact .inr rfl
    | served | cancelled => exact .inl rfl

end TickHost
